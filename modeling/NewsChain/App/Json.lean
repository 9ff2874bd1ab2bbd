import NewsChain.Base.AssetText
import NewsChain.Lib.Scanner

/-!
# JSON

`fc::variant` and the parts of `fc::json` that the node's interface is made of: `to_string`, and
`from_string` with the legacy parser. A string is the list of its characters, each of them a byte; numbers
with a point are a parameter.
-/

namespace NewsChain

/-- The exceptions, by the format of their message. -/
inductive JsonExc
  /-- `eof_exception` -/
  | eof
  /-- `parse_error_exception` -/
  | parseError (format : String)
  /-- `FC_ASSERT` -/
  | assertion (format : String)
  /-- No exception of the code: the scanner went on for too long. -/
  | exhausted
deriving DecidableEq

/-- The type `double`: `to_double` and `to_string`. -/
class Doubles (δ : Type) where
  toDouble : Text → Option δ
  toText : δ → Text

/-- `variant`. -/
inductive Variant (δ : Type)
  | null
  | int64 (i : Int64)
  | uint64 (n : UInt64)
  | double (d : δ)
  | bool (b : Bool)
  | string (s : Text)
  | array (variants : List (Variant δ))
  | object (entries : List (Text × Variant δ))

/-- `output_formatting`. -/
inductive OutputFormatting
  | stringifyLargeIntsAndDoubles
  | legacyGenerator
deriving DecidableEq

/-- `parse_type`, without the strict and the relaxed parser. -/
inductive ParseType
  | legacyParser
  | legacyParserWithStringDoubles
deriving DecidableEq

namespace Json

variable {δ : Type}

/-! ## Output -/

/-- `fc::to_string( int64_t )`. -/
def int64Text (i : Int64) : Text :=
  if i < 0 then '-' :: Nat.toDigits 10 i.toInt.natAbs else Nat.toDigits 10 i.toInt.natAbs

def boolText (b : Bool) : Text := if b then "true".toList else "false".toList

/-- A case of the loop of `escape_string`. -/
def escapeChar (c : Char) : Text :=
  match c with
  | '\x08' => ['\\', 'b']
  | '\x0c' => ['\\', 'f']
  | '\n' => ['\\', 'n']
  | '\r' => ['\\', 'r']
  | '\t' => ['\\', 't']
  | '\\' => ['\\', '\\']
  | '"' => ['\\', '"']
  | c =>
    if c.toNat < 32 then
      ['\\', 'u', '0', '0', Nat.digitChar (c.toNat / 16), Nat.digitChar (c.toNat % 16)]
    else [c]

/-- `escape_string`. -/
def escapeString (s : Text) : Text := '"' :: (s.flatMap escapeChar ++ ['"'])

/-- A number as it is, or as a string. -/
def quotedIf (large : Bool) (s : Text) : Text := if large then '"' :: (s ++ ['"']) else s

mutual

/-- `to_stream`. -/
def toStream [Doubles δ] (format : OutputFormatting) : Variant δ → Text
  | .null => "null".toList
  | .int64 i => quotedIf (format = .stringifyLargeIntsAndDoubles ∧ 0xffffffff < i) (int64Text i)
  | .uint64 n => quotedIf (format = .stringifyLargeIntsAndDoubles ∧ 0xffffffff < n) (decimalText n)
  | .double d => quotedIf (format = .stringifyLargeIntsAndDoubles) (Doubles.toText d)
  | .bool b => boolText b
  | .string s => escapeString s
  | .array variants => '[' :: (arrayToStream format variants ++ [']'])
  | .object entries => '{' :: (objectToStream format entries ++ ['}'])

/-- The loop of `to_stream` over the elements of an array. -/
def arrayToStream [Doubles δ] (format : OutputFormatting) : List (Variant δ) → Text
  | [] => []
  | [v] => toStream format v
  | v :: variants => toStream format v ++ ',' :: arrayToStream format variants

/-- The loop of `to_stream` over the entries of an object. -/
def objectToStream [Doubles δ] (format : OutputFormatting) : List (Text × Variant δ) → Text
  | [] => []
  | [(key, v)] => escapeString key ++ ':' :: toStream format v
  | (key, v) :: entries =>
    escapeString key ++ ':' :: (toStream format v ++ ',' :: objectToStream format entries)

end

/-- `json::to_string`. -/
def toString [Doubles δ] (format : OutputFormatting) (v : Variant δ) : Text := toStream format v

/-! ## Input -/

abbrev JsonM := Scanner JsonExc Char

def isWhiteSpace (c : Char) : Bool := c = ' ' ∨ c = '\t' ∨ c = '\n' ∨ c = '\r'

/-- `skip_white_space`. -/
def skipWhiteSpace : JsonM Bool :=
  scanLoop (fun skipped => do
    if isWhiteSpace (← peek .eof) then
      let _ ← next .eof
      pure (.inl true)
    else pure (.inr skipped)) .exhausted false

/-- The cases of `parseEscape`. -/
def unescape : Char → Char
  | 't' => '\t'
  | 'n' => '\n'
  | 'r' => '\r'
  | c => c

/-- `parseEscape`. -/
def parseEscape : JsonM Char := do
  if (← peek .eof) = '\\' then
    let _ ← next .eof
    let c ← next .eof
    pure (unescape c)
  else throw (.parseError "Expected '\\'")

/-- A round of the loop of `stringFromStream`. -/
def stringRound (token : Text) : JsonM (Text ⊕ Text) := do
  let c ← peek .eof
  if c = '\\' then
    let e ← parseEscape
    pure (.inl (token ++ [e]))
  else if c = '\x04' then throw (.parseError "EOF before closing '\"' in string '${token}'")
  else if c = '"' then
    let _ ← next .eof
    pure (.inr token)
  else
    let _ ← next .eof
    pure (.inl (token ++ [c]))

/-- `stringFromStream`. -/
def stringFromStream : JsonM Text := do
  if (← peek .eof) = '"' then
    let _ ← next .eof
    scanLoop stringRound .exhausted []
  else throw (.parseError "Expected '\"' but read '${char}'")

/-- A character of a token that is no string. -/
def isTokenChar (c : Char) : Bool :=
  c.isAlphanum || c = '_' || c = '-' || c = '.' || c = ':' || c = '/'

/-- A round of the loop of `stringFromToken`. Where the text ends, in an escape or not, the token ends. -/
def tokenRound (token : Text) : JsonM (Text ⊕ Text) := do
  match ← peek? with
  | none => pure (.inr token)
  | some c =>
    if c = '\\' then
      let _ ← next .eof
      match ← peek? with
      | none => pure (.inr token)
      | some e =>
        let _ ← next .eof
        pure (.inl (token ++ [unescape e]))
    else if c = '\t' ∨ c = ' ' ∨ c = '\x00' ∨ c = '\n' then
      let _ ← next .eof
      pure (.inr token)
    else if isTokenChar c then
      let _ ← next .eof
      pure (.inl (token ++ [c]))
    else pure (.inr token)

/-- `stringFromToken`. -/
def stringFromToken : JsonM Text := scanLoop tokenRound .exhausted []

/-- `to_int64`. -/
def numberFromInt64 (s : Text) : JsonM (Variant δ) :=
  match toInt64 s with
  | .ok i => pure (.int64 i)
  | .error _ => throw (.parseError "Couldn't parse int64_t")

/-- `to_uint64`, of digits. -/
def numberFromUint64 (s : Text) : JsonM (Variant δ) :=
  if s ≠ [] ∧ s.all Char.isDigit ∧ Nat.ofDigitChars 10 s 0 < 2 ^ 64 then
    pure (.uint64 (.ofNat (Nat.ofDigitChars 10 s 0)))
  else throw (.parseError "Couldn't parse uint64_t")

/-- The end of `number_from_stream`. -/
def numberOf [Doubles δ] (parserType : ParseType) (neg dot : Bool) (str : Text) : JsonM (Variant δ) :=
  if str = ['-', '.'] ∨ str = ['.'] then
    throw (.parseError "Can't parse token \"${token}\" as a JSON numeric constant")
  else if dot then
    if parserType = .legacyParserWithStringDoubles then pure (.string str)
    else
      match Doubles.toDouble str with
      | some d => pure (.double d)
      | none => throw (.parseError "Couldn't parse double")
  else if neg then numberFromInt64 str
  else numberFromUint64 str

/-- A round of the loop of `number_from_stream`, on what was read and whether there was a point. -/
def numberRound [Doubles δ] (parserType : ParseType) (neg : Bool) (x : Text × Bool) :
    JsonM ((Text × Bool) ⊕ Variant δ) := do
  match ← peek? with
  | none => Sum.inr <$> numberOf parserType neg x.2 x.1
  | some c =>
    if c = '\x00' then Sum.inr <$> numberOf parserType neg x.2 x.1
    else if c = '.' then
      if x.2 then throw (.parseError "Can't parse a number with two decimal places")
      else
        let _ ← next .eof
        pure (.inl (x.1 ++ ['.'], true))
    else if c.isDigit then
      let _ ← next .eof
      pure (.inl (x.1 ++ [c], x.2))
    else if c.isAlphanum then
      let rest ← stringFromToken
      pure (.inr (.string (x.1 ++ rest)))
    else Sum.inr <$> numberOf parserType neg x.2 x.1

/-- `number_from_stream`. -/
def numberFromStream [Doubles δ] (parserType : ParseType) : JsonM (Variant δ) := do
  if (← peek .eof) = '-' then
    let _ ← next .eof
    scanLoop (numberRound parserType true) .exhausted (['-'], false)
  else scanLoop (numberRound parserType false) .exhausted ([], false)

/-- A character of the words that `token_from_stream` knows. -/
def isWordChar (c : Char) : Bool := c ∈ "nultrefas".toList

/-- A round of the loop of `token_from_stream`. Its answer says whether the text ended. -/
def wordRound (str : Text) : JsonM (Text ⊕ (Text × Bool)) := do
  match ← peek? with
  | none => pure (.inr (str, true))
  | some c =>
    if isWordChar c then
      let _ ← next .eof
      pure (.inl (str ++ [c]))
    else pure (.inr (str, false))

/-- `token_from_stream`. -/
def tokenFromStream : JsonM (Variant δ) := do
  let (str, receivedEof) ← scanLoop wordRound .exhausted []
  if str = "null".toList then pure .null
  else if str = "true".toList then pure (.bool true)
  else if str = "false".toList then pure (.bool false)
  else if receivedEof then
    if str = [] then throw (.parseError "Unexpected EOF") else pure (.string str)
  else
    let rest ← stringFromToken
    pure (.string (str ++ rest))

/-- A round of the loop of `objectFromStream`. -/
def objectRound (value : JsonM (Variant δ)) (obj : List (Text × Variant δ)) :
    JsonM (List (Text × Variant δ) ⊕ List (Text × Variant δ)) := do
  let c ← peek .eof
  if c = '}' then pure (.inr obj)
  else if c = ',' then
    let _ ← next .eof
    pure (.inl obj)
  else if ← skipWhiteSpace then pure (.inl obj)
  else
    let key ← stringFromStream
    let _ ← skipWhiteSpace
    if (← peek .eof) ≠ ':' then throw (.parseError "Expected ':' after key \"${key}\"")
    else
      let _ ← next .eof
      let v ← value
      let _ ← skipWhiteSpace
      pure (.inl (obj ++ [(key, v)]))

/-- `objectFromStream`. -/
def objectFromStream (value : JsonM (Variant δ)) : JsonM (Variant δ) :=
  tryCatch
    (do
      if (← peek .eof) = '{' then
        let _ ← next .eof
        let _ ← skipWhiteSpace
        let obj ← scanLoop (objectRound value) .exhausted []
        let _ ← next .eof
        pure (.object obj)
      else throw (.parseError "Expected '\x7b', but read '${char}'"))
    fun
      | .eof => throw (.parseError "Unexpected EOF: ${e}")
      | e => throw e

/-- A round of the loop of `arrayFromStream`. -/
def arrayRound (value : JsonM (Variant δ)) (ar : List (Variant δ)) :
    JsonM (List (Variant δ) ⊕ List (Variant δ)) := do
  let c ← peek .eof
  if c = ']' then pure (.inr ar)
  else if c = ',' then
    let _ ← next .eof
    pure (.inl ar)
  else if ← skipWhiteSpace then pure (.inl ar)
  else
    let v ← value
    let _ ← skipWhiteSpace
    pure (.inl (ar ++ [v]))

/-- `arrayFromStream`. -/
def arrayFromStream (value : JsonM (Variant δ)) : JsonM (Variant δ) := do
  if (← peek .eof) = '[' then
    let _ ← next .eof
    let _ ← skipWhiteSpace
    let ar ← scanLoop (arrayRound value) .exhausted []
    let _ ← next .eof
    pure (.array ar)
  else throw (.parseError "Expected '['")

/-- `variant_from_stream`, where `value` is its calls of itself. -/
def variantFromStreamWith [Doubles δ] (parserType : ParseType) (value : JsonM (Variant δ)) :
    JsonM (Variant δ) := do
  let _ ← skipWhiteSpace
  let c ← peek .eof
  if c = '"' then
    let s ← stringFromStream
    pure (.string s)
  else if c = '{' then objectFromStream value
  else if c = '[' then arrayFromStream value
  else if c = '-' ∨ c = '.' ∨ c.isDigit then numberFromStream parserType
  else if c = 'n' ∨ c = 't' ∨ c = 'f' then tokenFromStream
  -- The end of a transmission, `EOF` and zero.
  else if c = '\x04' ∨ c = '\xff' ∨ c = '\x00' then throw .eof
  else throw (.parseError "Unexpected char '${c}' in \"${s}\"")

/-- `variant_from_stream`. Each call of itself comes after a bracket. -/
def variantFromStream [Doubles δ] (parserType : ParseType) : JsonM (Variant δ) := fun s =>
  (scanNested (variantFromStreamWith parserType) .exhausted (s.length + 1)).run s

/-- The loop of `check_string_depth`. -/
def checkStringDepthFrom (openObject openArray : Int) : Text → Except JsonExc Unit
  | [] => .ok ()
  | c :: s =>
    let openObject := if c = '{' then openObject + 1 else if c = '}' then openObject - 1 else openObject
    let openArray := if c = '[' then openArray + 1 else if c = ']' then openArray - 1 else openArray
    if openObject < 100 ∧ openArray < 100 then checkStringDepthFrom openObject openArray s
    else .error (.assertion "object graph too deep")

/-- `check_string_depth`. -/
def checkStringDepth (s : Text) : Except JsonExc Unit := checkStringDepthFrom 0 0 s

/-- `json::from_string`. What is left of the text is not looked at. -/
def fromString [Doubles δ] (ptype : ParseType) (s : Text) : Except JsonExc (Variant δ) := do
  checkStringDepth s
  match (variantFromStream ptype).run s with
  | .ok v _ => .ok v
  | .error e _ => .error e

end Json

end NewsChain
