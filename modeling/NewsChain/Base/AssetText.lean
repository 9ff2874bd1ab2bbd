import Mathlib.Data.List.DropRight
import NewsChain.Base.Exception
import NewsChain.Base.Types

/-!
# Assets as text

`asset::to_string` and `asset::from_string`, which carry assets through JSON, with what they use of
`asset_symbol`, `fc::trim`, `fc::to_string` and `fc::to_int64`.

A string is the list of its characters. Arithmetic between `int64_t` and `uint64_t` is done in
`uint64_t`, and every conversion and sum is modulo 2^64.
-/

namespace NewsChain

abbrev Text := List Char

/-! ## Strings -/

/-- `std::string::find`. -/
def Text.find (s : Text) (c : Char) : Option Nat := s.findIdx? (· == c)

/-- `std::isspace` in the classic locale. -/
def isSpace (c : Char) : Bool := c ∈ [' ', '\t', '\n', '\x0b', '\x0c', '\r']

/-- `fc::trim`. -/
def trim (s : Text) : Text := (s.dropWhile isSpace).rdropWhile isSpace

/-- `fc::to_string( uint64_t )`. -/
def decimalText (n : UInt64) : Text := Nat.toDigits 10 n.toNat

/-- A number without its sign. -/
def dropSign : Text → Text
  | '-' :: ds => ds
  | '+' :: ds => ds
  | ds => ds

/-- `fc::to_int64`, up to a null character: a sign or none, and nothing but digits. It throws a
`parse_error_exception`. -/
def toInt64 (s : Text) : Except Exc Int64 :=
  let s := s.takeWhile (· ≠ '\x00')
  let unsigned := dropSign s
  let n : Int := Nat.ofDigitChars 10 unsigned 0
  let value := if s.head? = some '-' then -n else n
  if unsigned ≠ [] ∧ unsigned.all Char.isDigit ∧ -2 ^ 63 ≤ value ∧ value < 2 ^ 63 then
    .ok (.ofInt value)
  else .error (.assertion "Couldn't parse int64_t")

/-! ## Symbols -/

/-- The loop of `asset_symbol::name`. A value has eight bytes. -/
def symbolBytes : Nat → UInt64 → Text
  | 0, _ => []
  | fuel + 1, value =>
    if 0 < value then Char.ofNat (value &&& 0xFF).toNat :: symbolBytes fuel (value >>> 8) else []

/-- `asset_symbol::name`. -/
def symbolName (symbol : UInt64) : Text := symbolBytes 8 (symbol >>> 8)

/-- `asset_symbol::decimals`. -/
def symbolDecimals (symbol : UInt64) : Nat := (symbol &&& 0xFF).toNat

/-- `asset_symbol::precision`. -/
def symbolPrecision (symbol : UInt64) : UInt64 := (· * 10)^[symbolDecimals symbol] 1

/-- `asset_symbol::from_string`. -/
def symbolFromText (name : Text) : Except Exc UInt64 :=
  if name = "NEWT".toList ∨ name = " NEWT".toList then .ok newsSymbol
  else .error (.assertion "asset_symbol name != NEWT")

/-! ## Assets -/

/-- `asset::to_string`. From 64 decimals on the precision is zero. -/
def Asset.toText (a : Asset) : Except Exc Text :=
  let precision := symbolPrecision a.symbol
  if precision = 0 then .error (.undefinedBehavior "division by zero")
  else
    let whole := decimalText (a.amount.toUInt64 / precision)
    let fraction := (decimalText (precision + a.amount.toUInt64 % precision)).drop 1
    let amount := if symbolDecimals a.symbol ≠ 0 then whole ++ '.' :: fraction else whole
    .ok (amount ++ ", ".toList ++ symbolName a.symbol)

/-- `asset::from_string`. The number of digits behind the dot is not used. -/
def Asset.fromText (str : Text) : Except Exc Asset := do
  let s := trim str
  match s.find ',' with
  | none => .error (.assertion "Asset from_string , not find ','.")
  | some comma =>
    let amountStr := trim (s.take comma)
    let symbolStr := (trim (s.drop comma)).drop 1
    match amountStr.find '.' with
    | none => .error (.assertion "missing missing dot")
    | some dot =>
      let symbol ← symbolFromText (symbolStr.dropWhile (· == ' '))
      let intPart ← toInt64 (amountStr.take dot)
      let fractPart ← toInt64 (amountStr.drop (dot + 1))
      let amount := (intPart.toUInt64 * symbolPrecision symbol).toInt64
      .ok { amount := amount + fractPart, symbol }

end NewsChain
