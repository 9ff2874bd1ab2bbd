import NewsChain.App.Json
import NewsChain.Laws.AssetText

/-!
# What is printed is read back

A printed value is read back as the value that `reread` makes of it. It is the same value only where it
is `Plain`: `parseEscape` knows three of the escapes that `escape_string` writes and takes the others for
their letters, a number that is large or has a point is printed as a string, and a number is read as
unsigned where it has no sign. What was read back once is read back as it is from then on.

The check of the depth comes first, and it counts the brackets in strings too. So it refuses values that
are not deep, and lets through values of every depth.
-/

namespace NewsChain

/-- What the text of a `double` consists of: digits, a sign and a point, or a word. -/
class LawfulDoubles (δ : Type) [Doubles δ] : Prop where
  printable : ∀ d : δ, ∀ c ∈ Doubles.toText d, 32 ≤ c.toNat ∧ c ≠ '\\' ∧ c ≠ '"'

namespace Variant

variable {δ : Type}

/-- Induction over a value, its elements and its entries. -/
@[elab_as_elim]
theorem induct {motive : Variant δ → Prop} (null : motive .null) (int64 : ∀ i, motive (.int64 i))
    (uint64 : ∀ n, motive (.uint64 n)) (double : ∀ d, motive (.double d)) (bool : ∀ b, motive (.bool b))
    (string : ∀ s, motive (.string s))
    (array : ∀ variants : List (Variant δ), (∀ v ∈ variants, motive v) → motive (.array variants))
    (object : ∀ entries : List (Text × Variant δ), (∀ e ∈ entries, motive e.2) →
      motive (.object entries)) (v : Variant δ) : motive v := by
  refine Variant.rec (motive_1 := motive) (motive_2 := fun variants => ∀ v ∈ variants, motive v)
    (motive_3 := fun entries => ∀ e ∈ entries, motive e.2) (motive_4 := fun e => motive e.2) null int64
    uint64 double bool string array object nofun ?_ nofun ?_ (fun _ _ h => h) v
  · intro v variants hv hvariants w hw
    rcases List.mem_cons.mp hw with rfl | hw
    · exact hv
    · exact hvariants w hw
  · intro e entries he hentries e' he'
    rcases List.mem_cons.mp he' with rfl | he'
    · exact he
    · exact hentries e' he'

end Variant

namespace Json

variable {δ : Type}

/-! ## What is read back -/

/-- What is read back of a character in a string. -/
def rereadChar (c : Char) : Text :=
  if c.toNat < 32 ∧ c ∉ ['\n', '\r', '\t'] then (escapeChar c).tail else [c]

def rereadText (s : Text) : Text := s.flatMap rereadChar

mutual

/-- What is read back of a printed value. -/
def reread [Doubles δ] : Variant δ → Variant δ
  | .null => .null
  | .int64 i =>
    if 0xffffffff < i then .string (int64Text i) else if i < 0 then .int64 i else .uint64 i.toUInt64
  | .uint64 n => if 0xffffffff < n then .string (decimalText n) else .uint64 n
  | .double d => .string (Doubles.toText d)
  | .bool b => .bool b
  | .string s => .string (rereadText s)
  | .array variants => .array (rereadArray variants)
  | .object entries => .object (rereadObject entries)

def rereadArray [Doubles δ] : List (Variant δ) → List (Variant δ)
  | [] => []
  | v :: variants => reread v :: rereadArray variants

def rereadObject [Doubles δ] : List (Text × Variant δ) → List (Text × Variant δ)
  | [] => []
  | (key, v) :: entries => (rereadText key, reread v) :: rereadObject entries

end

/-- A character that an escape is known for, or that needs none. -/
def PlainChar (c : Char) : Prop := 32 ≤ c.toNat ∨ c ∈ ['\n', '\r', '\t']

/-- A value that is read back as it is. -/
inductive Plain : Variant δ → Prop
  | null : Plain .null
  | int64 {i : Int64} (h : i < 0) : Plain (.int64 i)
  | uint64 {n : UInt64} (h : n ≤ 0xffffffff) : Plain (.uint64 n)
  | bool (b : Bool) : Plain (.bool b)
  | string {s : Text} (h : ∀ c ∈ s, PlainChar c) : Plain (.string s)
  | array {variants : List (Variant δ)} (h : ∀ v ∈ variants, Plain v) : Plain (.array variants)
  | object {entries : List (Text × Variant δ)} (hkey : ∀ e ∈ entries, ∀ c ∈ e.1, PlainChar c)
      (h : ∀ e ∈ entries, Plain e.2) : Plain (.object entries)

/-! ## Strings -/

/-- A character that stands for itself in a string. -/
def LiteralChar (c : Char) : Prop := c ≠ '\\' ∧ c ≠ '"' ∧ c ≠ '\x04'

section Strings

variable {token rest t : Text} {a : Text} {c : Char}

theorem run_stringLoop_literal (hc : LiteralChar c)
    (h : (scanLoop stringRound .exhausted (token ++ [c])).run rest = .ok a t) :
    (scanLoop stringRound .exhausted token).run (c :: rest) = .ok a t := by
  obtain ⟨hescape, hquote, heof⟩ := hc
  refine run_scanLoop_inl _ _ ?_ (Nat.lt_succ_self _) h
  simp only [stringRound, EStateM.run_bind, run_peek_cons, hescape, hquote, heof, if_false,
    run_next_cons, EStateM.run_pure]

theorem run_stringLoop_literals {cs : Text} (hcs : ∀ c ∈ cs, LiteralChar c)
    (h : (scanLoop stringRound .exhausted (token ++ cs)).run rest = .ok a t) :
    (scanLoop stringRound .exhausted token).run (cs ++ rest) = .ok a t := by
  induction cs generalizing token with
  | nil =>
    rw [List.append_nil] at h
    exact h
  | cons c cs ih =>
    refine run_stringLoop_literal (hcs c List.mem_cons_self) ?_
    refine ih (fun d hd => hcs d (List.mem_cons_of_mem _ hd)) ?_
    rw [List.append_assoc]
    exact h

theorem run_stringLoop_escape
    (h : (scanLoop stringRound .exhausted (token ++ [unescape c])).run rest = .ok a t) :
    (scanLoop stringRound .exhausted token).run ('\\' :: c :: rest) = .ok a t := by
  refine run_scanLoop_inl _ rest ?_ ?_ h
  · simp only [stringRound, parseEscape, EStateM.run_bind, run_peek_cons, if_true, run_next_cons,
      EStateM.run_pure]
  · simp only [List.length_cons]
    omega

theorem run_stringLoop_end :
    (scanLoop stringRound .exhausted token).run ('"' :: rest) = .ok token rest := by
  exact run_scanLoop_inr rfl

/-- An escape that is known by its letter alone. -/
theorem escapeChar_control (hc : c.toNat < 32) (hknown : c ∉ ['\x08', '\x0c', '\n', '\r', '\t']) :
    escapeChar c =
      ['\\', 'u', '0', '0', Nat.digitChar (c.toNat / 16), Nat.digitChar (c.toNat % 16)] := by
  simp only [List.mem_cons, List.not_mem_nil, or_false, not_or] at hknown
  unfold escapeChar
  split
  all_goals first
    | exact absurd rfl hknown.1
    | exact absurd rfl hknown.2.1
    | exact absurd rfl hknown.2.2.1
    | exact absurd rfl hknown.2.2.2.1
    | exact absurd rfl hknown.2.2.2.2
    | exact absurd hc (by decide)
    | exact if_pos hc

/-- A character without an escape. -/
theorem escapeChar_literal (hc : 32 ≤ c.toNat) (hescape : c ≠ '\\') (hquote : c ≠ '"') :
    escapeChar c = [c] := by
  unfold escapeChar
  split
  all_goals first
    | exact absurd hc (by decide)
    | exact absurd rfl hescape
    | exact absurd rfl hquote
    | exact if_neg (Nat.not_lt.mpr hc)

theorem literalChar_digitChar : ∀ n < 16, LiteralChar (Nat.digitChar n) := by
  unfold LiteralChar
  decide

/-- An escaped character is read back. -/
theorem run_stringLoop_escapeChar
    (h : (scanLoop stringRound .exhausted (token ++ rereadChar c)).run rest = .ok a t) :
    (scanLoop stringRound .exhausted token).run (escapeChar c ++ rest) = .ok a t := by
  by_cases hcontrol : c.toNat < 32
  · by_cases hknown : c ∈ ['\x08', '\x0c', '\n', '\r', '\t']
    · -- The escape has one letter.
      simp only [List.mem_cons, List.not_mem_nil, or_false] at hknown
      rcases hknown with rfl | rfl | rfl | rfl | rfl <;> exact run_stringLoop_escape h
    · rw [escapeChar_control hcontrol hknown]
      have hnew : c ∉ ['\n', '\r', '\t'] := fun hmem =>
        hknown (List.mem_cons_of_mem _ (List.mem_cons_of_mem _ hmem))
      rw [rereadChar, if_pos ⟨hcontrol, hnew⟩, escapeChar_control hcontrol hknown] at h
      refine run_stringLoop_escape (c := 'u') ?_
      have hdigits : ∀ d ∈ ['0', '0', Nat.digitChar (c.toNat / 16), Nat.digitChar (c.toNat % 16)],
          LiteralChar d := by
        intro d hd
        simp only [List.mem_cons, List.not_mem_nil, or_false] at hd
        rcases hd with rfl | rfl | rfl | rfl
        · exact ⟨by decide, by decide, by decide⟩
        · exact ⟨by decide, by decide, by decide⟩
        · exact literalChar_digitChar _ (by omega)
        · exact literalChar_digitChar _ (by omega)
      refine run_stringLoop_literals hdigits ?_
      rw [List.append_assoc]
      exact h
  · have hle : 32 ≤ c.toNat := Nat.not_lt.mp hcontrol
    rw [rereadChar, if_neg (fun hc => hcontrol hc.1)] at h
    by_cases hescape : c = '\\'
    · subst hescape
      exact run_stringLoop_escape h
    by_cases hquote : c = '"'
    · subst hquote
      exact run_stringLoop_escape h
    rw [escapeChar_literal hle hescape hquote]
    refine run_stringLoop_literal ⟨hescape, hquote, ?_⟩ h
    rintro rfl
    exact absurd hle (by decide)

theorem run_stringLoop_escapeString (s : Text)
    (h : (scanLoop stringRound .exhausted (token ++ rereadText s)).run rest = .ok a t) :
    (scanLoop stringRound .exhausted token).run (s.flatMap escapeChar ++ rest) = .ok a t := by
  induction s generalizing token with
  | nil =>
    rw [rereadText, List.flatMap_nil, List.append_nil] at h
    exact h
  | cons c s ih =>
    rw [List.flatMap_cons, List.append_assoc]
    refine run_stringLoop_escapeChar (ih ?_)
    rw [rereadText, List.flatMap_cons, ← List.append_assoc] at h
    exact h

/-- **A printed string is read back**, without what its escapes lose. -/
theorem scans_escapeString (s : Text) :
    Scans (fun _ => True) (escapeString s) stringFromStream (rereadText s) := by
  intro w _
  simp only [stringFromStream, escapeString, List.cons_append, EStateM.run_bind, run_peek_cons, if_true,
    run_next_cons, List.append_assoc]
  exact run_stringLoop_escapeString s run_stringLoop_end

/-- A text without escapes is read as it is. -/
theorem scans_quoted {s : Text} (hs : ∀ c ∈ s, LiteralChar c) :
    Scans (fun _ => True) ('"' :: (s ++ ['"'])) stringFromStream s := by
  intro w _
  simp only [stringFromStream, List.cons_append, EStateM.run_bind, run_peek_cons, if_true,
    run_next_cons, List.append_assoc]
  exact run_stringLoop_literals hs run_stringLoop_end

end Strings

/-! ## Numbers and words -/

/-- What may come after a value: the end of the text, or of an element. -/
def Delimited (w : Text) : Prop := ∀ c, w.head? = some c → c = ',' ∨ c = ']' ∨ c = '}'

section Numbers

variable [Doubles δ] {p : ParseType} {neg dot : Bool} {pre ds w rest t : Text} {v a : Variant δ}

theorem run_numberLoop_digits (hds : ∀ c ∈ ds, c.isDigit = true)
    (h : (scanLoop (numberRound p neg) .exhausted (pre ++ ds, dot)).run rest = .ok a t) :
    (scanLoop (numberRound p neg) .exhausted (pre, dot)).run (ds ++ rest) = .ok a t := by
  induction ds generalizing pre with
  | nil =>
    rw [List.append_nil] at h
    exact h
  | cons c ds ih =>
    have hc := hds c List.mem_cons_self
    have hzero : c ≠ '\x00' := isDigit_ne hc (by decide)
    have hpoint : c ≠ '.' := isDigit_ne hc (by decide)
    refine run_scanLoop_inl (pre ++ [c], dot) (ds ++ rest) ?_ (Nat.lt_succ_self _) ?_
    · simp only [numberRound, List.cons_append, EStateM.run_bind, run_peek?_cons, hzero, hpoint, hc,
        if_false, if_true, run_next_cons, EStateM.run_pure]
    · refine ih (fun d hd => hds d (List.mem_cons_of_mem _ hd)) ?_
      rw [List.append_assoc]
      exact h

theorem run_numberLoop_end (hw : Delimited w)
    (h : (numberOf p neg dot pre : JsonM (Variant δ)).run w = .ok v w) :
    (scanLoop (numberRound p neg) .exhausted (pre, dot)).run w = .ok v w := by
  refine run_scanLoop_inr ?_
  have hanswer : (Sum.inr <$> numberOf p neg dot pre : JsonM ((Text × Bool) ⊕ Variant δ)).run w =
      .ok (.inr v) w := by
    rw [← bind_pure_comp, EStateM.run_bind, h]
    rfl
  cases w with
  | nil => exact hanswer
  | cons c w =>
    have hc : c ≠ '\x00' ∧ c ≠ '.' ∧ c.isDigit = false ∧ c.isAlphanum = false := by
      rcases hw c rfl with rfl | rfl | rfl <;> decide
    simp only [numberRound, EStateM.run_bind, run_peek?_cons, hc.1, hc.2.1, hc.2.2.1, hc.2.2.2,
      if_false, Bool.false_eq_true]
    exact hanswer

theorem isDigit_toDigits (n : Nat) : ∀ c ∈ Nat.toDigits 10 n, c.isDigit = true :=
  fun _ hc => Nat.isDigit_of_mem_toDigits (by norm_num) (by norm_num) hc

/-- A printed number starts with a digit. -/
theorem toDigits_cons (n : Nat) : ∃ d ds, Nat.toDigits 10 n = d :: ds ∧ d.isDigit = true := by
  obtain ⟨d, ds, hds⟩ := List.exists_cons_of_ne_nil (Nat.toDigits_ne_nil (n := n) (b := 10))
  refine ⟨d, ds, hds, isDigit_toDigits n d ?_⟩
  rw [hds]
  exact List.mem_cons_self

omit [Doubles δ] in
theorem run_numberFromUint64 {n : Nat} (hn : n < 2 ^ 64) :
    (numberFromUint64 (Nat.toDigits 10 n) : JsonM (Variant δ)).run w =
      .ok (.uint64 (.ofNat n)) w := by
  have hdigits := isDigit_toDigits n
  have hne : Nat.toDigits 10 n ≠ [] := Nat.toDigits_ne_nil
  rw [numberFromUint64, Nat.ofDigitChars_ten_toDigits, if_pos ⟨hne, List.all_eq_true.mpr hdigits, hn⟩]
  rfl

omit [Doubles δ] in
theorem run_numberFromInt64 {n : Nat} (hn : n ≤ 2 ^ 63) :
    (numberFromInt64 ('-' :: Nat.toDigits 10 n) : JsonM (Variant δ)).run w =
      .ok (.int64 (.ofInt (-n))) w := by
  have hvalue := toInt64_eq true Nat.toDigits_ne_nil (isDigit_toDigits n)
  rw [Nat.ofDigitChars_ten_toDigits, if_pos] at hvalue
  · rw [numberFromInt64, show '-' :: Nat.toDigits 10 n = signText true ++ Nat.toDigits 10 n from rfl,
      hvalue]
    rfl
  · show -2 ^ 63 ≤ -(n : Int) ∧ -(n : Int) < 2 ^ 63
    omega

/-- A number without a sign is read back as unsigned. -/
theorem scans_unsigned {n : Nat} (hn : n < 2 ^ 64) :
    Scans Delimited (Nat.toDigits 10 n) (numberFromStream p : JsonM (Variant δ))
      (.uint64 (.ofNat n)) := by
  intro w hw
  obtain ⟨d, ds, hds, hd⟩ := toDigits_cons n
  have hsign : d ≠ '-' := isDigit_ne hd (by decide)
  have hpoint : Nat.toDigits 10 n ≠ ['-', '.'] ∧ Nat.toDigits 10 n ≠ ['.'] := by
    rw [hds]
    exact ⟨fun h => hsign (List.cons.inj h).1, fun h => isDigit_ne hd (by decide) (List.cons.inj h).1⟩
  have hend : (numberOf p false false (Nat.toDigits 10 n) : JsonM (Variant δ)).run w =
      .ok (.uint64 (.ofNat n)) w := by
    rw [numberOf, if_neg (not_or.mpr hpoint), if_neg Bool.false_ne_true, if_neg Bool.false_ne_true]
    exact run_numberFromUint64 hn
  have hloop : (scanLoop (numberRound p false) .exhausted ([], false)).run (Nat.toDigits 10 n ++ w) =
      .ok (.uint64 (.ofNat n)) w :=
    run_numberLoop_digits (isDigit_toDigits n) (run_numberLoop_end hw hend)
  rw [hds] at hloop ⊢
  simp only [numberFromStream, List.cons_append, EStateM.run_bind, run_peek_cons, hsign, if_false]
  exact hloop

/-- A negative number is read back. -/
theorem scans_negative {n : Nat} (hn : n ≤ 2 ^ 63) :
    Scans Delimited ('-' :: Nat.toDigits 10 n) (numberFromStream p : JsonM (Variant δ))
      (.int64 (.ofInt (-n))) := by
  intro w hw
  obtain ⟨d, ds, hds, hd⟩ := toDigits_cons n
  have hpoint : '-' :: Nat.toDigits 10 n ≠ ['-', '.'] ∧ '-' :: Nat.toDigits 10 n ≠ ['.'] := by
    rw [hds]
    refine ⟨fun h => isDigit_ne hd (by decide) (List.cons.inj (List.cons.inj h).2).1, nofun⟩
  have hend : (numberOf p true false ('-' :: Nat.toDigits 10 n) : JsonM (Variant δ)).run w =
      .ok (.int64 (.ofInt (-n))) w := by
    rw [numberOf, if_neg (not_or.mpr hpoint), if_neg Bool.false_ne_true, if_pos rfl]
    exact run_numberFromInt64 hn
  simp only [numberFromStream, List.cons_append, EStateM.run_bind, run_peek_cons, if_true,
    run_next_cons]
  exact run_numberLoop_digits (isDigit_toDigits n) (run_numberLoop_end hw hend)

end Numbers

section Words

variable {word w rest t : Text} {a : Text × Bool}

theorem run_wordLoop (hword : ∀ c ∈ word, isWordChar c = true) {str : Text}
    (h : (scanLoop wordRound .exhausted (str ++ word)).run rest = .ok a t) :
    (scanLoop wordRound .exhausted str).run (word ++ rest) = .ok a t := by
  induction word generalizing str with
  | nil =>
    rw [List.append_nil] at h
    exact h
  | cons c word ih =>
    have hc := hword c List.mem_cons_self
    refine run_scanLoop_inl (str ++ [c]) (word ++ rest) ?_ (Nat.lt_succ_self _) ?_
    · simp only [wordRound, List.cons_append, EStateM.run_bind, run_peek?_cons, hc, if_true,
        run_next_cons, EStateM.run_pure]
    · refine ih (fun d hd => hword d (List.mem_cons_of_mem _ hd)) ?_
      rw [List.append_assoc]
      exact h

theorem run_wordLoop_end (hw : Delimited w) :
    ∃ ended, (scanLoop wordRound .exhausted word).run w = .ok (word, ended) w := by
  cases w with
  | nil => exact ⟨true, run_scanLoop_inr rfl⟩
  | cons c w =>
    have hc : isWordChar c = false := by
      rcases hw c rfl with rfl | rfl | rfl <;> decide
    refine ⟨false, run_scanLoop_inr ?_⟩
    simp only [wordRound, EStateM.run_bind, run_peek?_cons, hc, if_false, Bool.false_eq_true,
      EStateM.run_pure]

/-- The three words are read back. -/
theorem scans_word {v : Variant δ}
    (hword : (word, v) ∈ [("null".toList, .null), ("true".toList, .bool true),
      ("false".toList, .bool false)]) :
    Scans Delimited word tokenFromStream v := by
  intro w hw
  have hchars : ∀ c ∈ word, isWordChar c = true := by
    simp only [List.mem_cons, List.not_mem_nil, or_false, Prod.mk.injEq] at hword
    rcases hword with ⟨rfl, -⟩ | ⟨rfl, -⟩ | ⟨rfl, -⟩ <;> exact List.all_eq_true.mp (by decide)
  obtain ⟨ended, hend⟩ : ∃ ended, (scanLoop wordRound .exhausted word).run w = .ok (word, ended) w :=
    run_wordLoop_end hw
  have hloop : (scanLoop wordRound .exhausted []).run (word ++ w) = .ok (word, ended) w :=
    run_wordLoop hchars hend
  simp only [List.mem_cons, List.not_mem_nil, or_false, Prod.mk.injEq] at hword
  rcases hword with ⟨rfl, rfl⟩ | ⟨rfl, rfl⟩ | ⟨rfl, rfl⟩
  all_goals
    rw [tokenFromStream, EStateM.run_bind, hloop]
    rfl

end Words

/-! ## Arrays and objects -/

/-- The default format. -/
abbrev stringify : OutputFormatting := .stringifyLargeIntsAndDoubles

/-- A character that a value starts with is none of those between values. -/
structure StartsValue (c : Char) : Prop where
  white : isWhiteSpace c = false
  comma : c ≠ ','
  bracket : c ≠ ']'
  brace : c ≠ '}'

theorem StartsValue.of_isDigit {c : Char} (hc : c.isDigit = true) : StartsValue c where
  white := by
    have hspace : c ≠ ' ' ∧ c ≠ '\t' ∧ c ≠ '\n' ∧ c ≠ '\r' :=
      ⟨isDigit_ne hc (by decide), isDigit_ne hc (by decide), isDigit_ne hc (by decide),
        isDigit_ne hc (by decide)⟩
    simp [isWhiteSpace, hspace]
  comma := isDigit_ne hc (by decide)
  bracket := isDigit_ne hc (by decide)
  brace := isDigit_ne hc (by decide)

theorem quotedIf_cons {large : Bool} {s : Text} (hs : ∃ c rest, s = c :: rest ∧ StartsValue c) :
    ∃ c rest, quotedIf large s = c :: rest ∧ StartsValue c := by
  cases large with
  | true => exact ⟨'"', s ++ ['"'], rfl, by decide, by decide, by decide, by decide⟩
  | false => exact hs

theorem int64Text_cons (i : Int64) : ∃ c rest, int64Text i = c :: rest ∧ StartsValue c := by
  obtain ⟨d, ds, hds, hd⟩ := toDigits_cons i.toInt.natAbs
  rw [int64Text]
  split
  · exact ⟨'-', _, rfl, by decide, by decide, by decide, by decide⟩
  · exact ⟨d, ds, hds, .of_isDigit hd⟩

section Values

variable [Doubles δ] {p : ParseType} {value : JsonM (Variant δ)} {v : Variant δ} {w rest t : Text}
  {c d : Char}

/-- What is printed of a value starts with a character of it. -/
theorem toStream_cons (v : Variant δ) :
    ∃ c rest, toStream stringify v = c :: rest ∧ StartsValue c := by
  cases v with
  | int64 i => exact quotedIf_cons (int64Text_cons i)
  | uint64 n =>
    obtain ⟨d, ds, hds, hd⟩ := toDigits_cons n.toNat
    exact quotedIf_cons ⟨d, ds, hds, .of_isDigit hd⟩
  | bool b => cases b <;> exact ⟨_, _, rfl, by decide, by decide, by decide, by decide⟩
  | _ => exact ⟨_, _, rfl, by decide, by decide, by decide, by decide⟩

theorem run_skipWhiteSpace (hc : isWhiteSpace c = false) :
    skipWhiteSpace.run (c :: rest) = .ok false (c :: rest) := by
  refine run_scanLoop_inr ?_
  simp only [EStateM.run_bind, run_peek_cons, hc, Bool.false_eq_true, if_false, EStateM.run_pure]

/-! ### Arrays -/

omit [Doubles δ] in
theorem run_arrayLoop_comma {ar a : List (Variant δ)}
    (h : (scanLoop (arrayRound value) .exhausted ar).run rest = .ok a t) :
    (scanLoop (arrayRound value) .exhausted ar).run (',' :: rest) = .ok a t :=
  run_scanLoop_inl _ _ rfl (Nat.lt_succ_self _) h

theorem run_arrayLoop_element {ar a : List (Variant δ)}
    (hv : Scans Delimited (toStream stringify v) value (reread v)) (hd : d = ',' ∨ d = ']')
    (h : (scanLoop (arrayRound value) .exhausted (ar ++ [reread v])).run (d :: rest) = .ok a t) :
    (scanLoop (arrayRound value) .exhausted ar).run (toStream stringify v ++ d :: rest) =
      .ok a t := by
  obtain ⟨c, cs, hcs, hc⟩ := toStream_cons v
  have hdelimited : Delimited (d :: rest) := by
    intro c' hc'
    obtain rfl := Option.some.inj hc'
    exact hd.imp_right .inl
  have hwhite : isWhiteSpace d = false := by
    rcases hd with rfl | rfl <;> decide
  have hread := hv _ hdelimited
  refine run_scanLoop_inl (ar ++ [reread v]) (d :: rest) ?_ ?_ h
  · rw [hcs] at hread ⊢
    rw [List.cons_append] at hread ⊢
    simp only [arrayRound, EStateM.run_bind, run_peek_cons, hc.bracket, hc.comma, if_false,
      run_skipWhiteSpace hc.white, Bool.false_eq_true, hread, run_skipWhiteSpace hwhite,
      EStateM.run_pure]
  · rw [hcs, List.length_append]
    simp

theorem run_arrayLoop (ar : List (Variant δ)) (w : Text) {vs : List (Variant δ)}
    (hvs : ∀ v ∈ vs, Scans Delimited (toStream stringify v) value (reread v)) :
    (scanLoop (arrayRound value) .exhausted ar).run (arrayToStream stringify vs ++ ']' :: w) =
      .ok (ar ++ rereadArray vs) (']' :: w) := by
  induction vs generalizing ar with
  | nil =>
    rw [rereadArray, List.append_nil]
    exact run_scanLoop_inr rfl
  | cons v vs ih =>
    have hv := hvs v List.mem_cons_self
    cases vs with
    | nil =>
      rw [arrayToStream, rereadArray, rereadArray]
      exact run_arrayLoop_element hv (.inr rfl) (run_scanLoop_inr rfl)
    | cons v' vs =>
      have hrest := ih (ar ++ [reread v]) fun u hu => hvs u (List.mem_cons_of_mem _ hu)
      have htext : arrayToStream stringify (v :: v' :: vs) ++ ']' :: w =
          toStream stringify v ++ ',' :: (arrayToStream stringify (v' :: vs) ++ ']' :: w) := by
        rw [arrayToStream]
        · simp
        · simp
      rw [htext, rereadArray]
      rw [List.append_assoc] at hrest
      exact run_arrayLoop_element hv (.inl rfl) (run_arrayLoop_comma hrest)

theorem arrayToStream_cons (v : Variant δ) (vs : List (Variant δ)) :
    ∃ tail, arrayToStream stringify (v :: vs) = toStream stringify v ++ tail := by
  cases vs with
  | nil => exact ⟨[], (List.append_nil _).symm⟩
  | cons v' vs => exact ⟨_, rfl⟩

/-- An array is read back where its elements are. -/
theorem scans_array {vs : List (Variant δ)}
    (hvs : ∀ v ∈ vs, Scans Delimited (toStream stringify v) value (reread v)) :
    Scans Delimited ('[' :: (arrayToStream stringify vs ++ [']'])) (arrayFromStream value)
      (.array (rereadArray vs)) := by
  intro w _
  have hloop := run_arrayLoop [] w hvs
  have hskip : skipWhiteSpace.run (arrayToStream stringify vs ++ ']' :: w) =
      .ok false (arrayToStream stringify vs ++ ']' :: w) := by
    cases vs with
    | nil => exact run_skipWhiteSpace (by decide)
    | cons v vs =>
      obtain ⟨tail, htail⟩ := arrayToStream_cons v vs
      obtain ⟨c, cs, hcs, hc⟩ := toStream_cons v
      rw [htail, hcs]
      exact run_skipWhiteSpace hc.white
  simp only [arrayFromStream, List.cons_append, EStateM.run_bind, run_peek_cons, if_true,
    run_next_cons, List.append_assoc, List.nil_append, hskip, hloop, EStateM.run_pure]

/-! ### Objects -/

omit [Doubles δ] in
theorem run_objectLoop_comma {obj a : List (Text × Variant δ)}
    (h : (scanLoop (objectRound value) .exhausted obj).run rest = .ok a t) :
    (scanLoop (objectRound value) .exhausted obj).run (',' :: rest) = .ok a t :=
  run_scanLoop_inl _ _ rfl (Nat.lt_succ_self _) h

/-- What is printed of an entry. -/
def entryText (key : Text) (v : Variant δ) : Text := escapeString key ++ ':' :: toStream stringify v

theorem run_objectLoop_entry {obj a : List (Text × Variant δ)} {key : Text}
    (hv : Scans Delimited (toStream stringify v) value (reread v)) (hd : d = ',' ∨ d = '}')
    (h : (scanLoop (objectRound value) .exhausted (obj ++ [(rereadText key, reread v)])).run
      (d :: rest) = .ok a t) :
    (scanLoop (objectRound value) .exhausted obj).run (entryText key v ++ d :: rest) = .ok a t := by
  have hdelimited : Delimited (d :: rest) := by
    intro c' hc'
    obtain rfl := Option.some.inj hc'
    exact hd.imp_right .inr
  have hwhite : isWhiteSpace d = false := by
    rcases hd with rfl | rfl <;> decide
  have hread := hv _ hdelimited
  have hkey := scans_escapeString key (':' :: (toStream stringify v ++ d :: rest)) trivial
  have htext : entryText key v ++ d :: rest =
      escapeString key ++ ':' :: (toStream stringify v ++ d :: rest) := by
    rw [entryText, List.append_assoc, List.cons_append]
  refine run_scanLoop_inl (obj ++ [(rereadText key, reread v)]) (d :: rest) ?_ ?_ h
  · rw [htext]
    have hquote : escapeString key ++ ':' :: (toStream stringify v ++ d :: rest) =
        '"' :: (key.flatMap escapeChar ++ ['"'] ++ ':' :: (toStream stringify v ++ d :: rest)) := rfl
    have hfirst : isWhiteSpace '"' = false := by decide
    have hcolon : isWhiteSpace ':' = false := by decide
    rw [hquote] at hkey ⊢
    have hnot : ('"' : Char) ≠ '}' ∧ ('"' : Char) ≠ ',' := by decide
    simp only [objectRound, EStateM.run_bind, run_peek_cons, hnot.1, hnot.2, if_false,
      run_skipWhiteSpace hfirst, Bool.false_eq_true, hkey, run_skipWhiteSpace hcolon, ne_eq,
      not_true_eq_false, run_next_cons, hread, run_skipWhiteSpace hwhite, EStateM.run_pure]
  · rw [htext, escapeString, List.length_append]
    simp
    omega

theorem objectToStream_cons (key : Text) (v : Variant δ) (entries : List (Text × Variant δ)) :
    ∃ tail, objectToStream stringify ((key, v) :: entries) = entryText key v ++ tail := by
  cases entries with
  | nil => exact ⟨[], (List.append_nil _).symm⟩
  | cons e entries =>
    refine ⟨',' :: objectToStream stringify (e :: entries), ?_⟩
    rw [objectToStream, entryText, List.append_assoc, List.cons_append]
    simp

theorem run_objectLoop (obj : List (Text × Variant δ)) (w : Text)
    {entries : List (Text × Variant δ)}
    (hentries : ∀ e ∈ entries, Scans Delimited (toStream stringify e.2) value (reread e.2)) :
    (scanLoop (objectRound value) .exhausted obj).run
        (objectToStream stringify entries ++ '}' :: w) =
      .ok (obj ++ rereadObject entries) ('}' :: w) := by
  induction entries generalizing obj with
  | nil =>
    rw [rereadObject, List.append_nil]
    exact run_scanLoop_inr rfl
  | cons e entries ih =>
    obtain ⟨key, v⟩ := e
    have hv := hentries _ List.mem_cons_self
    cases entries with
    | nil =>
      rw [objectToStream, rereadObject, rereadObject]
      exact run_objectLoop_entry hv (.inr rfl) (run_scanLoop_inr rfl)
    | cons e' entries =>
      have hrest := ih (obj ++ [(rereadText key, reread v)])
        fun e he => hentries e (List.mem_cons_of_mem _ he)
      have htext : objectToStream stringify ((key, v) :: e' :: entries) ++ '}' :: w =
          entryText key v ++ ',' :: (objectToStream stringify (e' :: entries) ++ '}' :: w) := by
        rw [objectToStream, entryText]
        · simp
        · simp
      rw [htext, rereadObject]
      rw [List.append_assoc] at hrest
      exact run_objectLoop_entry hv (.inl rfl) (run_objectLoop_comma hrest)

/-- An object is read back where its values are. -/
theorem scans_object {entries : List (Text × Variant δ)}
    (hentries : ∀ e ∈ entries, Scans Delimited (toStream stringify e.2) value (reread e.2)) :
    Scans Delimited ('{' :: (objectToStream stringify entries ++ ['}'])) (objectFromStream value)
      (.object (rereadObject entries)) := by
  intro w _
  have hloop := run_objectLoop [] w hentries
  have hskip : skipWhiteSpace.run (objectToStream stringify entries ++ '}' :: w) =
      .ok false (objectToStream stringify entries ++ '}' :: w) := by
    cases entries with
    | nil => exact run_skipWhiteSpace (by decide)
    | cons e entries =>
      obtain ⟨key, v⟩ := e
      obtain ⟨tail, htail⟩ := objectToStream_cons key v entries
      rw [htail]
      exact run_skipWhiteSpace (c := '"') (by decide)
  rw [objectFromStream, run_tryCatch]
  simp only [List.cons_append, EStateM.run_bind, run_peek_cons, if_true,
    run_next_cons, List.append_assoc, List.nil_append, hskip, hloop, EStateM.run_pure]

/-! ## Values -/

omit [Doubles δ] in
theorem literalChar_of_isDigit (hc : c.isDigit = true) : LiteralChar c :=
  ⟨isDigit_ne hc (by decide), isDigit_ne hc (by decide), isDigit_ne hc (by decide)⟩

theorem scans_string {ts s : Text} (hts : ts.head? = some '"')
    (h : Scans (fun _ => True) ts stringFromStream s) :
    Scans Delimited ts (variantFromStreamWith p value) (.string s) := by
  obtain ⟨rest, rfl⟩ : ∃ rest, ts = '"' :: rest := by
    cases ts with
    | nil => cases hts
    | cons c rest => exact ⟨rest, by rw [Option.some.inj hts]⟩
  intro w _
  have hread := h w trivial
  have hquote : isWhiteSpace '"' = false := by decide
  rw [List.cons_append] at hread ⊢
  simp only [variantFromStreamWith, EStateM.run_bind, run_skipWhiteSpace hquote, run_peek_cons,
    if_true, hread, EStateM.run_pure]

theorem scans_tokenFromStream {ts : Text} (hts : ts.head? = some c) (hc : c ∈ ['n', 't', 'f'])
    (h : Scans Delimited ts tokenFromStream v) :
    Scans Delimited ts (variantFromStreamWith p value) v := by
  obtain ⟨rest, rfl⟩ : ∃ rest, ts = c :: rest := by
    cases ts with
    | nil => cases hts
    | cons d rest => exact ⟨rest, by rw [Option.some.inj hts]⟩
  intro w hw
  have hread := h w hw
  rw [List.cons_append] at hread ⊢
  have hdispatch : isWhiteSpace c = false ∧ c ≠ '"' ∧ c ≠ '{' ∧ c ≠ '[' ∧
      ¬ (c = '-' ∨ c = '.' ∨ c.isDigit = true) ∧ (c = 'n' ∨ c = 't' ∨ c = 'f') := by
    simp only [List.mem_cons, List.not_mem_nil, or_false] at hc
    rcases hc with rfl | rfl | rfl <;> decide
  obtain ⟨hwhite, hquote, hbrace, hbracket, hnumber, hword⟩ := hdispatch
  simp only [variantFromStreamWith, EStateM.run_bind, run_skipWhiteSpace hwhite, run_peek_cons,
    hquote, hbrace, hbracket, if_neg hnumber, if_pos hword, if_false, hread]

/-- A number is read back as one where it starts with a sign or a digit. -/
theorem scans_number {ts : Text} (hts : ∃ rest, ts = c :: rest) (hc : c = '-' ∨ c.isDigit = true)
    (h : Scans Delimited ts (numberFromStream p) v) :
    Scans Delimited ts (variantFromStreamWith p value) v := by
  obtain ⟨rest, rfl⟩ := hts
  intro w hw
  have hread := h w hw
  rw [List.cons_append] at hread ⊢
  have hwhite : isWhiteSpace c = false := by
    rcases hc with rfl | hc
    · decide
    · exact (StartsValue.of_isDigit hc).white
  have hnot : c ≠ '"' ∧ c ≠ '{' ∧ c ≠ '[' := by
    rcases hc with rfl | hc
    · decide
    · exact ⟨isDigit_ne hc (by decide), isDigit_ne hc (by decide), isDigit_ne hc (by decide)⟩
  have hnumber : c = '-' ∨ c = '.' ∨ c.isDigit = true := hc.imp_right .inr
  simp only [variantFromStreamWith, EStateM.run_bind, run_skipWhiteSpace hwhite, run_peek_cons,
    hnot.1, hnot.2.1, hnot.2.2, if_false, if_pos hnumber, hread]

theorem scans_int64 (i : Int64) :
    Scans Delimited (int64Text i) (variantFromStreamWith p value)
      (if i < 0 then .int64 i else .uint64 i.toUInt64) := by
  have hlower := i.le_toInt
  have hupper := i.toInt_lt
  rw [int64Text]
  split
  · rename_i hneg
    have hint : i.toInt < 0 := Int64.lt_iff_toInt_lt.mp hneg
    have hi : Int64.ofInt (-(i.toInt.natAbs : Int)) = i := by
      rw [show -(i.toInt.natAbs : Int) = i.toInt by omega, Int64.ofInt_toInt]
    have hscans := scans_negative (p := p) (δ := δ) (n := i.toInt.natAbs) (by omega)
    rw [hi] at hscans
    exact scans_number ⟨_, rfl⟩ (.inl rfl) hscans
  · rename_i hneg
    have hint : ¬ i.toInt < 0 := fun h => hneg (Int64.lt_iff_toInt_lt.mpr h)
    have hi : UInt64.ofNat i.toInt.natAbs = i.toUInt64 := by
      have hle : (0 : Int64) ≤ i := Int64.le_iff_toInt_le.mpr (not_lt.mp hint)
      apply UInt64.toNat.inj
      rw [Int64.toNat_toUInt64_of_le hle, UInt64.toNat_ofNat', Nat.mod_eq_of_lt (by omega)]
      show i.toInt.natAbs = i.toInt.toNat
      omega
    have hscans := scans_unsigned (p := p) (δ := δ) (n := i.toInt.natAbs) (by omega)
    rw [hi] at hscans
    obtain ⟨d, ds, hds, hd⟩ := toDigits_cons i.toInt.natAbs
    exact scans_number ⟨ds, hds⟩ (.inr hd) hscans

theorem scans_uint64 (m : UInt64) :
    Scans Delimited (decimalText m) (variantFromStreamWith p value) (.uint64 m) := by
  have hscans := scans_unsigned (p := p) (δ := δ) m.toNat_lt
  rw [UInt64.ofNat_toNat] at hscans
  obtain ⟨d, ds, hds, hd⟩ := toDigits_cons m.toNat
  exact scans_number ⟨ds, hds⟩ (.inr hd) hscans

omit [Doubles δ] in
theorem literalChar_int64Text (i : Int64) : ∀ c ∈ int64Text i, LiteralChar c := by
  intro c hc
  have hdigits := isDigit_toDigits i.toInt.natAbs
  rw [int64Text] at hc
  split at hc
  · rcases List.mem_cons.mp hc with rfl | hc
    · exact ⟨by decide, by decide, by decide⟩
    · exact literalChar_of_isDigit (hdigits c hc)
  · exact literalChar_of_isDigit (hdigits c hc)

theorem length_le_arrayToStream {vs : List (Variant δ)} (hv : v ∈ vs) :
    (toStream stringify v).length ≤ (arrayToStream stringify vs).length := by
  induction vs with
  | nil => cases hv
  | cons u vs ih =>
    cases vs with
    | nil =>
      rw [List.mem_singleton.mp hv]
      exact Nat.le_refl _
    | cons u' vs =>
      have htext : arrayToStream stringify (u :: u' :: vs) =
          toStream stringify u ++ ',' :: arrayToStream stringify (u' :: vs) := by
        rw [arrayToStream]
        simp
      rw [htext, List.length_append, List.length_cons]
      rcases List.mem_cons.mp hv with rfl | hv
      · omega
      · have hle := ih hv
        omega

theorem length_le_objectToStream {entries : List (Text × Variant δ)} {e : Text × Variant δ}
    (he : e ∈ entries) :
    (toStream stringify e.2).length ≤ (objectToStream stringify entries).length := by
  induction entries with
  | nil => cases he
  | cons e' entries ih =>
    obtain ⟨key, v⟩ := e'
    cases entries with
    | nil =>
      rw [List.mem_singleton.mp he, objectToStream, List.length_append, List.length_cons]
      show (toStream stringify v).length ≤ _
      omega
    | cons e'' entries =>
      have htext : objectToStream stringify ((key, v) :: e'' :: entries) =
          escapeString key ++
            ':' :: (toStream stringify v ++ ',' :: objectToStream stringify (e'' :: entries)) := by
        rw [objectToStream]
        simp
      rw [htext]
      simp only [List.length_append, List.length_cons]
      rcases List.mem_cons.mp he with rfl | he
      · show (toStream stringify v).length ≤ _
        omega
      · have hle := ih he
        omega

/-- **Every value is read back**, by as many calls within each other as its text has characters. -/
theorem scans_value [LawfulDoubles δ] (v : Variant δ) {n : Nat}
    (hn : (toStream stringify v).length ≤ n) :
    Scans Delimited (toStream stringify v) (scanNested (variantFromStreamWith p) .exhausted n)
      (reread v) := by
  obtain ⟨c, cs, hcs, -⟩ := toStream_cons v
  obtain ⟨m, rfl⟩ : ∃ m, n = m + 1 := by
    rw [hcs, List.length_cons] at hn
    exact ⟨n - 1, by omega⟩
  show Scans Delimited _ (variantFromStreamWith p (scanNested (variantFromStreamWith p) .exhausted m)) _
  clear hcs
  induction v using Variant.induct generalizing m with
  | null => exact scans_tokenFromStream (c := 'n') rfl (by decide) (scans_word (.head _))
  | bool b =>
    cases b with
    | true => exact scans_tokenFromStream (c := 't') rfl (by decide) (scans_word (.tail _ (.head _)))
    | false =>
      exact scans_tokenFromStream (c := 'f') rfl (by decide) (scans_word (.tail _ (.tail _ (.head _))))
  | int64 i =>
    rw [toStream, reread]
    by_cases hi : 0xffffffff < i
    · rw [if_pos hi, decide_eq_true ⟨rfl, hi⟩]
      exact scans_string rfl (scans_quoted (literalChar_int64Text i))
    · rw [if_neg hi, decide_eq_false fun h => hi h.2]
      exact scans_int64 i
  | uint64 k =>
    rw [toStream, reread]
    by_cases hk : 0xffffffff < k
    · rw [if_pos hk, decide_eq_true ⟨rfl, hk⟩]
      exact scans_string rfl
        (scans_quoted fun c hc => literalChar_of_isDigit (isDigit_toDigits k.toNat c hc))
    · rw [if_neg hk, decide_eq_false fun h => hk h.2]
      exact scans_uint64 k
  | double d =>
    refine scans_string rfl (scans_quoted fun c hc => ?_)
    obtain ⟨hprintable, hescape, hquote⟩ := LawfulDoubles.printable d c hc
    refine ⟨hescape, hquote, ?_⟩
    rintro rfl
    exact absurd hprintable (by decide)
  | string s => exact scans_string rfl (scans_escapeString s)
  | array variants ih =>
    rw [toStream, List.length_cons, List.length_append, List.length_singleton] at hn
    obtain ⟨k, rfl⟩ : ∃ k, m = k + 1 := ⟨m - 1, by omega⟩
    have helements : ∀ v ∈ variants, Scans Delimited (toStream stringify v)
        (scanNested (variantFromStreamWith p) .exhausted (k + 1)) (reread v) := by
      intro v hv
      have hle := length_le_arrayToStream hv
      exact ih v hv k (by omega)
    have hread := scans_array helements
    intro w hw
    rw [toStream]
    have hrun := hread w hw
    have hwhite : isWhiteSpace '[' = false := by decide
    have hnot : ('[' : Char) ≠ '"' ∧ ('[' : Char) ≠ '{' := by decide
    rw [List.cons_append] at hrun ⊢
    simp only [variantFromStreamWith, EStateM.run_bind, run_skipWhiteSpace hwhite, run_peek_cons,
      hnot.1, hnot.2, if_false, if_true]
    exact hrun
  | object entries ih =>
    rw [toStream, List.length_cons, List.length_append, List.length_singleton] at hn
    obtain ⟨k, rfl⟩ : ∃ k, m = k + 1 := ⟨m - 1, by omega⟩
    have hvalues : ∀ e ∈ entries, Scans Delimited (toStream stringify e.2)
        (scanNested (variantFromStreamWith p) .exhausted (k + 1)) (reread e.2) := by
      intro e he
      have hle := length_le_objectToStream he
      exact ih e he k (by omega)
    have hread := scans_object hvalues
    intro w hw
    rw [toStream]
    have hrun := hread w hw
    have hwhite : isWhiteSpace '{' = false := by decide
    have hnot : ('{' : Char) ≠ '"' := by decide
    rw [List.cons_append] at hrun ⊢
    simp only [variantFromStreamWith, EStateM.run_bind, run_skipWhiteSpace hwhite, run_peek_cons,
      hnot, if_false, if_true]
    exact hrun

/-! ## What is read back once -/

omit [Doubles δ] in
theorem plainChar_of_isDigit (hc : c.isDigit = true) : PlainChar c := by
  simp only [Char.isDigit, Bool.and_eq_true, decide_eq_true_eq] at hc
  have hle : 48 ≤ c.toNat := hc.1
  exact .inl (by omega)

omit [Doubles δ] in
theorem rereadChar_of_plain (hc : PlainChar c) : rereadChar c = [c] := by
  refine if_neg ?_
  rintro ⟨hcontrol, hnew⟩
  rcases hc with hc | hc
  · exact absurd hc (Nat.not_le.mpr hcontrol)
  · exact hnew hc

omit [Doubles δ] in
theorem plainChar_of_mem_rereadChar (hc : c ∈ rereadChar d) : PlainChar c := by
  have hhex : ∀ n < 16, 32 ≤ (Nat.digitChar n).toNat := by decide
  rw [rereadChar] at hc
  split at hc
  · rename_i hd
    by_cases hknown : d ∈ ['\x08', '\x0c', '\n', '\r', '\t']
    · obtain ⟨-, hnew⟩ := hd
      simp only [List.mem_cons, List.not_mem_nil, or_false, not_or] at hknown hnew
      rcases hknown with rfl | rfl | h | h | h
      · rw [List.mem_singleton.mp hc]
        exact .inl (by decide)
      · rw [List.mem_singleton.mp hc]
        exact .inl (by decide)
      · exact absurd h hnew.1
      · exact absurd h hnew.2.1
      · exact absurd h hnew.2.2
    · rw [escapeChar_control hd.1 hknown] at hc
      simp only [List.tail_cons, List.mem_cons, List.not_mem_nil, or_false] at hc
      rcases hc with rfl | rfl | rfl | rfl | rfl
      · exact .inl (by decide)
      · exact .inl (by decide)
      · exact .inl (by decide)
      · exact .inl (hhex _ (by omega))
      · exact .inl (hhex _ (by omega))
  · rename_i hd
    rw [List.mem_singleton.mp hc]
    by_cases hcontrol : d.toNat < 32
    · exact .inr (not_not.mp fun hnew => hd ⟨hcontrol, hnew⟩)
    · exact .inl (Nat.not_lt.mp hcontrol)

omit [Doubles δ] in
theorem plain_rereadText (s : Text) : ∀ c ∈ rereadText s, PlainChar c := by
  intro c hc
  obtain ⟨d, -, hd⟩ := List.mem_flatMap.mp hc
  exact plainChar_of_mem_rereadChar hd

omit [Doubles δ] in
theorem rereadText_of_plain {s : Text} (hs : ∀ c ∈ s, PlainChar c) : rereadText s = s := by
  induction s with
  | nil => rfl
  | cons c s ih =>
    rw [rereadText, List.flatMap_cons, rereadChar_of_plain (hs c List.mem_cons_self)]
    exact congrArg (c :: ·) (ih fun d hd => hs d (List.mem_cons_of_mem _ hd))

theorem rereadArray_eq_map (vs : List (Variant δ)) : rereadArray vs = vs.map reread := by
  induction vs with
  | nil => rfl
  | cons v vs ih => rw [rereadArray, ih, List.map_cons]

theorem rereadObject_eq_map (entries : List (Text × Variant δ)) :
    rereadObject entries = entries.map fun e => (rereadText e.1, reread e.2) := by
  induction entries with
  | nil => rfl
  | cons e entries ih => rw [rereadObject, ih, List.map_cons]

/-- **What was read back is plain.** -/
theorem plain_reread [LawfulDoubles δ] (v : Variant δ) : Plain (reread v) := by
  induction v using Variant.induct with
  | null => exact .null
  | bool b => exact .bool b
  | int64 i =>
    rw [reread]
    split
    · refine .string fun c hc => ?_
      rw [int64Text] at hc
      have hdigits := isDigit_toDigits i.toInt.natAbs
      split at hc
      · rcases List.mem_cons.mp hc with rfl | hc
        · exact .inl (by decide)
        · exact plainChar_of_isDigit (hdigits c hc)
      · exact plainChar_of_isDigit (hdigits c hc)
    · rename_i hsmall
      split
      · rename_i hneg
        exact .int64 hneg
      · rename_i hneg
        refine .uint64 ?_
        have hle : (0 : Int64) ≤ i := Int64.not_lt.mp hneg
        exact Int64.toUInt64_le hle (Int64.not_lt.mp hsmall)
  | uint64 n =>
    rw [reread]
    split
    · exact .string fun c hc => plainChar_of_isDigit (isDigit_toDigits n.toNat c hc)
    · rename_i hsmall
      exact .uint64 (UInt64.not_lt.mp hsmall)
  | double d => exact .string fun c hc => .inl (LawfulDoubles.printable d c hc).1
  | string s => exact .string (plain_rereadText s)
  | array variants ih =>
    rw [reread, rereadArray_eq_map]
    refine .array fun v hv => ?_
    obtain ⟨u, hu, rfl⟩ := List.mem_map.mp hv
    exact ih u hu
  | object entries ih =>
    rw [reread, rereadObject_eq_map]
    refine .object (fun e he => ?_) fun e he => ?_
    · obtain ⟨e', -, rfl⟩ := List.mem_map.mp he
      exact plain_rereadText e'.1
    · obtain ⟨e', he', rfl⟩ := List.mem_map.mp he
      exact ih e' he'

/-- A plain value is read back as it is. -/
theorem reread_of_plain (hv : Plain v) : reread v = v := by
  induction v using Variant.induct with
  | null => rfl
  | bool b => rfl
  | int64 i =>
    cases hv with
    | int64 hneg =>
      have hsmall : ¬ 0xffffffff < i := by
        intro hlarge
        have hpos : 0 < i := Int64.lt_trans (by decide) hlarge
        exact Int64.lt_irrefl (Int64.lt_trans hneg hpos)
      rw [reread, if_neg hsmall, if_pos hneg]
  | uint64 n =>
    cases hv with
    | uint64 hsmall => rw [reread, if_neg (UInt64.not_lt.mpr hsmall)]
  | double d => cases hv
  | string s =>
    cases hv with
    | string hs => rw [reread, rereadText_of_plain hs]
  | array variants ih =>
    cases hv with
    | array h =>
      rw [reread, rereadArray_eq_map]
      exact congrArg _ (List.map_congr_left (fun v hv => ih v hv (h v hv)) |>.trans (List.map_id _))
  | object entries ih =>
    cases hv with
    | object hkey h =>
      rw [reread, rereadObject_eq_map]
      have hsame : ∀ e ∈ entries, (fun e : Text × Variant δ => (rereadText e.1, reread e.2)) e = id e := by
        intro e he
        show (rereadText e.1, reread e.2) = e
        rw [rereadText_of_plain (hkey e he), ih e he (h e he)]
      exact congrArg _ (List.map_congr_left hsame |>.trans (List.map_id _))

theorem run_variantFromStream (p : ParseType) (s : Text) :
    (variantFromStream p : JsonM (Variant δ)).run s =
      (scanNested (variantFromStreamWith p) .exhausted (s.length + 1)).run s := by
  simp only [variantFromStream, EStateM.run]

theorem fromString_eq [LawfulDoubles δ] (p : ParseType) (v : Variant δ) :
    fromString p (toString stringify v) =
      (checkStringDepth (toString stringify v)).map fun _ => reread v := by
  have hread := scans_value (p := p) v (Nat.le_succ (toStream stringify v).length) [] nofun
  rw [List.append_nil, ← run_variantFromStream] at hread
  rw [toString, fromString, hread]
  cases checkStringDepth (toStream stringify v) <;> rfl

/-- **What is printed is read back**, where its text passes the check of the depth: as a plain value, and
as the value that it was where and only where that was plain. -/
theorem fromString_toString [LawfulDoubles δ] (p : ParseType) (v : Variant δ) :
    fromString p (toString stringify v) =
        (checkStringDepth (toString stringify v)).map (fun _ => reread v) ∧
      Plain (reread v) ∧ (reread v = v ↔ Plain v) := by
  refine ⟨fromString_eq p v, plain_reread v, ?_, reread_of_plain⟩
  intro h
  rw [← h]
  exact plain_reread v

end Values

/-! ## The parser ends -/

section Ending

variable {k n : Nat} {d : Char → Nat} {p : ParseType} {value : JsonM (Variant δ)} {c : Char} {s : Text}

theorem tame_next : Tame JsonExc.exhausted (fun _ => 1) k (next .eof : JsonM Char) := .next nofun

theorem tame_peek : Tame JsonExc.exhausted (fun _ => 0) k (peek .eof : JsonM Char) := .peek nofun

/-- A round that takes a character and goes on. -/
theorem tame_round_next {σ α : Type} (r : σ ⊕ α) :
    Tame JsonExc.exhausted roundTakes k (next .eof >>= fun _ => pure r : JsonM (σ ⊕ α)) := by
  refine .bind_first tame_next (fun _ _ => .pure rfl) ?_
  rintro (x | a)
  · exact Nat.le_refl _
  · exact Nat.zero_le _

theorem tame_whiteSpaceRound (skipped : Bool) :
    Tame JsonExc.exhausted roundTakes k (do
      if isWhiteSpace (← peek .eof) then
        let _ ← next .eof
        pure (.inl true)
      else pure (.inr skipped) : JsonM (Bool ⊕ Bool)) :=
  .bind_rest tame_peek fun _ => .ite (tame_round_next _) (.pure rfl)

/-- White space was taken where it was found. -/
theorem tame_skipWhiteSpace :
    Tame JsonExc.exhausted (fun skipped : Bool => if skipped then 1 else 0) k skipWhiteSpace := by
  intro s hs
  cases s with
  | nil => exact nofun
  | cons c s =>
    by_cases hc : isWhiteSpace c = true
    · have hfirst : (do
          if isWhiteSpace (← peek .eof) then
            let _ ← next .eof
            pure (.inl true)
          else pure (.inr false) : JsonM (Bool ⊕ Bool)).run (c :: s) = .ok (.inl true) s := by
        simp only [EStateM.run_bind, run_peek_cons, hc, if_true, run_next_cons, EStateM.run_pure]
      refine (Tame.scanLoop_first tame_whiteSpaceRound true hfirst (Nat.le_of_succ_le hs)).weaken ?_
      intro skipped
      split <;> omega
    · rw [run_skipWhiteSpace (Bool.not_eq_true _ ▸ hc)]
      exact Nat.le_refl _

theorem tame_skipWhiteSpace_zero : Tame JsonExc.exhausted (fun _ => 0) k skipWhiteSpace :=
  tame_skipWhiteSpace.weaken fun _ => Nat.zero_le _

theorem tame_parseEscape : Tame JsonExc.exhausted (fun _ => 1) k parseEscape := by
  refine .bind_rest tame_peek fun _ => .ite ?_ (.throw nofun)
  refine .bind_first tame_next (fun _ _ => ?_) fun _ => Nat.le_refl _
  exact .bind_rest (tame_next.weaken fun _ => Nat.zero_le _) fun _ => .pure rfl

theorem tame_stringRound (token : Text) : Tame JsonExc.exhausted roundTakes k (stringRound token) := by
  refine .bind_rest tame_peek fun c => .ite ?_ (.ite (.throw nofun) (.ite ?_ ?_))
  · refine .bind_first tame_parseEscape (fun _ _ => .pure rfl) ?_
    rintro (x | a)
    · exact Nat.le_refl _
    · exact Nat.zero_le _
  · exact tame_round_next _
  · exact tame_round_next _

theorem tame_stringFromStream : Tame JsonExc.exhausted (fun _ => 1) k stringFromStream := by
  refine .bind_rest tame_peek fun _ => .ite ?_ (.throw nofun)
  exact .bind_first tame_next (fun _ _ => .scanLoop tame_stringRound _) fun _ => Nat.le_refl _

theorem tame_tokenRound (token : Text) : Tame JsonExc.exhausted roundTakes k (tokenRound token) := by
  refine .bind_rest .peek? fun c => ?_
  cases c with
  | none => exact .pure rfl
  | some c =>
    refine .ite ?_ (.ite (tame_round_next _) (.ite (tame_round_next _) (.pure rfl)))
    refine .bind_first tame_next (fun _ _ => ?_) ?_
    · refine .bind_rest .peek? fun e => ?_
      cases e with
      | none => exact .pure rfl
      | some e => exact (tame_round_next _).weaken fun _ => Nat.zero_le _
    · rintro (x | a)
      · exact Nat.le_refl _
      · exact Nat.zero_le _

theorem tame_stringFromToken : Tame JsonExc.exhausted (fun _ => 0) k stringFromToken :=
  .scanLoop tame_tokenRound _

theorem tame_wordRound (str : Text) : Tame JsonExc.exhausted roundTakes k (wordRound str) := by
  refine .bind_rest .peek? fun c => ?_
  cases c with
  | none => exact .pure rfl
  | some c => exact .ite (tame_round_next _) (.pure rfl)

/-- A word is taken. -/
theorem lasts_tokenFromStream (hc : isWordChar c = true) (hs : s.length ≤ k) :
    Lasts JsonExc.exhausted (fun _ => 1) (c :: s)
      ((tokenFromStream : JsonM (Variant δ)).run (c :: s)) := by
  have hfirst : (wordRound []).run (c :: s) = .ok (.inl [c]) s := by
    simp only [wordRound, EStateM.run_bind, run_peek?_cons, hc, if_true, run_next_cons, EStateM.run_pure]
    rfl
  refine (Tame.scanLoop_first tame_wordRound [c] hfirst hs).bind (fun _ _ => 0) ?_
    fun _ _ => Nat.le_refl _
  rintro ⟨str, receivedEof⟩ s' -
  have htame : Tame JsonExc.exhausted (fun _ => 0) s'.length (do
      if str = "null".toList then pure .null
      else if str = "true".toList then pure (.bool true)
      else if str = "false".toList then pure (.bool false)
      else if receivedEof then
        if str = [] then throw (.parseError "Unexpected EOF") else pure (.string str)
      else
        let rest ← stringFromToken
        pure (.string (str ++ rest)) : JsonM (Variant δ)) := by
    refine .ite (.pure rfl) (.ite (.pure rfl) (.ite (.pure rfl) (.ite (.ite (.throw nofun) (.pure rfl)) ?_)))
    exact .bind_rest tame_stringFromToken fun _ => .pure rfl
  exact htame s' (Nat.le_refl _)

theorem tame_numberOf [Doubles δ] (neg dot : Bool) (str : Text) :
    Tame JsonExc.exhausted (fun _ => 0) k (numberOf p neg dot str : JsonM (Variant δ)) := by
  refine .ite (.throw nofun) (.ite (.ite (.pure rfl) ?_) (.ite ?_ (.ite (.pure rfl) (.throw nofun))))
  · cases Doubles.toDouble (δ := δ) str with
    | none => exact .throw nofun
    | some x => exact .pure rfl
  · rw [numberFromInt64]
    cases toInt64 str with
    | ok i => exact .pure rfl
    | error e => exact .throw nofun

theorem tame_numberRound [Doubles δ] (neg : Bool) (x : Text × Bool) :
    Tame JsonExc.exhausted roundTakes k
      (numberRound p neg x : JsonM ((Text × Bool) ⊕ Variant δ)) := by
  have hend : Tame JsonExc.exhausted roundTakes k
      (Sum.inr <$> numberOf p neg x.2 x.1 : JsonM ((Text × Bool) ⊕ Variant δ)) := by
    rw [← bind_pure_comp]
    exact .bind_rest (tame_numberOf neg x.2 x.1) fun _ => .pure rfl
  refine .bind_rest .peek? fun c => ?_
  cases c with
  | none => exact hend
  | some c =>
    refine .ite hend (.ite (.ite (.throw nofun) (tame_round_next _)) (.ite (tame_round_next _) (.ite ?_ hend)))
    exact .bind_rest tame_stringFromToken fun _ => .pure rfl

/-- A number is taken. -/
theorem lasts_numberFromStream [Doubles δ] (hc : c = '-' ∨ c = '.' ∨ c.isDigit = true)
    (hs : s.length ≤ k) :
    Lasts JsonExc.exhausted (fun _ => 1) (c :: s)
      ((numberFromStream p : JsonM (Variant δ)).run (c :: s)) := by
  simp only [numberFromStream, EStateM.run_bind, run_peek_cons]
  by_cases hsign : c = '-'
  · rw [if_pos hsign]
    have hloop : Tame JsonExc.exhausted (fun _ => 1) (k + 1) (next .eof >>= fun _ =>
        scanLoop (numberRound p true) .exhausted (['-'], false) : JsonM (Variant δ)) :=
      .bind_first tame_next (fun _ _ => .scanLoop (tame_numberRound true) _) fun _ => Nat.le_refl _
    exact hloop (c :: s) (Nat.succ_le_succ hs)
  · rw [if_neg hsign]
    rcases hc.resolve_left hsign with rfl | hdigit
    · exact Tame.scanLoop_first (tame_numberRound false) (['.'], true) rfl hs
    · have hfirst : (numberRound p false ([], false) : JsonM ((Text × Bool) ⊕ Variant δ)).run (c :: s) =
          .ok (.inl ([c], false)) s := by
        have hzero : c ≠ '\x00' := isDigit_ne hdigit (by decide)
        have hpoint : c ≠ '.' := isDigit_ne hdigit (by decide)
        simp only [numberRound, EStateM.run_bind, run_peek?_cons, hzero, hpoint, hdigit,
          if_false, if_true, run_next_cons, EStateM.run_pure]
        rfl
      exact Tame.scanLoop_first (tame_numberRound false) ([c], false) hfirst hs

theorem roundTakes_le {σ α : Type} (skipped : Bool) (r : σ ⊕ α) :
    roundTakes r ≤ (if skipped then 1 else 0) + if skipped then 0 else 1 := by
  have hle : roundTakes r ≤ 1 := by
    cases r with
    | inl x => exact Nat.le_refl _
    | inr a => exact Nat.zero_le _
  cases skipped <;> exact hle

theorem tame_arrayRound (hvalue : Tame JsonExc.exhausted (fun _ => 1) k value) (ar : List (Variant δ)) :
    Tame JsonExc.exhausted roundTakes k (arrayRound value ar) := by
  refine .bind_rest tame_peek fun c => .ite (.pure rfl) (.ite (tame_round_next _) ?_)
  refine .bind (fun skipped _ => if skipped then 0 else 1) tame_skipWhiteSpace ?_ ?_
  · intro skipped _
    cases skipped with
    | true => exact .pure rfl
    | false =>
      refine .bind_first hvalue (fun _ _ => ?_) fun _ => Nat.le_refl _
      exact .bind_rest tame_skipWhiteSpace_zero fun _ => .pure rfl
  · exact fun skipped r => roundTakes_le skipped r

theorem tame_arrayFromStream (hvalue : ∀ j < k, Tame JsonExc.exhausted (fun _ => 1) j value) :
    Tame JsonExc.exhausted (fun _ => 1) k (arrayFromStream value) := by
  refine .bind_rest tame_peek fun _ => .ite ?_ (.throw nofun)
  refine .bind_first tame_next (fun hk _ => ?_) fun _ => Nat.le_refl _
  refine .bind_rest tame_skipWhiteSpace_zero fun _ => ?_
  refine .bind_rest (.scanLoop (tame_arrayRound (hvalue (k - 1) (by omega))) _) fun _ => ?_
  exact .bind_rest (tame_next.weaken fun _ => Nat.zero_le _) fun _ => .pure rfl

theorem tame_objectRound (hvalue : Tame JsonExc.exhausted (fun _ => 1) k value)
    (obj : List (Text × Variant δ)) :
    Tame JsonExc.exhausted roundTakes k (objectRound value obj) := by
  refine .bind_rest tame_peek fun c => .ite (.pure rfl) (.ite (tame_round_next _) ?_)
  refine .bind (fun skipped _ => if skipped then 0 else 1) tame_skipWhiteSpace ?_ ?_
  · intro skipped _
    cases skipped with
    | true => exact .pure rfl
    | false =>
      refine .bind_first tame_stringFromStream (fun _ _ => ?_) fun _ => Nat.le_refl _
      refine .bind_rest tame_skipWhiteSpace_zero fun _ => .bind_rest tame_peek fun _ => ?_
      refine .ite (.throw nofun) (.bind_rest (tame_next.weaken fun _ => Nat.zero_le _) fun _ => ?_)
      have hless := hvalue.mono (Nat.sub_le k 1)
      refine .bind_rest (hless.weaken fun _ => Nat.zero_le _) fun _ => ?_
      exact .bind_rest tame_skipWhiteSpace_zero fun _ => .pure rfl
  · exact fun skipped r => roundTakes_le skipped r

theorem tame_objectFromStream (hvalue : ∀ j < k, Tame JsonExc.exhausted (fun _ => 1) j value) :
    Tame JsonExc.exhausted (fun _ => 1) k (objectFromStream value) := by
  refine .tryCatch (.bind_rest tame_peek fun _ => .ite ?_ (.throw nofun)) ?_
  · refine .bind_first tame_next (fun hk _ => ?_) fun _ => Nat.le_refl _
    refine .bind_rest tame_skipWhiteSpace_zero fun _ => ?_
    refine .bind_rest (.scanLoop (tame_objectRound (hvalue (k - 1) (by omega))) _) fun _ => ?_
    exact .bind_rest (tame_next.weaken fun _ => Nat.zero_le _) fun _ => .pure rfl
  · intro e he
    cases e with
    | eof => exact ⟨.parseError "Unexpected EOF: ${e}", nofun, rfl⟩
    | parseError format => exact ⟨.parseError format, nofun, rfl⟩
    | assertion format => exact ⟨.assertion format, nofun, rfl⟩
    | exhausted => exact absurd rfl he

theorem tame_variantFromStreamWith [Doubles δ]
    (hvalue : ∀ j < k, Tame JsonExc.exhausted (fun _ => 1) j value) :
    Tame JsonExc.exhausted (fun _ => 1) k (variantFromStreamWith p value) := by
  refine .bind_rest tame_skipWhiteSpace_zero fun _ => ?_
  intro s hs
  cases s with
  | nil => exact nofun
  | cons c s =>
    rw [EStateM.run_bind, run_peek_cons]
    have hle : s.length ≤ k := Nat.le_of_succ_le hs
    have hstring : Tame JsonExc.exhausted (fun _ => 1) k
        (do let s ← stringFromStream; pure (.string s) : JsonM (Variant δ)) :=
      .bind_first tame_stringFromStream (fun _ _ => .pure rfl) fun _ => Nat.le_refl _
    dsimp only
    split
    · exact hstring (c :: s) hs
    split
    · exact tame_objectFromStream hvalue (c :: s) hs
    split
    · exact tame_arrayFromStream hvalue (c :: s) hs
    split
    · rename_i hnumber
      exact lasts_numberFromStream hnumber hle
    split
    · rename_i hword
      have hc : isWordChar c = true := by
        rcases hword with rfl | rfl | rfl <;> decide
      exact lasts_tokenFromStream hc hle
    split
    · exact nofun
    · exact nofun

theorem checkStringDepthFrom_ne_exhausted {openObject openArray : Int} :
    checkStringDepthFrom openObject openArray s ≠ .error .exhausted := by
  induction s generalizing openObject openArray with
  | nil => exact nofun
  | cons c s ih =>
    rw [checkStringDepthFrom]
    generalize (if c = '{' then openObject + 1 else if c = '}' then openObject - 1 else openObject) = o
    generalize (if c = '[' then openArray + 1 else if c = ']' then openArray - 1 else openArray) = a
    split
    · exact ih
    · exact nofun

/-- **The parser ends on every text**: every round of its loops takes something, and every call of itself
comes after a bracket. -/
theorem fromString_ends [Doubles δ] (p : ParseType) (s : Text) :
    (fromString p s : Except JsonExc (Variant δ)) ≠ .error .exhausted := by
  have htame : Tame JsonExc.exhausted (fun _ => 1) s.length
      (scanNested (variantFromStreamWith p) .exhausted (s.length + 1) : JsonM (Variant δ)) :=
    .scanNested (fun _ _ => tame_variantFromStreamWith) (Nat.lt_succ_self _)
  have hlasts := htame s (Nat.le_refl _)
  rw [fromString]
  cases hdepth : checkStringDepth s with
  | error e =>
    rintro ⟨⟩
    exact checkStringDepthFrom_ne_exhausted hdepth
  | ok u =>
    rw [← run_variantFromStream] at hlasts
    cases hcase : (variantFromStream p : JsonM (Variant δ)).run s with
    | ok v s' =>
      exact nofun
    | error e s' =>
      rw [hcase] at hlasts
      rintro ⟨⟩
      exact hlasts rfl

end Ending

/-! ## What the check of the depth misses -/

mutual

/-- How deep the arrays and objects of a value are nested. -/
def nesting : Variant δ → Nat
  | .array variants => nestingArray variants + 1
  | .object entries => nestingObject entries + 1
  | _ => 0

def nestingArray : List (Variant δ) → Nat
  | [] => 0
  | v :: variants => max (nesting v) (nestingArray variants)

def nestingObject : List (Text × Variant δ) → Nat
  | [] => 0
  | (_, v) :: entries => max (nesting v) (nestingObject entries)

end

/-- Arrays nested so deep, with a closing bracket in each as a string. -/
def nested : Nat → Variant δ
  | 0 => .null
  | n + 1 => .array [.string [']'], nested n]

theorem nesting_nested (n : Nat) : nesting (nested n : Variant δ) = n := by
  induction n with
  | zero => rfl
  | succ n ih =>
    simp only [nested, nesting, nestingArray, ih]
    omega

theorem plain_nested (n : Nat) : Plain (nested n : Variant δ) := by
  induction n with
  | zero => exact .null
  | succ n ih =>
    refine .array fun v hv => ?_
    simp only [List.mem_cons, List.not_mem_nil, or_false] at hv
    rcases hv with rfl | rfl
    · refine .string fun c hc => ?_
      rw [List.mem_singleton.mp hc]
      exact .inl (by decide)
    · exact ih

section Depth

variable [Doubles δ] {p : ParseType}

/-- The strings keep the count of the open arrays down. -/
theorem checkStringDepthFrom_nested (n : Nat) {openArray : Int} (ha : openArray ≤ 0) (rest : Text) :
    checkStringDepthFrom 0 openArray (toStream stringify (nested n : Variant δ) ++ rest) =
      checkStringDepthFrom 0 (openArray - n) rest := by
  induction n generalizing openArray rest with
  | zero =>
    have hlt : openArray < 100 := by omega
    have hword : toStream stringify (nested 0 : Variant δ) = ['n', 'u', 'l', 'l'] := by
      rw [nested, toStream]
      rfl
    rw [hword]
    simp [checkStringDepthFrom, hlt]
  | succ n ih =>
    have htext : toStream stringify (nested (n + 1) : Variant δ) ++ rest =
        '[' :: '"' :: ']' :: '"' :: ',' :: (toStream stringify (nested n : Variant δ) ++ ']' :: rest) := by
      rw [nested, toStream, arrayToStream, arrayToStream, toStream]
      · simp [escapeString, escapeChar]
      · simp
    have hlt : openArray < 100 := by omega
    have hlt' : openArray + 1 < 100 := by omega
    rw [htext]
    simp only [checkStringDepthFrom]
    simp only [Char.reduceEq, if_false, if_true, hlt, hlt', Int.add_sub_cancel, and_self,
      show (0 : Int) < 100 by decide]
    rw [ih ha]
    have hnext : openArray - n - 1 = openArray - (n + 1 : Nat) := by omega
    simp only [checkStringDepthFrom, Char.reduceEq, if_false, if_true, hnext]
    rw [if_pos ⟨by decide, by omega⟩]

/-- So many opening brackets are too many, wherever they stand. -/
theorem checkStringDepthFrom_braces {k : Nat} {openObject : Int} (ho : 100 ≤ openObject + k)
    (ho' : openObject < 100) (rest : Text) :
    checkStringDepthFrom openObject 0 (List.replicate k '{' ++ rest) =
      .error (.assertion "object graph too deep") := by
  induction k generalizing openObject with
  | zero => omega
  | succ k ih =>
    rw [List.replicate_succ, List.cons_append, checkStringDepthFrom]
    simp only [Char.reduceEq, if_false, if_true]
    split
    · rename_i hlt
      exact ih (by omega) hlt.1
    · rfl

theorem flatMap_escapeChar_braces (n : Nat) :
    (List.replicate n '{').flatMap escapeChar = List.replicate n '{' := by
  induction n with
  | zero => rfl
  | succ n ih =>
    rw [List.replicate_succ, List.flatMap_cons, ih]
    rfl

end Depth

/-! ## A number with a point -/

/-- One half, as a `double`. -/
inductive Half
  | half

def Half.text : Text := "0.50000000000000000".toList

instance : Doubles Half where
  toDouble s := if s = Half.text then some .half else none
  toText _ := Half.text

instance : LawfulDoubles Half where
  printable := by
    have h : Half.text.all (fun c => 32 ≤ c.toNat ∧ c ≠ '\\' ∧ c ≠ '"') = true := by decide
    intro d c hc
    exact of_decide_eq_true (List.all_eq_true.mp h c hc)

/-- A value is read back with its half as a string. -/
theorem fromString_toString_half :
    fromString .legacyParser
        (toString stringify (.array [.double Half.half, .object [("k".toList, .uint64 1)]])) =
      (.ok (.array [.string Half.text, .object [("k".toList, .uint64 1)]]) :
        Except JsonExc (Variant Half)) :=
  (fromString_toString .legacyParser _).1.trans rfl

end Json

end NewsChain
