import Mathlib.Tactic.Linarith
import Mathlib.Tactic.Ring
import NewsChain.Base.AssetText

/-!
# What the text of an asset denotes

`from_string` reads the digits behind the dot as a number of their own and adds it to the whole
units: the fraction is not scaled by the digits it has, and a minus sign does not reach it. So it
denotes what is written where the fraction is zero, or has all eight digits and no minus stands in
front (`fromText_denotes_iff`). What `to_string` prints is of that kind whatever the amount, since
it prints the amount as an unsigned number with eight digits behind the dot
(`fromText_toText`).
-/

namespace NewsChain

open Nat (ofDigitChars toDigits)

/-! ## Strings -/

section Strings

variable {s pre post ds : Text} {c : Char}

theorem find_append (h : c ∉ pre) : Text.find (pre ++ c :: post) c = some pre.length := by
  induction pre with
  | nil => simp [Text.find, List.findIdx?_cons]
  | cons d pre ih =>
    obtain ⟨hd, hpre⟩ := not_or.mp (fun hor => h (List.mem_cons.mpr hor))
    have := ih hpre
    unfold Text.find at this ⊢
    rw [List.cons_append, List.findIdx?_cons, this]
    simp [Ne.symm hd]

/-- A string with no space at its ends stays as it is. -/
theorem trim_eq_self (hfirst : ∀ c ∈ s.head?, isSpace c = false)
    (hlast : ∀ c ∈ s.getLast?, isSpace c = false) : trim s = s := by
  have hdrop : s.dropWhile isSpace = s := by
    cases s with
    | nil => rfl
    | cons c s => rw [List.dropWhile_cons_of_neg (by simp [hfirst c rfl])]
  rw [trim, hdrop]
  refine List.rdropWhile_eq_self_iff.mpr fun hne => ?_
  rw [hlast _ (List.getLast?_eq_some_getLast hne)]
  simp

theorem trim_of_noSpace (h : ∀ c ∈ s, isSpace c = false) : trim s = s :=
  trim_eq_self (fun c hc => h c (List.mem_of_mem_head? hc))
    fun c hc => h c (List.mem_of_getLast? hc)

theorem isDigit_ne {c d : Char} (hc : c.isDigit = true) (hd : d.isDigit = false) : c ≠ d := by
  rintro rfl
  rw [hc] at hd
  cases hd

theorem isSpace_of_isDigit (h : c.isDigit = true) : isSpace c = false := by
  have : ∀ d ∈ [' ', '\t', '\n', '\x0b', '\x0c', '\r'], d.isDigit = false := by simp
  refine decide_eq_false fun hmem => ?_
  exact isDigit_ne h (this c hmem) rfl

theorem takeWhile_digits (hds : ∀ c ∈ ds, c.isDigit = true) :
    ds.takeWhile (· ≠ '\x00') = ds := by
  refine List.takeWhile_eq_self_iff.mpr fun c hc => ?_
  simpa using isDigit_ne (hds c hc) (by decide : ('\x00' : Char).isDigit = false)

/-- A number with its sign. -/
def signed (minus : Bool) (n : Nat) : Int := if minus then -n else n

/-- The sign of a number. -/
def signText (minus : Bool) : Text := if minus then ['-'] else []

/-- What `toInt64` makes of digits behind a minus sign or none. -/
theorem toInt64_eq (minus : Bool) (hne : ds ≠ []) (hds : ∀ c ∈ ds, c.isDigit = true) :
    toInt64 (signText minus ++ ds) =
      if -2 ^ 63 ≤ signed minus (ofDigitChars 10 ds 0) ∧ signed minus (ofDigitChars 10 ds 0) < 2 ^ 63
      then .ok (.ofInt (signed minus (ofDigitChars 10 ds 0)))
      else .error (.assertion "Couldn't parse int64_t") := by
  have htake := takeWhile_digits hds
  have hall : ds.all Char.isDigit = true := List.all_eq_true.mpr hds
  have hsign : dropSign (signText minus ++ ds) = ds := by
    cases minus with
    | true => rfl
    | false =>
      obtain ⟨d, ds', rfl⟩ := List.exists_cons_of_ne_nil hne
      have hd := hds d (.head _)
      show dropSign (d :: ds') = d :: ds'
      unfold dropSign
      split
      · rename_i heq
        exact absurd (List.cons.inj heq).1 (isDigit_ne hd (by decide))
      · rename_i heq
        exact absurd (List.cons.inj heq).1 (isDigit_ne hd (by decide))
      · rfl
  have hvalue : (if (signText minus ++ ds).head? = some '-' then -(ofDigitChars 10 ds 0 : Int)
      else ofDigitChars 10 ds 0) = signed minus (ofDigitChars 10 ds 0) := by
    cases minus with
    | true => rfl
    | false =>
      obtain ⟨d, ds', rfl⟩ := List.exists_cons_of_ne_nil hne
      refine if_neg fun heq => ?_
      exact isDigit_ne (hds d (.head _)) (by decide) (Option.some.inj heq)
  have hwhole : (signText minus ++ ds).takeWhile (· ≠ '\x00') = signText minus ++ ds := by
    cases minus with
    | true =>
      show ('-' :: ds).takeWhile (· ≠ '\x00') = '-' :: ds
      rw [List.takeWhile_cons_of_pos (by decide), htake]
    | false => exact htake
  simp only [toInt64, hwhole, hsign, hvalue, hne, hall, ne_eq, not_false_eq_true, true_and]

end Strings

/-- The sum of the two numbers, kept to 64 bits, is the exact amount only where it fits and the
fraction needs no scaling and no sign. -/
theorem wraps_to_exact {minus : Bool} {whole fraction digits : Nat} (hdigits : digits ≤ 8)
    (hfraction : fraction < 2 ^ 63) :
    (signed minus whole * 10 ^ 8 + fraction).bmod (2 ^ 64) =
        signed minus (whole * 10 ^ 8 + fraction * 10 ^ (8 - digits)) ↔
      (fraction = 0 ∨ digits = 8 ∧ minus = false) ∧
        -2 ^ 63 ≤ signed minus whole * 10 ^ 8 + fraction ∧
          signed minus whole * 10 ^ 8 + fraction < 2 ^ 63 := by
  have hscale : digits = 8 ∧ fraction * 10 ^ (8 - digits) = fraction ∨
      digits ≠ 8 ∧ 10 * fraction ≤ fraction * 10 ^ (8 - digits) := by
    rcases Nat.eq_or_lt_of_le hdigits with rfl | hlt
    · exact .inl ⟨rfl, by simp⟩
    · have hpow : 10 ^ 1 ≤ 10 ^ (8 - digits) := Nat.pow_le_pow_right (by norm_num) (by omega)
      exact .inr ⟨hlt.ne, by nlinarith⟩
  have hzero : fraction = 0 → fraction * 10 ^ (8 - digits) = 0 := by
    rintro rfl
    exact Nat.zero_mul _
  have hlow := Int.le_bmod (x := signed minus whole * 10 ^ 8 + fraction) (m := 2 ^ 64) (by norm_num)
  have hhigh := Int.bmod_lt (x := signed minus whole * 10 ^ 8 + fraction) (m := 2 ^ 64) (by norm_num)
  have hfits : -2 ^ 63 ≤ signed minus whole * 10 ^ 8 + fraction →
      signed minus whole * 10 ^ 8 + fraction < 2 ^ 63 →
        (signed minus whole * 10 ^ 8 + fraction).bmod (2 ^ 64) =
          signed minus whole * 10 ^ 8 + fraction :=
    fun h h' => Int.bmod_eq_of_le (by omega) (by omega)
  generalize (signed minus whole * 10 ^ 8 + fraction).bmod (2 ^ 64) = r at *
  generalize fraction * 10 ^ (8 - digits) = scaled at *
  cases minus <;>
    simp only [signed, if_true, if_false, reduceCtorEq, and_false, and_true, or_false] at * <;>
      omega

/-! ## Written amounts -/

/-- A decimal number: a minus sign or none, digits, a dot, and any number of digits behind it. -/
structure DecimalText where
  minus : Bool
  whole : Text
  fraction : Text
  whole_ne : whole ≠ []
  whole_digits : ∀ c ∈ whole, c.isDigit = true
  fraction_digits : ∀ c ∈ fraction, c.isDigit = true

namespace DecimalText

variable (t : DecimalText)

/-- The digits in front of the dot, as a number. -/
def wholeValue : Nat := ofDigitChars 10 t.whole 0

/-- The digits behind the dot, as a number. -/
def fractionValue : Nat := ofDigitChars 10 t.fraction 0

/-- The number as it is written. -/
def amountText : Text := signText t.minus ++ t.whole ++ '.' :: t.fraction

/-- The text of an asset. -/
def text : Text := t.amountText ++ ", NEWT".toList

theorem mem_amountText {c : Char} (h : c ∈ t.amountText) : c = '-' ∨ c = '.' ∨ c.isDigit = true := by
  rw [amountText, List.append_assoc, List.mem_append, List.mem_append, List.mem_cons] at h
  rcases h with h | h | h | h
  · cases hm : t.minus <;> simp [signText, hm] at h
    exact .inl h
  · exact .inr (.inr (t.whole_digits c h))
  · exact .inr (.inl h)
  · exact .inr (.inr (t.fraction_digits c h))

theorem isSpace_of_mem {c : Char} (h : c ∈ t.amountText) : isSpace c = false := by
  rcases t.mem_amountText h with rfl | rfl | h
  · decide
  · decide
  · exact isSpace_of_isDigit h

theorem amountText_ne_nil : t.amountText ≠ [] := by
  simp [amountText]

theorem trim_text : trim t.text = t.text := by
  refine trim_eq_self (fun c hc => ?_) fun c hc => ?_
  · rw [text, List.head?_append_of_ne_nil _ t.amountText_ne_nil] at hc
    exact t.isSpace_of_mem (List.mem_of_mem_head? hc)
  · rw [text, List.getLast?_append] at hc
    obtain rfl : 'T' = c := by simpa using hc
    decide

/-- **What `from_string` computes** from a written amount: both sides of the dot are read as
numbers, and the whole units are scaled. -/
theorem fromText_text : Asset.fromText t.text = (do
    let intPart ← toInt64 (signText t.minus ++ t.whole)
    let fractPart ← toInt64 t.fraction
    .ok { amount := (intPart.toUInt64 * symbolPrecision newsSymbol).toInt64 + fractPart }) := by
  have hcomma : t.text.find ',' = some t.amountText.length :=
    find_append fun h => by
      rcases t.mem_amountText h with h | h | h
      · cases h
      · cases h
      · revert h
        decide
  have hdot : t.amountText.find '.' = some (signText t.minus ++ t.whole).length :=
    find_append fun h => by
      rcases List.mem_append.mp h with h | h
      · cases hm : t.minus <;> simp [signText, hm] at h
      · have := t.whole_digits _ h
        revert this
        decide
  have hfront : t.text.take t.amountText.length = t.amountText := by simp [text]
  have hback : t.text.drop t.amountText.length = ", NEWT".toList := by simp [text]
  have hwhole : t.amountText.take (signText t.minus ++ t.whole).length =
      signText t.minus ++ t.whole := by
    rw [amountText, List.take_left]
  have hfraction : t.amountText.drop ((signText t.minus ++ t.whole).length + 1) = t.fraction := by
    rw [amountText, ← List.drop_drop, List.drop_left]
    rfl
  have hsymbol : symbolFromText
      (((trim ", NEWT".toList).drop 1).dropWhile (· == ' ')) = .ok newsSymbol := by decide
  unfold Asset.fromText
  simp only [t.trim_text, hcomma, hfront, hback, trim_of_noSpace fun c => t.isSpace_of_mem, hdot,
    hsymbol, hwhole, hfraction, ok_bind]

/-- Both sides of the dot are numbers `to_int64` reads. -/
def Readable : Prop :=
  (-2 ^ 63 ≤ signed t.minus t.wholeValue ∧ signed t.minus t.wholeValue < 2 ^ 63) ∧
    t.fraction ≠ [] ∧ t.fractionValue < 2 ^ 63

instance : Decidable t.Readable := inferInstanceAs (Decidable (_ ∧ _))

/-- The sum `from_string` makes of the two numbers. -/
def units : Int := signed t.minus t.wholeValue * 10 ^ 8 + t.fractionValue

theorem fromText_of_readable (h : t.Readable) :
    Asset.fromText t.text = .ok { amount := .ofInt t.units } := by
  obtain ⟨hwhole, hne, hfraction⟩ := h
  have hfirst := toInt64_eq t.minus t.whole_ne t.whole_digits
  have hsecond := toInt64_eq false hne t.fraction_digits
  rw [wholeValue] at hwhole
  rw [fractionValue] at hfraction
  rw [if_pos hwhole] at hfirst
  rw [if_pos (by simp only [signed, Bool.false_eq_true, if_false]; omega)] at hsecond
  rw [t.fromText_text, hfirst, show t.fraction = signText false ++ t.fraction from rfl, hsecond,
    ok_bind, ok_bind, UInt64.toInt64_mul, Int64.toInt64_toUInt64,
    show (symbolPrecision newsSymbol).toInt64 = .ofInt (10 ^ 8) by decide, ← Int64.ofInt_mul,
    ← Int64.ofInt_add]
  rfl

theorem fromText_of_not_readable (h : ¬ t.Readable) (a : Asset) :
    Asset.fromText t.text ≠ .ok a := by
  intro hok
  rw [t.fromText_text] at hok
  obtain ⟨i, hi, hok⟩ := except_bind_eq_ok.mp hok
  obtain ⟨f, hf, -⟩ := except_bind_eq_ok.mp hok
  rw [toInt64_eq t.minus t.whole_ne t.whole_digits] at hi
  refine h ⟨?_, ?_, ?_⟩
  · by_contra hwhole
    rw [wholeValue] at hwhole
    rw [if_neg hwhole] at hi
    cases hi
  · rintro hnil
    rw [hnil] at hf
    cases hf
  · by_contra hlarge
    by_cases hnil : t.fraction = []
    · rw [hnil] at hf
      cases hf
    · rw [show t.fraction = signText false ++ t.fraction from rfl,
        toInt64_eq false hnil t.fraction_digits, if_neg] at hf
      · cases hf
      · rw [fractionValue] at hlarge
        simp only [signed, Bool.false_eq_true, if_false]
        omega

/-- What a result has to be for the text: none, or the asset of exactly 10^8 times the written
number, of which no digit is below the smallest unit. -/
def Denotes (r : Except Exc Asset) : Prop :=
  ∀ a, r = .ok a → t.fraction.length ≤ 8 ∧ a.symbol = newsSymbol ∧
    a.amount.toInt * 10 ^ t.fraction.length =
      signed t.minus (t.wholeValue * 10 ^ t.fraction.length + t.fractionValue) * 10 ^ 8

/-- The written number in units, when it has up to eight digits behind the dot. -/
theorem exact_iff {amount : Int} (h : t.fraction.length ≤ 8) :
    amount * 10 ^ t.fraction.length =
        signed t.minus (t.wholeValue * 10 ^ t.fraction.length + t.fractionValue) * 10 ^ 8 ↔
      amount = signed t.minus
        (t.wholeValue * 10 ^ 8 + t.fractionValue * 10 ^ (8 - t.fraction.length)) := by
  obtain ⟨k, hk⟩ := Nat.exists_eq_add_of_le h
  have hpow : (10 : Int) ^ 8 = 10 ^ t.fraction.length * 10 ^ k := by rw [← pow_add, ← hk]
  have hpos : (10 : Int) ^ t.fraction.length ≠ 0 := by positivity
  have hsub : 8 - t.fraction.length = k := by omega
  have hsigned : signed t.minus (t.wholeValue * 10 ^ t.fraction.length + t.fractionValue) * 10 ^ 8 =
      signed t.minus (t.wholeValue * 10 ^ 8 + t.fractionValue * 10 ^ k) *
        10 ^ t.fraction.length := by
    unfold signed
    split <;> simp only [Nat.cast_add, Nat.cast_mul, Nat.cast_pow, Nat.cast_ofNat] <;> rw [hpow] <;>
      ring
  rw [hsub, hsigned]
  exact mul_left_inj' hpos

/-- **When `from_string` denotes what is written**: it throws, because a side of the dot is no
64-bit number; or there are at most eight digits behind the dot and they are all zero, or are eight
with no minus sign in front, and the sum of the parts fits. -/
theorem fromText_denotes_iff :
    t.Denotes (Asset.fromText t.text) ↔ ¬ t.Readable ∨
      (t.fraction.length ≤ 8 ∧
        (t.fractionValue = 0 ∨ t.fraction.length = 8 ∧ t.minus = false) ∧
        -2 ^ 63 ≤ t.units ∧ t.units < 2 ^ 63) := by
  by_cases hread : t.Readable
  · have hrun := t.fromText_of_readable hread
    have hdenotes : t.Denotes (Asset.fromText t.text) ↔ t.fraction.length ≤ 8 ∧
        t.units.bmod (2 ^ 64) = signed t.minus
          (t.wholeValue * 10 ^ 8 + t.fractionValue * 10 ^ (8 - t.fraction.length)) := by
      rw [Denotes, hrun]
      constructor
      · intro h
        obtain ⟨hlength, -, hexact⟩ := h _ rfl
        rw [t.exact_iff hlength, Int64.toInt_ofInt] at hexact
        exact ⟨hlength, hexact⟩
      · rintro ⟨hlength, hexact⟩ a ha
        cases ha
        refine ⟨hlength, rfl, ?_⟩
        rw [t.exact_iff hlength, Int64.toInt_ofInt]
        exact hexact
    rw [hdenotes, or_iff_right (not_not.mpr hread)]
    refine and_congr_right fun hlength => ?_
    exact wraps_to_exact hlength hread.2.2
  · refine iff_of_true (fun a ha => absurd ha (t.fromText_of_not_readable hread a)) (.inl hread)

/-- One and a half is read as one and five of the smallest units. -/
theorem fromText_oneAndAHalf :
    Asset.fromText "1.5, NEWT".toList = .ok { amount := 100000005 } ∧
      ¬ ∀ t : DecimalText, t.Denotes (Asset.fromText t.text) := by
  refine ⟨by decide +kernel, fun h => ?_⟩
  let t : DecimalText := ⟨false, ['1'], ['5'], by decide, by simp, by simp⟩
  have hwrong : ¬ t.Denotes (Asset.fromText t.text) := by
    rw [show Asset.fromText t.text = .ok { amount := 100000005 } by decide +kernel]
    intro hdenotes
    have := (hdenotes _ rfl).2.2
    revert this
    decide
  exact hwrong (h t)

end DecimalText

/-! ## Printed amounts -/

/-- Digits stand for a number below the power of ten of their count. -/
theorem ofDigitChars_lt {ds : Text} (h : ∀ c ∈ ds, c.isDigit = true) :
    ofDigitChars 10 ds 0 < 10 ^ ds.length := by
  induction ds with
  | nil => simp
  | cons c ds ih =>
    have hrest := ih fun c hc => h c (.tail _ hc)
    have hdigit : c.toNat - '0'.toNat ≤ 9 := by
      have := h c (.head _)
      simp only [Char.isDigit, Bool.and_eq_true, decide_eq_true_eq] at this
      have h9 : c.toNat ≤ 57 := this.2
      have h0 : '0'.toNat = 48 := rfl
      omega
    rw [Nat.ofDigitChars_cons, Nat.ofDigitChars_eq_ofDigitChars_zero, List.length_cons, pow_succ]
    nlinarith

/-- Printed under a leading one, a number below a power of ten has as many digits as its power. -/
theorem drop_toDigits {f : Nat} (hf : f < 10 ^ 8) :
    ((toDigits 10 (10 ^ 8 + f)).drop 1).length = 8 ∧
      ofDigitChars 10 ((toDigits 10 (10 ^ 8 + f)).drop 1) 0 = f := by
  have hvalue := Nat.ofDigitChars_ten_toDigits (n := 10 ^ 8 + f)
  have hdigits : ∀ c ∈ toDigits 10 (10 ^ 8 + f), c.isDigit = true :=
    fun c hc => Nat.isDigit_of_mem_toDigits (by norm_num) (by norm_num) hc
  have hupper : (toDigits 10 (10 ^ 8 + f)).length ≤ 9 :=
    (Nat.length_toDigits_le_iff (by norm_num) (by norm_num)).mpr (by omega)
  have hlower : ¬ (toDigits 10 (10 ^ 8 + f)).length ≤ 8 := fun h => by
    have := (Nat.length_toDigits_le_iff (by norm_num) (by norm_num)).mp h
    omega
  generalize toDigits 10 (10 ^ 8 + f) = ds at *
  cases ds with
  | nil => simp at hlower
  | cons c ds =>
    have hlength : ds.length = 8 := by
      simp only [List.length_cons] at hupper hlower
      omega
    have hrest := ofDigitChars_lt fun c hc => hdigits c (.tail _ hc)
    rw [Nat.ofDigitChars_cons, Nat.ofDigitChars_eq_ofDigitChars_zero, hlength] at hvalue
    rw [hlength] at hrest
    refine ⟨hlength, ?_⟩
    -- the leading digit can only be the one
    have hone : 10 * 0 + (c.toNat - '0'.toNat) = 1 := by nlinarith
    rw [hone] at hvalue
    simpa using hvalue

/-- What `to_string` prints for an amount. -/
def printed (amount : Int64) : DecimalText where
  minus := false
  whole := toDigits 10 (amount.toUInt64.toNat / 10 ^ 8)
  fraction := (toDigits 10 (10 ^ 8 + amount.toUInt64.toNat % 10 ^ 8)).drop 1
  whole_ne := Nat.toDigits_ne_nil
  whole_digits _ hc := Nat.isDigit_of_mem_toDigits (by norm_num) (by norm_num) hc
  fraction_digits _ hc :=
    Nat.isDigit_of_mem_toDigits (by norm_num) (by norm_num) (List.mem_of_mem_drop hc)

theorem toText_eq (amount : Int64) :
    ({ amount } : Asset).toText = .ok (printed amount).text := by
  have hprecision : symbolPrecision newsSymbol = 100000000 := by decide
  have hname : symbolName newsSymbol = "NEWT".toList := by decide
  have hdecimals : symbolDecimals newsSymbol = 8 := by decide
  have hwhole : (amount.toUInt64 / 100000000).toNat = amount.toUInt64.toNat / 10 ^ 8 :=
    UInt64.toNat_div _ _
  have hfraction : (100000000 + amount.toUInt64 % 100000000).toNat =
      10 ^ 8 + amount.toUInt64.toNat % 10 ^ 8 := by
    rw [UInt64.toNat_add, UInt64.toNat_mod]
    show (100000000 + amount.toUInt64.toNat % 100000000) % 2 ^ 64 = _
    omega
  unfold Asset.toText decimalText
  simp only [hprecision, hname, hdecimals, hwhole, hfraction]
  rw [if_neg (by decide), if_pos (by decide), List.append_assoc]
  rfl

/-- **What is printed is read back**, for every amount: both directions go through the unsigned
value. -/
theorem fromText_toText (amount : Int64) :
    ∃ text, ({ amount } : Asset).toText = .ok text ∧ Asset.fromText text = .ok { amount } := by
  have hu := amount.toUInt64.toNat_lt
  have hmod : amount.toUInt64.toNat % 10 ^ 8 < 10 ^ 8 := Nat.mod_lt _ (by norm_num)
  obtain ⟨hlength, hfraction⟩ := drop_toDigits hmod
  have hwhole : (printed amount).wholeValue = amount.toUInt64.toNat / 10 ^ 8 :=
    Nat.ofDigitChars_ten_toDigits
  have hvalue : (printed amount).fractionValue = amount.toUInt64.toNat % 10 ^ 8 := hfraction
  have hsigned : signed (printed amount).minus (printed amount).wholeValue =
      ((amount.toUInt64.toNat / 10 ^ 8 : Nat) : Int) := by
    rw [hwhole]
    rfl
  have hread : (printed amount).Readable := by
    refine ⟨?_, ?_, ?_⟩
    · rw [hsigned]
      omega
    · intro hnil
      have hnone : (printed amount).fraction.length = 8 := hlength
      rw [hnil] at hnone
      cases hnone
    · rw [hvalue]
      omega
  have hunits : (printed amount).units = amount.toUInt64.toNat := by
    rw [DecimalText.units, hsigned, hvalue]
    omega
  refine ⟨(printed amount).text, toText_eq amount, ?_⟩
  rw [(printed amount).fromText_of_readable hread, hunits, Int64.ofInt_eq_ofNat,
    ← UInt64.toInt64_ofNat', UInt64.ofNat_toNat, Int64.toInt64_toUInt64]

end NewsChain
