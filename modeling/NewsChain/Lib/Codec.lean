import Mathlib.Algebra.Order.BigOperators.Group.List
import Mathlib.Tactic.Ring
import NewsChain.Lib.Outcome

/-!
# Decoding bytes

A decoder is a program over the bytes that are left. `Decodes bs m a` says that `m` reads exactly
`bs` off the front and answers `a`, whatever comes after. The relation is composed as decoders are,
so a format is verified by going through its fields.

The encodings here are the usual building blocks: fixed-width little-endian numbers, numbers in
base 128 with a continuation bit, and counted sequences.
-/

namespace NewsChain

variable {ε α β : Type}

/-- A program over the bytes that are left. -/
abbrev Decoder (ε : Type) := EStateM ε (List UInt8)

/-- `m` reads exactly `bs` and answers `a`. -/
def Decodes (bs : List UInt8) (m : Decoder ε α) (a : α) : Prop :=
  ∀ w, m.run (bs ++ w) = .ok a w

namespace Decodes

variable {bs cs : List UInt8} {m : Decoder ε α} {a : α} {b : β}

theorem pure (a : α) : Decodes [] (pure a : Decoder ε α) a := fun _ => rfl

theorem bind {f : α → Decoder ε β} (hm : Decodes bs m a) (hf : Decodes cs (f a) b) :
    Decodes (bs ++ cs) (m >>= f) b := fun w =>
  bind_eq_ok.mpr ⟨a, cs ++ w, by rw [List.append_assoc, hm], hf w⟩

/-- The last step of a decoder: the answer is made of what was read. -/
theorem bind_pure {f : α → β} (hm : Decodes bs m a) :
    Decodes bs (m >>= fun x => Pure.pure (f x)) (f a) := by
  have h := hm.bind (f := fun x => Pure.pure (f x)) (Decodes.pure (f a))
  rwa [List.append_nil] at h

/-- Where two encodings of a format are followed by anything, the values are the same. -/
theorem unique {a' : α} {w w' : List UInt8} (h : Decodes bs m a) (h' : Decodes cs m a')
    (heq : bs ++ w = cs ++ w') : a = a' ∧ w = w' := by
  have hrun := h w
  rw [heq, h' w'] at hrun
  cases hrun
  exact ⟨rfl, rfl⟩

end Decodes

/-! ## Single bytes and blocks of bytes -/

/-- The next `n` bytes; nothing is read where there are fewer. -/
def readBytes (e : ε) (n : Nat) : Decoder ε (List UInt8) := fun s =>
  if n ≤ s.length then .ok (s.take n) (s.drop n) else .error e s

theorem decodes_readBytes (e : ε) (bs : List UInt8) : Decodes bs (readBytes e bs.length) bs := by
  intro w
  show readBytes e bs.length (bs ++ w) = _
  simp [readBytes]

theorem readBytes_eq_ok {e : ε} {n : Nat} {s bs w : List UInt8} :
    (readBytes e n).run s = .ok bs w ↔ s = bs ++ w ∧ bs.length = n := by
  constructor
  · intro h
    change (if n ≤ s.length then _ else _) = _ at h
    split at h
    · rename_i hle
      cases h
      exact ⟨(List.take_append_drop n s).symm, by rw [List.length_take, Nat.min_eq_left hle]⟩
    · cases h
  · rintro ⟨rfl, rfl⟩
    exact decodes_readBytes e bs w

/-! ## Little-endian numbers -/

/-- The last `n` bytes of a number, lowest first. -/
def leBytes : Nat → Nat → List UInt8
  | 0, _ => []
  | n + 1, v => UInt8.ofNat v :: leBytes n (v / 256)

/-- The number of some bytes, lowest first. -/
def ofLeBytes : List UInt8 → Nat
  | [] => 0
  | b :: bs => b.toNat + 256 * ofLeBytes bs

@[simp] theorem length_leBytes (n v : Nat) : (leBytes n v).length = n := by
  induction n generalizing v with
  | zero => rfl
  | succ n ih => simp [leBytes, ih]

theorem ofLeBytes_leBytes {n v : Nat} (h : v < 256 ^ n) : ofLeBytes (leBytes n v) = v := by
  induction n generalizing v with
  | zero =>
    have hzero : v = 0 := by simpa using h
    rw [hzero]
    rfl
  | succ n ih =>
    have hdiv : v / 256 < 256 ^ n := by
      rw [Nat.pow_succ, Nat.mul_comm] at h
      exact Nat.div_lt_of_lt_mul h
    simp only [leBytes, ofLeBytes, UInt8.toNat_ofNat', ih hdiv]
    omega

theorem ofLeBytes_lt (bs : List UInt8) : ofLeBytes bs < 256 ^ bs.length := by
  induction bs with
  | nil => decide
  | cons b bs ih =>
    have := b.toNat_lt
    rw [ofLeBytes, List.length_cons, Nat.pow_succ]
    omega

theorem leBytes_ofLeBytes (bs : List UInt8) : leBytes bs.length (ofLeBytes bs) = bs := by
  induction bs with
  | nil => rfl
  | cons b bs ih =>
    have hdiv : ofLeBytes (b :: bs) / 256 = ofLeBytes bs := by
      have := b.toNat_lt
      rw [ofLeBytes]
      omega
    have hlow : UInt8.ofNat (ofLeBytes (b :: bs)) = b := by
      apply UInt8.toNat_inj.mp
      have := b.toNat_lt
      rw [UInt8.toNat_ofNat', ofLeBytes]
      omega
    rw [List.length_cons, leBytes, hdiv, hlow, ih]

/-- A number of `n` bytes. -/
def readLe (e : ε) (n : Nat) : Decoder ε Nat := do
  let bs ← readBytes e n
  pure (ofLeBytes bs)

theorem decodes_readLe (e : ε) {n v : Nat} (h : v < 256 ^ n) :
    Decodes (leBytes n v) (readLe e n) v := by
  have hread := decodes_readBytes e (leBytes n v)
  rw [length_leBytes] at hread
  have h' := hread.bind_pure (f := ofLeBytes)
  rwa [ofLeBytes_leBytes h] at h'

/-! ## Numbers in base 128 -/

/-- Seven bits a byte, lowest first; the highest bit says that more follow. -/
def varintBytes : Nat → Nat → List UInt8
  | 0, n => [UInt8.ofNat n]
  | fuel + 1, n =>
    if n < 128 then [UInt8.ofNat n]
    else UInt8.ofNat (n % 128 + 128) :: varintBytes fuel (n / 128)

/-- The loop that reads such a number into a word of `width` bits: `v` is what the bytes so far
add up to, and the next seven bits go to `shift`. A shift by the whole width has no meaning. -/
def readVarintFrom (width : Nat) (tooShort tooLong : ε) :
    List UInt8 → Nat → Nat → EStateM.Result ε (List UInt8) Nat
  | [], _, _ => .error tooShort []
  | b :: bs, shift, v =>
    if width ≤ shift then .error tooLong bs
    else
      let v' := v ||| ((b.toNat % 128) <<< shift) % 2 ^ width
      if b < 128 then .ok v' bs else readVarintFrom width tooShort tooLong bs (shift + 7) v'

def readVarint (width : Nat) (tooShort tooLong : ε) : Decoder ε Nat := fun s =>
  readVarintFrom width tooShort tooLong s 0 0

theorem length_varintBytes_pos (fuel n : Nat) : 0 < (varintBytes fuel n).length := by
  cases fuel with
  | zero => simp [varintBytes]
  | succ fuel => simp only [varintBytes]; split <;> simp

section Varint

variable {width : Nat} {tooShort tooLong : ε}

/-- The bits that are read go above those that were. -/
theorem or_shifted {n shift v : Nat} (hv : v < 2 ^ shift) (hn : n * 2 ^ shift < 2 ^ width) :
    v ||| (n <<< shift) % 2 ^ width = v + n * 2 ^ shift := by
  rw [Nat.shiftLeft_eq, Nat.mod_eq_of_lt hn, Nat.mul_comm, Nat.or_comm,
    ← Nat.two_pow_add_eq_or_of_lt hv, Nat.add_comm]

theorem readVarintFrom_varintBytes {fuel n shift v : Nat} (w : List UInt8)
    (hn : n < 128 ^ (fuel + 1)) (hv : v < 2 ^ shift) (hwidth : n * 2 ^ shift < 2 ^ width)
    (hshift : shift + 7 * fuel < width) :
    readVarintFrom width tooShort tooLong (varintBytes fuel n ++ w) shift v =
      .ok (v + n * 2 ^ shift) w := by
  -- A last byte: below 128, it is the number.
  have hlast : ∀ {n shift v : Nat}, n < 128 → v < 2 ^ shift → n * 2 ^ shift < 2 ^ width →
      shift < width → readVarintFrom width tooShort tooLong (UInt8.ofNat n :: w) shift v =
        .ok (v + n * 2 ^ shift) w := by
    intro n shift v hn hv hwidth hshift
    have hbyte : (UInt8.ofNat n).toNat = n := by
      rw [UInt8.toNat_ofNat']
      omega
    have hlt : UInt8.ofNat n < 128 := by
      rw [UInt8.lt_iff_toNat_lt, hbyte]
      exact hn
    simp only [readVarintFrom, if_neg (Nat.not_le.mpr hshift), hbyte, Nat.mod_eq_of_lt hn,
      if_pos hlt, or_shifted hv hwidth]
  induction fuel generalizing n shift v with
  | zero => exact hlast (by simpa using hn) hv hwidth (by omega)
  | succ fuel ih =>
    simp only [varintBytes]
    split
    · exact hlast ‹_› hv hwidth (by omega)
    · have hbyte : (UInt8.ofNat (n % 128 + 128)).toNat = n % 128 + 128 := by
        rw [UInt8.toNat_ofNat']
        omega
      have hmore : ¬ UInt8.ofNat (n % 128 + 128) < 128 := by
        rw [UInt8.lt_iff_toNat_lt, hbyte]
        show ¬ _ < 128
        omega
      have hpow : 2 ^ (shift + 7) = 2 ^ shift * 128 := by rw [Nat.pow_add]
      have hdiv : n / 128 < 128 ^ (fuel + 1) := by
        rw [Nat.pow_succ, Nat.mul_comm] at hn
        exact Nat.div_lt_of_lt_mul hn
      have hsum : n % 128 * 2 ^ shift + n / 128 * 2 ^ (shift + 7) = n * 2 ^ shift := by
        rw [hpow]
        calc n % 128 * 2 ^ shift + n / 128 * (2 ^ shift * 128)
            = (n % 128 + 128 * (n / 128)) * 2 ^ shift := by ring
          _ = n * 2 ^ shift := by rw [Nat.mod_add_div]
      have hlow : n % 128 * 2 ^ shift ≤ 127 * 2 ^ shift := Nat.mul_le_mul_right _ (by omega)
      rw [List.cons_append, readVarintFrom, if_neg (by omega), if_neg hmore, hbyte]
      rw [Nat.add_mod_right, Nat.mod_mod, or_shifted hv (by omega),
        ih hdiv (by omega) (by omega) (by omega)]
      congr 1
      omega

/-- A number of at most `width` bits is read back, where its bytes are not too many. -/
theorem decodes_varint {fuel n : Nat} (hn : n < 128 ^ (fuel + 1)) (hwidth : n < 2 ^ width)
    (hfuel : 7 * fuel < width) :
    Decodes (varintBytes fuel n) (readVarint width tooShort tooLong) n := by
  intro w
  have h : readVarintFrom width tooShort tooLong (varintBytes fuel n ++ w) 0 0 =
      .ok (0 + n * 2 ^ 0) w :=
    readVarintFrom_varintBytes w hn (by simp) (by simpa using hwidth) (by omega)
  simpa [readVarint, EStateM.run] using h

end Varint

/-! ## Counted sequences -/

/-- `n` values, one after the other. -/
def readMany (m : Decoder ε α) : Nat → Decoder ε (List α)
  | 0 => pure []
  | n + 1 => do
    let a ← m
    let as ← readMany m n
    pure (a :: as)

section Sequences

variable {enc : α → List UInt8} {m : Decoder ε α} {as : List α}

theorem decodes_readMany (h : ∀ a ∈ as, Decodes (enc a) m a) :
    Decodes (as.flatMap enc) (readMany m as.length) as := by
  induction as with
  | nil => exact .pure _
  | cons a as ih =>
    rw [List.flatMap_cons]
    exact (h a List.mem_cons_self).bind
      (ih fun b hb => h b (List.mem_cons_of_mem _ hb)).bind_pure

/-- Each encoding is a part of the sequence's. -/
theorem length_le_length_flatMap {a : α} (h : a ∈ as) :
    (enc a).length ≤ (as.flatMap enc).length := by
  rw [List.length_flatMap]
  exact List.le_sum_of_mem (List.mem_map_of_mem h)

/-- Where all encodings have one length, the later ones are found by counting. -/
theorem drop_flatMap {k : Nat} (h : ∀ a ∈ as, (enc a).length = k) (i : Nat) :
    (as.flatMap enc).drop (k * i) = (as.drop i).flatMap enc := by
  induction as generalizing i with
  | nil => simp
  | cons a as ih =>
    cases i with
    | zero => simp
    | succ i =>
      have ha := h a List.mem_cons_self
      rw [List.flatMap_cons, List.drop_succ_cons, ← ih (fun b hb => h b (List.mem_cons_of_mem _ hb)),
        List.drop_append, List.drop_eq_nil_of_le (by rw [ha, Nat.mul_succ]; omega), List.nil_append,
        ha, Nat.mul_succ, Nat.add_sub_cancel]

/-- A sequence of encodings of at least `k` bytes. -/
theorem length_mul_le_length_flatMap {k : Nat} (h : ∀ a ∈ as, k ≤ (enc a).length) :
    as.length * k ≤ (as.flatMap enc).length := by
  induction as with
  | nil => simp
  | cons a as ih =>
    have hrest := ih fun b hb => h b (List.mem_cons_of_mem _ hb)
    have ha := h a List.mem_cons_self
    simp only [List.flatMap_cons, List.length_append, List.length_cons, Nat.add_mul, Nat.one_mul]
    omega

end Sequences

end NewsChain
