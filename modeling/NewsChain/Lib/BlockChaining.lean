import Mathlib.Algebra.Order.BigOperators.Group.List
import NewsChain.Lib.Codec

/-!
# Cipher block chaining

A block cipher works on blocks of one size. Chained, each block is mixed with the cipher text of the
one before, so that what is enciphered and what is deciphered are both runs over a stream: a chain is
kept between the calls, and it does not matter how the stream is cut into calls, as long as each gets
whole blocks (`update_append`).

A block of `k` bytes is a number of `8 * k` bits. What the cipher does with one is a parameter.
-/

namespace NewsChain

/-! ## Bytes and blocks -/

section Blocks

variable {k : Nat}

/-- A block, from its bytes. -/
def blockOfBytes (k : Nat) (bs : List UInt8) : BitVec (8 * k) := .ofNat _ (ofLeBytes bs)

/-- The bytes of a block. -/
def bytesOfBlock (b : BitVec (8 * k)) : List UInt8 := leBytes k b.toNat

/-- The first `n` blocks of some bytes. -/
def takeBlocks (k : Nat) : Nat → List UInt8 → List (BitVec (8 * k))
  | 0, _ => []
  | n + 1, bs => blockOfBytes k (bs.take k) :: takeBlocks k n (bs.drop k)

/-- The whole blocks of some bytes. -/
def blocksOf (k : Nat) (bs : List UInt8) : List (BitVec (8 * k)) := takeBlocks k (bs.length / k) bs

/-- The bytes of some blocks. -/
def bytesOf (l : List (BitVec (8 * k))) : List UInt8 := l.flatMap bytesOfBlock

@[simp] theorem length_bytesOfBlock (b : BitVec (8 * k)) : (bytesOfBlock b).length = k :=
  length_leBytes _ _

theorem toNat_lt_pow (b : BitVec (8 * k)) : b.toNat < 256 ^ k := by
  have h := b.isLt
  rwa [Nat.pow_mul] at h

theorem blockOfBytes_bytesOfBlock (b : BitVec (8 * k)) : blockOfBytes k (bytesOfBlock b) = b := by
  rw [blockOfBytes, bytesOfBlock, ofLeBytes_leBytes (toNat_lt_pow b), BitVec.ofNat_toNat,
    BitVec.setWidth_eq]

theorem bytesOfBlock_blockOfBytes {bs : List UInt8} (h : bs.length = k) :
    bytesOfBlock (blockOfBytes k bs) = bs := by
  subst h
  have hlt : ofLeBytes bs < 2 ^ (8 * bs.length) := by
    have h := ofLeBytes_lt bs
    rwa [Nat.pow_mul]
  rw [bytesOfBlock, blockOfBytes, BitVec.toNat_ofNat, Nat.mod_eq_of_lt hlt, leBytes_ofLeBytes]

@[simp] theorem bytesOf_nil : bytesOf ([] : List (BitVec (8 * k))) = [] := rfl

theorem bytesOf_cons (b : BitVec (8 * k)) (l : List (BitVec (8 * k))) :
    bytesOf (b :: l) = bytesOfBlock b ++ bytesOf l := rfl

theorem bytesOf_append (l l' : List (BitVec (8 * k))) :
    bytesOf (l ++ l') = bytesOf l ++ bytesOf l' := List.flatMap_append

@[simp] theorem length_bytesOf (l : List (BitVec (8 * k))) : (bytesOf l).length = k * l.length := by
  induction l with
  | nil => rfl
  | cons b l ih =>
    rw [bytesOf_cons, List.length_append, length_bytesOfBlock, ih, List.length_cons, Nat.mul_succ,
      Nat.add_comm]

theorem length_takeBlocks (n : Nat) (bs : List UInt8) : (takeBlocks k n bs).length = n := by
  induction n generalizing bs with
  | zero => rfl
  | succ n ih => rw [takeBlocks, List.length_cons, ih]

@[simp] theorem length_blocksOf (bs : List UInt8) : (blocksOf k bs).length = bs.length / k :=
  length_takeBlocks _ _

/-- Whole blocks are read off the front, whatever comes after. -/
theorem takeBlocks_bytesOf (l : List (BitVec (8 * k))) (w : List UInt8) :
    takeBlocks k l.length (bytesOf l ++ w) = l := by
  induction l with
  | nil => rfl
  | cons b l ih =>
    have hlen : (bytesOfBlock b).length = k := length_bytesOfBlock b
    rw [List.length_cons, takeBlocks, bytesOf_cons, List.append_assoc, List.take_left' hlen,
      List.drop_left' hlen, blockOfBytes_bytesOfBlock, ih]

theorem takeBlocks_append (m n : Nat) {bs cs : List UInt8} (h : bs.length = k * m) :
    takeBlocks k (m + n) (bs ++ cs) = takeBlocks k m bs ++ takeBlocks k n cs := by
  induction m generalizing bs with
  | zero =>
    obtain rfl := List.eq_nil_of_length_eq_zero h
    rw [Nat.zero_add]
    rfl
  | succ m ih =>
    have hk : k ≤ bs.length := by
      rw [h, Nat.mul_succ]
      exact Nat.le_add_left _ _
    rw [Nat.add_right_comm, takeBlocks, takeBlocks, List.cons_append,
      List.take_append_of_le_length hk, List.drop_append_of_le_length hk, ih]
    rw [List.length_drop, h, Nat.mul_succ, Nat.add_sub_cancel]

/-- A stream is cut at a block's end. -/
theorem blocksOf_append (hk : 0 < k) {bs : List UInt8} (h : k ∣ bs.length) (cs : List UInt8) :
    blocksOf k (bs ++ cs) = blocksOf k bs ++ blocksOf k cs := by
  obtain ⟨m, hm⟩ := h
  have hdiv : bs.length / k = m := by rw [hm, Nat.mul_div_cancel_left m hk]
  have hsum : (bs ++ cs).length / k = m + cs.length / k := by
    rw [List.length_append, hm, Nat.mul_add_div hk]
  rw [blocksOf, blocksOf, blocksOf, hsum, hdiv, takeBlocks_append m _ hm]

/-- Only the bytes of the blocks matter. -/
theorem takeBlocks_take (n : Nat) (bs : List UInt8) :
    takeBlocks k n (bs.take (k * n)) = takeBlocks k n bs := by
  induction n generalizing bs with
  | zero => rfl
  | succ n ih =>
    have hk : k ≤ k * (n + 1) := Nat.le_mul_of_pos_right k (Nat.succ_pos n)
    rw [takeBlocks, takeBlocks, List.take_take, Nat.min_eq_left hk, List.drop_take, Nat.mul_succ,
      Nat.add_sub_cancel, ih]

/-- What is not a whole block is left out. -/
theorem blocksOf_take (hk : 0 < k) (bs : List UInt8) :
    blocksOf k (bs.take (k * (bs.length / k))) = blocksOf k bs := by
  have hlen : (bs.take (k * (bs.length / k))).length = k * (bs.length / k) :=
    List.length_take_of_le (Nat.mul_div_le _ _)
  rw [blocksOf, hlen, Nat.mul_div_cancel_left _ hk, takeBlocks_take]
  rfl

theorem bytesOf_takeBlocks {n : Nat} {bs : List UInt8} (h : bs.length = k * n) :
    bytesOf (takeBlocks k n bs) = bs := by
  induction n generalizing bs with
  | zero => exact (List.eq_nil_of_length_eq_zero h).symm
  | succ n ih =>
    have hk : (bs.take k).length = k := by
      rw [List.length_take, h, Nat.mul_succ]
      exact Nat.min_eq_left (Nat.le_add_left _ _)
    have hrest : (bs.drop k).length = k * n := by
      rw [List.length_drop, h, Nat.mul_succ, Nat.add_sub_cancel]
    rw [takeBlocks, bytesOf_cons, bytesOfBlock_blockOfBytes hk, ih hrest, List.take_append_drop]

theorem bytesOf_blocksOf (hk : 0 < k) {bs : List UInt8} (h : k ∣ bs.length) :
    bytesOf (blocksOf k bs) = bs := by
  obtain ⟨m, hm⟩ := h
  rw [blocksOf, hm, Nat.mul_div_cancel_left m hk]
  exact bytesOf_takeBlocks hm

theorem blocksOf_bytesOf (hk : 0 < k) (l : List (BitVec (8 * k))) : blocksOf k (bytesOf l) = l := by
  have h := takeBlocks_bytesOf l []
  rw [List.append_nil] at h
  rw [blocksOf, length_bytesOf, Nat.mul_div_cancel_left _ hk, h]

end Blocks

/-! ## Chains -/

section Chains

variable {w : Nat}

/-- Each block is mixed with the one put out before it, then enciphered. Answers what is put out and
the block that the next one is mixed with. -/
def encipherChain (encipher : BitVec w → BitVec w) :
    BitVec w → List (BitVec w) → List (BitVec w) × BitVec w
  | c, [] => ([], c)
  | c, p :: ps =>
    let r := encipherChain encipher (encipher (p ^^^ c)) ps
    (encipher (p ^^^ c) :: r.1, r.2)

/-- Each block is deciphered, then mixed with the one that came before it. -/
def decipherChain (decipher : BitVec w → BitVec w) :
    BitVec w → List (BitVec w) → List (BitVec w) × BitVec w
  | c, [] => ([], c)
  | c, x :: xs =>
    let r := decipherChain decipher x xs
    ((decipher x ^^^ c) :: r.1, r.2)

variable {encipher decipher : BitVec w → BitVec w}

theorem encipherChain_append (c : BitVec w) (ps qs : List (BitVec w)) :
    encipherChain encipher c (ps ++ qs) =
      ((encipherChain encipher c ps).1 ++
          (encipherChain encipher (encipherChain encipher c ps).2 qs).1,
        (encipherChain encipher (encipherChain encipher c ps).2 qs).2) := by
  induction ps generalizing c with
  | nil => rfl
  | cons p ps ih => simp only [List.cons_append, encipherChain, ih]

theorem decipherChain_append (c : BitVec w) (xs ys : List (BitVec w)) :
    decipherChain decipher c (xs ++ ys) =
      ((decipherChain decipher c xs).1 ++
          (decipherChain decipher (decipherChain decipher c xs).2 ys).1,
        (decipherChain decipher (decipherChain decipher c xs).2 ys).2) := by
  induction xs generalizing c with
  | nil => rfl
  | cons x xs ih => simp only [List.cons_append, decipherChain, ih]

theorem length_encipherChain (c : BitVec w) (ps : List (BitVec w)) :
    (encipherChain encipher c ps).1.length = ps.length := by
  induction ps generalizing c with
  | nil => rfl
  | cons p ps ih => simp only [encipherChain, List.length_cons, ih]

theorem length_decipherChain (c : BitVec w) (xs : List (BitVec w)) :
    (decipherChain decipher c xs).1.length = xs.length := by
  induction xs generalizing c with
  | nil => rfl
  | cons x xs ih => simp only [decipherChain, List.length_cons, ih]

/-- The two ends of a chain keep in step. -/
theorem decipherChain_encipherChain (h : ∀ b, decipher (encipher b) = b) (c : BitVec w)
    (ps : List (BitVec w)) :
    decipherChain decipher c (encipherChain encipher c ps).1 =
      (ps, (encipherChain encipher c ps).2) := by
  induction ps generalizing c with
  | nil => rfl
  | cons p ps ih =>
    have hmix : p ^^^ c ^^^ c = p := by rw [BitVec.xor_assoc, BitVec.xor_self, BitVec.xor_zero]
    simp only [encipherChain, decipherChain, h, hmix, ih]

end Chains

/-! ## Streams -/

section Streams

variable {k : Nat}

/-- A chain over bytes: `step` is one of the two chains. What is not a whole block is left out. -/
def updateBytes (step : BitVec (8 * k) → List (BitVec (8 * k)) → List (BitVec (8 * k)) × BitVec (8 * k))
    (c : BitVec (8 * k)) (bs : List UInt8) : List UInt8 × BitVec (8 * k) :=
  (bytesOf (step c (blocksOf k bs)).1, (step c (blocksOf k bs)).2)

/-- The cipher text of some bytes, and the block that the next ones are mixed with. -/
def encipherBytes (encipher : BitVec (8 * k) → BitVec (8 * k)) :=
  updateBytes (encipherChain encipher)

/-- The plain text of some bytes, and the block that the next ones are mixed with. -/
def decipherBytes (decipher : BitVec (8 * k) → BitVec (8 * k)) :=
  updateBytes (decipherChain decipher)

variable {encipher decipher : BitVec (8 * k) → BitVec (8 * k)} {c : BitVec (8 * k)}

theorem length_encipherBytes (bs : List UInt8) :
    (encipherBytes encipher c bs).1.length = k * (bs.length / k) := by
  simp only [encipherBytes, updateBytes, length_bytesOf, length_encipherChain, length_blocksOf]

theorem length_decipherBytes (bs : List UInt8) :
    (decipherBytes decipher c bs).1.length = k * (bs.length / k) := by
  simp only [decipherBytes, updateBytes, length_bytesOf, length_decipherChain, length_blocksOf]

/-- It does not matter how a stream is cut, at the ends of blocks, into calls. -/
theorem encipherBytes_append (hk : 0 < k) {bs : List UInt8} (h : k ∣ bs.length) (cs : List UInt8) :
    encipherBytes encipher c (bs ++ cs) =
      ((encipherBytes encipher c bs).1 ++
          (encipherBytes encipher (encipherBytes encipher c bs).2 cs).1,
        (encipherBytes encipher (encipherBytes encipher c bs).2 cs).2) := by
  simp only [encipherBytes, updateBytes, blocksOf_append hk h, encipherChain_append, bytesOf_append]

theorem decipherBytes_append (hk : 0 < k) {bs : List UInt8} (h : k ∣ bs.length) (cs : List UInt8) :
    decipherBytes decipher c (bs ++ cs) =
      ((decipherBytes decipher c bs).1 ++
          (decipherBytes decipher (decipherBytes decipher c bs).2 cs).1,
        (decipherBytes decipher (decipherBytes decipher c bs).2 cs).2) := by
  simp only [decipherBytes, updateBytes, blocksOf_append hk h, decipherChain_append, bytesOf_append]

theorem encipherBytes_nil : encipherBytes encipher c [] = ([], c) := by
  simp only [encipherBytes, updateBytes, blocksOf, List.length_nil, Nat.zero_div, takeBlocks,
    encipherChain, bytesOf_nil]

/-- **What is enciphered is deciphered**, at the end that started from the same block. -/
theorem decipherBytes_encipherBytes (hk : 0 < k) (h : ∀ b, decipher (encipher b) = b)
    {bs : List UInt8} (hbs : k ∣ bs.length) :
    decipherBytes decipher c (encipherBytes encipher c bs).1 =
      (bs, (encipherBytes encipher c bs).2) := by
  simp only [decipherBytes, encipherBytes, updateBytes, blocksOf_bytesOf hk,
    decipherChain_encipherChain h, bytesOf_blocksOf hk hbs]

/-- A whole number of blocks of the cipher text is the cipher text of so many blocks. -/
theorem take_encipherBytes (hk : 0 < k) (n : Nat) (bs : List UInt8) :
    (encipherBytes encipher c bs).1.take (k * n) = (encipherBytes encipher c (bs.take (k * n))).1 := by
  by_cases hn : k * n ≤ bs.length
  · have hcut : (bs.take (k * n)).length = k * n := List.length_take_of_le hn
    have hdvd : k ∣ (bs.take (k * n)).length := by
      rw [hcut]
      exact Nat.dvd_mul_right k n
    have hlen : (encipherBytes encipher c (bs.take (k * n))).1.length = k * n := by
      rw [length_encipherBytes, hcut, Nat.mul_div_cancel_left n hk]
    have happend := @encipherBytes_append k encipher c hk _ hdvd (bs.drop (k * n))
    rw [List.take_append_drop] at happend
    rw [happend, List.take_left' hlen]
  · have hle : bs.length ≤ k * n := by omega
    rw [List.take_of_length_le hle, List.take_of_length_le]
    rw [length_encipherBytes]
    exact Nat.le_trans (Nat.mul_div_le _ _) hle

/-- Of the cipher text that has come so far, the whole blocks give the plain text so far. -/
theorem decipherBytes_prefix (hk : 0 < k) (h : ∀ b, decipher (encipher b) = b) {bs cs : List UInt8}
    (hbs : k ∣ bs.length) (hcs : cs <+: (encipherBytes encipher c bs).1) :
    (decipherBytes decipher c cs).1 = bs.take (k * (cs.length / k)) := by
  have hle := hcs.length_le
  rw [length_encipherBytes, Nat.mul_div_cancel' hbs] at hle
  have hcut : k * (cs.length / k) ≤ bs.length := Nat.le_trans (Nat.mul_div_le _ _) hle
  have hwhole : cs.take (k * (cs.length / k)) =
      (encipherBytes encipher c (bs.take (k * (cs.length / k)))).1 := by
    rw [← take_encipherBytes hk, List.prefix_iff_eq_take.mp hcs, List.take_take, List.length_take]
    congr 1
    rw [length_encipherBytes, Nat.mul_div_cancel' hbs, Nat.min_eq_left hle]
    exact Nat.min_eq_left (Nat.mul_div_le _ _)
  have hdvd : k ∣ (bs.take (k * (cs.length / k))).length := by
    rw [List.length_take_of_le hcut]
    exact Nat.dvd_mul_right _ _
  have hsame : decipherBytes decipher c cs =
      decipherBytes decipher c (cs.take (k * (cs.length / k))) := by
    simp only [decipherBytes, updateBytes, blocksOf_take hk]
  rw [hsame, hwhole, decipherBytes_encipherBytes hk h hdvd]

end Streams

end NewsChain
