import Mathlib.Data.List.TakeWhile
import Mathlib.Data.Nat.Digits.Lemmas

/-!
# Changing the radix of a digit string

A string of digits, the highest first, is its leading zeros and the digits of the number it stands
for (`leadingZeros_append_digits`). `recode` keeps the zeros and writes the number in another radix;
recoding back gives the string again (`recode_recode`).
-/

namespace NewsChain

variable {b c : Nat} {ds : List Nat}

/-- How many zeros a string of digits starts with. -/
def leadingZeros (ds : List Nat) : Nat := (ds.takeWhile (· == 0)).length

/-- The number a string of digits stands for. -/
def radixValue (b : Nat) (ds : List Nat) : Nat := Nat.ofDigits b ds.reverse

/-- A number of zeros and the digits of a number, the highest first. -/
def padded (b zeros n : Nat) : List Nat := List.replicate zeros 0 ++ (Nat.digits b n).reverse

/-- The leading zeros as they are, and the number in radix `c`. -/
def recode (b c : Nat) (ds : List Nat) : List Nat :=
  padded c (leadingZeros ds) (radixValue b ds)

theorem leadingZeros_append_digits (hb : 1 < b) (hds : ∀ d ∈ ds, d < b) :
    padded b (leadingZeros ds) (radixValue b ds) = ds := by
  have hzeros : ds.takeWhile (· == 0) = List.replicate (leadingZeros ds) 0 :=
    List.eq_replicate_iff.mpr ⟨rfl, fun d hd => by simpa using List.mem_takeWhile_imp hd⟩
  have hsplit : List.replicate (leadingZeros ds) 0 ++ ds.dropWhile (· == 0) = ds := by
    rw [← hzeros]
    exact List.takeWhile_append_dropWhile
  have hvalue : radixValue b ds = Nat.ofDigits b (ds.dropWhile (· == 0)).reverse := by
    conv_lhs => rw [← hsplit]
    rw [radixValue, List.reverse_append, List.reverse_replicate]
    exact Nat.ofDigits_append_replicate_zero _
  have hdigits : Nat.digits b (radixValue b ds) = (ds.dropWhile (· == 0)).reverse := by
    rw [hvalue]
    refine Nat.digits_ofDigits b hb _ (fun d hd => ?_) fun hne => ?_
    · exact hds d ((List.dropWhile_suffix _).subset (List.mem_reverse.mp hd))
    · -- the highest digit is the first that is not 0
      have hne' : ds.dropWhile (· == 0) ≠ [] := fun h => hne (by rw [h, List.reverse_nil])
      rw [List.getLast_reverse]
      simpa using List.head_dropWhile_not (· == 0) hne'
  rw [padded, hdigits, List.reverse_reverse, hsplit]

theorem leadingZeros_padded (zeros n : Nat) : leadingZeros (padded b zeros n) = zeros := by
  have hhead : (Nat.digits b n).reverse.takeWhile (· == 0) = [] := by
    cases hrev : (Nat.digits b n).reverse with
    | nil => rfl
    | cons d ds =>
      have hne : Nat.digits b n ≠ [] := fun h => by rw [h] at hrev; cases hrev
      have hn : n ≠ 0 := fun h => hne (by rw [h, Nat.digits_zero])
      have hlast := Nat.getLast_digit_ne_zero b hn
      have hd : (Nat.digits b n).getLast hne = d := by
        rw [← List.head_reverse (by rw [hrev]; exact List.cons_ne_nil _ _)]
        simp only [hrev, List.head_cons]
      rw [List.takeWhile_cons_of_neg (by simpa [hd] using hlast)]
  rw [leadingZeros, padded, List.takeWhile_append_of_pos (by simp), hhead, List.append_nil,
    List.length_replicate]

theorem radixValue_padded (zeros n : Nat) : radixValue b (padded b zeros n) = n := by
  rw [radixValue, padded, List.reverse_append, List.reverse_replicate, List.reverse_reverse,
    Nat.ofDigits_append_replicate_zero, Nat.ofDigits_digits]

theorem padded_lt {zeros n d : Nat} (hb : 1 < b) (h : d ∈ padded b zeros n) : d < b := by
  rcases List.mem_append.mp h with h | h
  · rw [List.eq_of_mem_replicate h]
    omega
  · exact Nat.digits_lt_base hb (List.mem_reverse.mp h)

theorem recode_lt {d : Nat} (hc : 1 < c) (h : d ∈ recode b c ds) : d < c := padded_lt hc h

/-- Recoding back gives the string again. -/
theorem recode_recode (hb : 1 < b) (hds : ∀ d ∈ ds, d < b) : recode c b (recode b c ds) = ds := by
  rw [recode, recode, leadingZeros_padded, radixValue_padded]
  exact leadingZeros_append_digits hb hds

end NewsChain
