import Mathlib.Algebra.Ring.Int.Defs
import Mathlib.Data.List.Basic
import Mathlib.Data.List.Perm.Basic
import Mathlib.Tactic.Common

/-!
# Finite maps kept in key order

`IdMap V` is a finite map from natural numbers as the list of its rows in strictly ascending key
order. The order is part of the type, so the list is the map's only spelling: two maps with the
same lookups are equal (`IdMap.ext_get?`), equality is decidable wherever it is on `V`, and
iterating the rows is iterating the keys upwards.

The API is stated through `get?` alone. `fold_local` is the one fact about loops: a loop over the
rows whose body only touches the entry of the row it visits leaves every entry as the body
makes it.
-/

namespace NewsChain

variable {V : Type}

/-- A finite map from natural numbers, as its rows in ascending key order. -/
@[ext] structure IdMap (V : Type) where
  rows : List (Nat × V)
  sorted : rows.Pairwise (fun a b => a.1 < b.1)

instance [DecidableEq V] : DecidableEq (IdMap V) := fun a b =>
  decidable_of_iff (a.rows = b.rows) ⟨IdMap.ext, fun h => h ▸ rfl⟩

namespace IdMap

def empty : IdMap V := ⟨[], .nil⟩

instance : Inhabited (IdMap V) := ⟨empty⟩

/-- The value stored at one key. -/
def get? (m : IdMap V) (i : Nat) : Option V := (m.rows.find? (·.1 == i)).map (·.2)

/-- A row put at its place, over whatever stood there. -/
def insertRow (i : Nat) (v : V) : List (Nat × V) → List (Nat × V)
  | [] => [(i, v)]
  | r :: rs =>
    if i < r.1 then (i, v) :: r :: rs
    else if i = r.1 then (i, v) :: rs
    else r :: insertRow i v rs

/-! ## Lookup is membership -/

theorem get?_eq_some {m : IdMap V} {i : Nat} {v : V} : m.get? i = some v ↔ (i, v) ∈ m.rows := by
  obtain ⟨rows, sorted⟩ := m
  simp only [get?]
  induction rows with
  | nil => simp
  | cons r rs ih =>
    obtain ⟨hlt, hrs⟩ := List.pairwise_cons.mp sorted
    by_cases hr : r.1 = i
    · have hnot : (i, v) ∉ rs := fun hmem => by
        exact Nat.lt_irrefl i (by simpa only [hr] using hlt _ hmem)
      simp only [List.find?_cons, hr, beq_self_eq_true, Option.map_some, Option.some.injEq,
        List.mem_cons, hnot, or_false]
      exact ⟨fun h => by rw [← hr, ← h], fun h => by rw [← h]⟩
    · have hne : (i, v) ≠ r := fun h => hr (by rw [← h])
      simp only [List.find?_cons, beq_eq_false_iff_ne.mpr hr, List.mem_cons, hne, false_or]
      exact ih hrs

theorem get?_eq_none {m : IdMap V} {i : Nat} : m.get? i = none ↔ ∀ v, (i, v) ∉ m.rows := by
  constructor
  · intro h v hv
    rw [get?_eq_some.mpr hv] at h
    cases h
  · intro h
    cases hg : m.get? i with
    | none => rfl
    | some v => exact absurd (get?_eq_some.mp hg) (h v)

/-- Two maps with the same lookups have the same rows: the order leaves no other spelling. -/
theorem ext_get? {m m' : IdMap V} (h : ∀ i, m.get? i = m'.get? i) : m = m' := by
  have hmem : ∀ r, r ∈ m.rows ↔ r ∈ m'.rows := fun r => by
    rw [← get?_eq_some (m := m), ← get?_eq_some (m := m'), h]
  have hnodup : ∀ x : IdMap V, x.rows.Nodup := fun x =>
    x.sorted.imp fun hab heq => absurd (congrArg Prod.fst heq) (Nat.ne_of_lt hab)
  have hperm : m.rows.Perm m'.rows :=
    (List.perm_ext_iff_of_nodup (hnodup m) (hnodup m')).mpr hmem
  refine IdMap.ext (hperm.eq_of_pairwise ?_ m.sorted m'.sorted)
  intro a b _ _ hab hba
  exact absurd (Nat.lt_trans hab hba) (Nat.lt_irrefl _)

theorem rows_nodup_keys (m : IdMap V) : (m.rows.map (·.1)).Nodup :=
  List.pairwise_map.mpr (m.sorted.imp fun h => Nat.ne_of_lt h)

/-! ## Writing one key -/

theorem mem_insertRow {i : Nat} {v : V} {rows : List (Nat × V)}
    (sorted : rows.Pairwise (fun a b => a.1 < b.1)) {r : Nat × V} :
    r ∈ insertRow i v rows ↔ r = (i, v) ∨ r.1 ≠ i ∧ r ∈ rows := by
  induction rows with
  | nil => simp [insertRow]
  | cons x xs ih =>
    obtain ⟨hlt, hxs⟩ := List.pairwise_cons.mp sorted
    simp only [insertRow]
    split
    · rename_i hix
      have hne : ∀ y ∈ x :: xs, y.1 ≠ i := fun y hy => by
        rcases List.mem_cons.mp hy with rfl | hy
        · omega
        · have := hlt y hy; omega
      simp only [List.mem_cons (a := r) (b := (i, v))]
      exact or_congr_right ⟨fun h => ⟨hne r h, h⟩, And.right⟩
    · split
      · rename_i hix
        have hne : ∀ y ∈ xs, y.1 ≠ i := fun y hy => by have := hlt y hy; omega
        simp only [List.mem_cons]
        refine or_congr_right ⟨fun h => ⟨hne r h, .inr h⟩, ?_⟩
        rintro ⟨hri, rfl | h⟩
        · exact absurd hix.symm hri
        · exact h
      · rename_i hgt hix
        simp only [List.mem_cons, ih hxs]
        constructor
        · rintro (rfl | h | ⟨hri, h⟩)
          · exact .inr ⟨fun h => hix h.symm, .inl rfl⟩
          · exact .inl h
          · exact .inr ⟨hri, .inr h⟩
        · rintro (h | ⟨hri, rfl | h⟩)
          · exact .inr (.inl h)
          · exact .inl rfl
          · exact .inr (.inr ⟨hri, h⟩)

/-- A row behind all others is put last. -/
theorem insertRow_behind {i : Nat} {v : V} {rows : List (Nat × V)} (h : ∀ r ∈ rows, r.1 < i) :
    insertRow i v rows = rows ++ [(i, v)] := by
  induction rows with
  | nil => rfl
  | cons r rows ih =>
    have hlt := h r List.mem_cons_self
    rw [insertRow, if_neg (by omega), if_neg (by omega),
      ih fun s hs => h s (List.mem_cons_of_mem _ hs), List.cons_append]

theorem insertRow_sorted (i : Nat) (v : V) {rows : List (Nat × V)}
    (sorted : rows.Pairwise (fun a b => a.1 < b.1)) :
    (insertRow i v rows).Pairwise (fun a b => a.1 < b.1) := by
  induction rows with
  | nil => simp [insertRow]
  | cons x xs ih =>
    obtain ⟨hlt, hxs⟩ := List.pairwise_cons.mp sorted
    simp only [insertRow]
    split
    · rename_i hix
      refine List.pairwise_cons.mpr ⟨fun y hy => ?_, sorted⟩
      rcases List.mem_cons.mp hy with rfl | hy
      · exact hix
      · exact Nat.lt_trans hix (hlt y hy)
    · split
      · rename_i hix
        exact List.pairwise_cons.mpr ⟨fun y hy => hix ▸ hlt y hy, hxs⟩
      · rename_i hgt hix
        refine List.pairwise_cons.mpr ⟨fun y hy => ?_, ih hxs⟩
        rcases (mem_insertRow hxs).mp hy with rfl | ⟨-, hy⟩
        · show x.1 < i
          omega
        · exact hlt y hy

/-- `v` stored at `i`, over whatever stood there. -/
def insert (m : IdMap V) (i : Nat) (v : V) : IdMap V :=
  ⟨insertRow i v m.rows, insertRow_sorted i v m.sorted⟩

/-- Nothing stored at `i`. -/
def erase (m : IdMap V) (i : Nat) : IdMap V :=
  ⟨m.rows.filter (·.1 ≠ i), m.sorted.filter _⟩

@[simp] theorem get?_empty (i : Nat) : (empty : IdMap V).get? i = none := rfl

theorem get?_insert (m : IdMap V) (i j : Nat) (v : V) :
    (m.insert i v).get? j = if j = i then some v else m.get? j := by
  ext w
  rw [get?_eq_some]
  simp only [insert, mem_insertRow m.sorted, Prod.mk.injEq]
  split
  · rename_i h
    simp [h, eq_comm]
  · rename_i h
    simp [h, get?_eq_some]

@[simp] theorem get?_insert_self (m : IdMap V) (i : Nat) (v : V) :
    (m.insert i v).get? i = some v := by rw [get?_insert, if_pos rfl]

theorem get?_erase (m : IdMap V) (i j : Nat) :
    (m.erase i).get? j = if j = i then none else m.get? j := by
  ext w
  rw [get?_eq_some]
  simp only [erase, List.mem_filter, decide_eq_true_eq]
  split
  · rename_i h
    simp [h]
  · rename_i h
    simp [h, get?_eq_some]

@[simp] theorem get?_erase_self (m : IdMap V) (i : Nat) : (m.erase i).get? i = none := by
  rw [get?_erase, if_pos rfl]

/-! ## Totals over the rows -/

/-- The sum of a quantity over the rows. -/
def total (f : V → Int) (m : IdMap V) : Int := (m.rows.map fun r => f r.2).sum

@[simp] theorem total_empty (f : V → Int) : (empty : IdMap V).total f = 0 := rfl

/-- Writing a row adds what the new value holds and takes away what the old one held. -/
theorem total_insert (f : V → Int) (m : IdMap V) (i : Nat) (v : V) :
    (m.insert i v).total f = m.total f - ((m.get? i).map f).getD 0 + f v := by
  obtain ⟨rows, sorted⟩ := m
  simp only [total, insert, get?]
  induction rows with
  | nil => simp [insertRow]
  | cons r rs ih =>
    obtain ⟨hlt, hrs⟩ := List.pairwise_cons.mp sorted
    simp only [insertRow]
    split
    · rename_i hi
      have hnone : ∀ x ∈ r :: rs, (x.1 == i) = false := fun x hx => by
        rcases List.mem_cons.mp hx with rfl | hx
        · exact beq_eq_false_iff_ne.mpr (Nat.ne_of_gt hi)
        · exact beq_eq_false_iff_ne.mpr (Nat.ne_of_gt (Nat.lt_trans hi (hlt x hx)))
      rw [List.find?_eq_none.mpr fun x hx => by simp [hnone x hx]]
      simp only [List.map_cons, List.sum_cons, Option.map_none, Option.getD_none]
      omega
    · split
      · rename_i hi
        simp only [List.find?_cons, ← hi, beq_self_eq_true, List.map_cons, List.sum_cons,
          Option.map_some, Option.getD_some]
        omega
      · rename_i hi
        have hne : (r.1 == i) = false := beq_eq_false_iff_ne.mpr fun h => hi h.symm
        simp only [List.map_cons, List.sum_cons, List.find?_cons, hne, ih hrs]
        omega

/-! ## Loops over the rows -/

/-- A loop over rows with distinct keys, whose body at key `i` leaves the entries of other keys
alone, leaves the entry of `j` as the body made it from the entry `j` had at the start. -/
theorem fold_local {σ ε W : Type} (body : σ → Nat × W → σ) (entry : σ → Nat → ε)
    (step : W → ε → ε)
    (here : ∀ s r, entry (body s r) r.1 = step r.2 (entry s r.1))
    (away : ∀ s r j, j ≠ r.1 → entry (body s r) j = entry s j)
    (m : IdMap W) (s : σ) (j : Nat) :
    entry (m.rows.foldl body s) j =
      match m.get? j with
      | some w => step w (entry s j)
      | none => entry s j := by
  obtain ⟨rows, sorted⟩ := m
  induction rows generalizing s with
  | nil => rfl
  | cons r rs ih =>
    obtain ⟨hlt, hrs⟩ := List.pairwise_cons.mp sorted
    rw [List.foldl_cons, ih (body s r) hrs]
    by_cases hr : r.1 = j
    · have hnone : (⟨rs, hrs⟩ : IdMap W).get? j = none :=
        get?_eq_none.mpr fun w hw => Nat.lt_irrefl j (by simpa only [hr] using hlt _ hw)
      have hsome : (⟨r :: rs, sorted⟩ : IdMap W).get? j = some r.2 :=
        get?_eq_some.mpr (List.mem_cons.mpr (.inl (by rw [← hr])))
      rw [hnone, hsome]
      exact hr ▸ here s r
    · have hsame : (⟨r :: rs, sorted⟩ : IdMap W).get? j = (⟨rs, hrs⟩ : IdMap W).get? j := by
        simp only [get?, List.find?_cons, beq_eq_false_iff_ne.mpr hr]
      rw [hsame, away s r j (fun h => hr h.symm)]

end IdMap

end NewsChain
