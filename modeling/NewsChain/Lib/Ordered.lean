import Mathlib.Data.List.Sort

/-!
# Ordered indexes

The rows of a container in the order of a comparison, as an ordered index goes through them. What is
searched in such an index is searched up to a bound; on rows in order both ways of stopping at a
bound are filters, and rows without duplicates are determined by which they are.
-/

namespace NewsChain

variable {α : Type}

/-- A comparison that orders: no two rows are before each other, and not being after is transitive. -/
structure Orders (before : α → α → Prop) : Prop where
  asymm : ∀ a b, before a b → ¬ before b a
  trans : ∀ a b c, ¬ before b a → ¬ before c b → ¬ before c a

/-- The rows in order. -/
def inOrder (before : α → α → Prop) [DecidableRel before] (rows : List α) : List α :=
  rows.insertionSort fun a b => ¬ before b a

section InOrder

variable {before : α → α → Prop} [DecidableRel before]

theorem perm_inOrder (rows : List α) : (inOrder before rows).Perm rows :=
  List.perm_insertionSort _ _

theorem pairwise_inOrder (h : Orders before) (rows : List α) :
    (inOrder before rows).Pairwise fun a b => ¬ before b a := by
  have htotal : Std.Total fun a b => ¬ before b a :=
    ⟨fun a b => by
      by_cases hb : before b a
      · exact .inr (h.asymm b a hb)
      · exact .inl hb⟩
  have htrans : IsTrans α fun a b => ¬ before b a := ⟨h.trans⟩
  exact List.pairwise_insertionSort _ _

/-- Where no two rows stand level, each is before those behind it. -/
theorem pairwise_inOrder_before (h : Orders before) {rows : List α} (hnodup : rows.Nodup)
    (htotal : ∀ a ∈ rows, ∀ b ∈ rows, a ≠ b → before a b ∨ before b a) :
    (inOrder before rows).Pairwise before := by
  have hperm : (inOrder before rows).Perm rows := perm_inOrder rows
  have hdistinct : (inOrder before rows).Nodup := hperm.nodup_iff.mpr hnodup
  refine ((pairwise_inOrder h rows).and hdistinct).imp_of_mem fun {a b} ha hb hab => ?_
  rcases htotal a (hperm.mem_iff.mp ha) b (hperm.mem_iff.mp hb) hab.2 with hlt | hlt
  · exact hlt
  · exact absurd hlt hab.1

end InOrder

section Bounds

variable {r : α → α → Prop} {p : α → Bool} {rows : List α}

/-- Up to a bound that is not crossed twice. -/
theorem takeWhile_eq_filter (h : rows.Pairwise r) (hp : ∀ a b, r a b → p a = false → p b = false) :
    rows.takeWhile p = rows.filter p := by
  induction rows with
  | nil => rfl
  | cons a rows ih =>
    obtain ⟨ha, hrows⟩ := List.pairwise_cons.mp h
    cases hpa : p a with
    | true =>
      rw [List.takeWhile_cons_of_pos hpa, List.filter_cons_of_pos hpa, ih hrows]
    | false =>
      rw [List.takeWhile_cons_of_neg (by simp [hpa]), List.filter_cons_of_neg (by simp [hpa])]
      refine (List.filter_eq_nil_iff.mpr fun b hb => ?_).symm
      simp [hp a b (ha b hb) hpa]

/-- From a bound on. -/
theorem dropWhile_eq_filter (h : rows.Pairwise r) (hp : ∀ a b, r a b → p a = false → p b = false) :
    rows.dropWhile p = rows.filter (!p ·) := by
  induction rows with
  | nil => rfl
  | cons a rows ih =>
    obtain ⟨ha, hrows⟩ := List.pairwise_cons.mp h
    cases hpa : p a with
    | true =>
      rw [List.dropWhile_cons_of_pos hpa, List.filter_cons_of_neg (by simp [hpa]), ih hrows]
    | false =>
      rw [List.dropWhile_cons_of_neg (by simp [hpa])]
      refine (List.filter_eq_self.mpr fun b hb => ?_).symm
      rcases List.mem_cons.mp hb with rfl | hb
      · simp [hpa]
      · simp [hp a b (ha b hb) hpa]

end Bounds

/-- Lists in a strict order with the same members are one. -/
theorem eq_of_strict {r : α → α → Prop} (hasymm : ∀ a b, r a b → ¬ r b a) {as bs : List α}
    (ha : as.Pairwise r) (hb : bs.Pairwise r) (h : ∀ a, a ∈ as ↔ a ∈ bs) : as = bs := by
  have hdistinct : ∀ {l : List α}, l.Pairwise r → l.Nodup := fun hl =>
    hl.imp fun {a b} hab heq => by
      subst heq
      exact hasymm a a hab hab
  have hperm : as.Perm bs := (List.perm_ext_iff_of_nodup (hdistinct ha) (hdistinct hb)).mpr h
  exact hperm.eq_of_pairwise (fun a b _ _ hab hba => absurd hba (hasymm a b hab)) ha hb

/-! ## Numbered lists -/

/-- The entries of a list with their numbers, from 1 on. -/
def numbered (l : List α) : List (Nat × α) := l.mapIdx fun i a => (i + 1, a)

section Numbered

variable {l : List α} {n : Nat} {a : α}

theorem mem_numbered : (n, a) ∈ numbered l ↔ 0 < n ∧ l[n - 1]? = some a := by
  rw [numbered, List.mem_mapIdx]
  constructor
  · rintro ⟨i, hi, heq⟩
    obtain ⟨rfl, rfl⟩ := Prod.mk.inj heq
    exact ⟨Nat.succ_pos i, List.getElem?_eq_getElem hi⟩
  · rintro ⟨hn, hget⟩
    obtain ⟨hi, hget⟩ := List.getElem?_eq_some_iff.mp hget
    exact ⟨n - 1, hi, by rw [hget, Nat.sub_add_cancel hn]⟩

theorem numbered_concat (l : List α) (a : α) :
    numbered (l ++ [a]) = numbered l ++ [(l.length + 1, a)] := by
  rw [numbered, List.mapIdx_concat, numbered]

theorem pairwise_numbered (l : List α) : (numbered l).Pairwise fun x y => x.1 < y.1 := by
  rw [numbered, List.pairwise_iff_getElem]
  intro i j hi hj hij
  rw [List.getElem_mapIdx, List.getElem_mapIdx]
  exact Nat.succ_lt_succ hij

/-- The entries up to a number are the first ones. -/
theorem numbered_take (l : List α) (n : Nat) :
    numbered (l.take n) = (numbered l).filter fun e => e.1 ≤ n := by
  refine eq_of_strict (r := fun x y => x.1 < y.1) (fun _ _ => Nat.lt_asymm) (pairwise_numbered _)
    ((pairwise_numbered l).filter _) fun e => ?_
  rw [List.mem_filter, mem_numbered, mem_numbered, decide_eq_true_iff, List.getElem?_take]
  by_cases hle : e.1 ≤ n
  · by_cases hpos : 0 < e.1
    · simp [hle, hpos, show e.1 - 1 < n by omega]
    · simp [hpos]
  · simp [hle, show ¬ e.1 - 1 < n by omega]

end Numbered

end NewsChain
