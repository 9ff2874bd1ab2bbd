import Mathlib.Data.List.Basic
import Mathlib.Tactic.Common

/-!
# Trees that pair neighbours

A list is reduced level by level: neighbours are combined, an odd last element moves up as it is,
until one element is left. Run with the node constructor instead of an operation, the reduction
builds a binary tree over the list; folding that tree with an operation is what the reduction
with the operation computes.

The leaves of the tree, read from left to right, are the list. So if the operation tells the pairs
apart that it meets and never makes a leaf, the result determines the list, its length included,
although lists of different lengths give trees of different shapes.
-/

namespace NewsChain

variable {α β : Type}

/-! ## Levels -/

/-- One level up: neighbours are combined, an odd last element stays. -/
def pairNeighbours (op : α → α → α) : List α → List α
  | [] => []
  | [a] => [a]
  | a :: b :: rest => op a b :: pairNeighbours op rest

/-- The levels up to the last element, as many as the fuel allows. -/
def climb (op : α → α → α) : Nat → List α → Option α
  | _, [] => none
  | _, [a] => some a
  | 0, _ :: _ :: _ => none
  | fuel + 1, a :: b :: rest => climb op fuel (pairNeighbours op (a :: b :: rest))

theorem length_pairNeighbours (op : α → α → α) (as : List α) :
    (pairNeighbours op as).length = (as.length + 1) / 2 := by
  fun_induction pairNeighbours op as with
  | case1 => simp
  | case2 => simp
  | case3 a b rest ih => simp only [List.length_cons, ih]; omega

/-- A level is made of the levels of two parts, when the first is cut between two pairs. -/
theorem pairNeighbours_append (op : α → α → α) {as : List α} (heven : as.length % 2 = 0)
    (bs : List α) :
    pairNeighbours op (as ++ bs) = pairNeighbours op as ++ pairNeighbours op bs := by
  fun_induction pairNeighbours op as with
  | case1 => rfl
  | case2 => simp at heven
  | case3 a b rest ih =>
    simp only [List.length_cons] at heven
    simp only [List.cons_append, pairNeighbours, ih (by omega)]

/-- A map that turns one operation into the other goes through a level. -/
theorem map_pairNeighbours {op : α → α → α} {op' : β → β → β} {f : α → β}
    (hf : ∀ a b, f (op a b) = op' (f a) (f b)) (as : List α) :
    (pairNeighbours op as).map f = pairNeighbours op' (as.map f) := by
  fun_induction pairNeighbours op as with
  | case1 => rfl
  | case2 => rfl
  | case3 a b rest ih => simp only [List.map_cons, pairNeighbours, hf, ih]

/-- A map that turns one operation into the other goes through all levels. -/
theorem map_climb {op : α → α → α} {op' : β → β → β} {f : α → β}
    (hf : ∀ a b, f (op a b) = op' (f a) (f b)) (fuel : Nat) (as : List α) :
    (climb op fuel as).map f = climb op' fuel (as.map f) := by
  fun_induction climb op fuel as with
  | case1 => simp [climb]
  | case2 => simp [climb]
  | case3 => simp [climb]
  | case4 fuel a b rest ih =>
    rw [ih, map_pairNeighbours hf]
    rfl

/-- The length of the list is fuel enough. -/
theorem climb_isSome (op : α → α → α) {fuel : Nat} {as : List α} (hne : as ≠ [])
    (hfuel : as.length ≤ fuel + 1) : ∃ a, climb op fuel as = some a := by
  induction fuel generalizing as with
  | zero =>
    match as, hne, hfuel with
    | [a], _, _ => exact ⟨a, rfl⟩
  | succ fuel ih =>
    match as, hne, hfuel with
    | [a], _, _ => exact ⟨a, rfl⟩
    | a :: b :: rest, _, hfuel =>
      have hlen := length_pairNeighbours op (a :: b :: rest)
      simp only [List.length_cons] at hfuel hlen
      exact ih (List.ne_nil_of_length_pos (by omega)) (by omega)

/-! ## The tree of a list -/

/-- A binary tree with its values at the leaves. -/
inductive PairTree (α : Type)
  | leaf (a : α)
  | node (left right : PairTree α)

namespace PairTree

/-- The values from left to right. -/
def leaves : PairTree α → List α
  | leaf a => [a]
  | node l r => l.leaves ++ r.leaves

/-- The value of the tree under an operation. -/
def fold (op : α → α → α) : PairTree α → α
  | leaf a => a
  | node l r => op (l.fold op) (r.fold op)

/-- The pairs the operation is applied to. -/
def pairs (op : α → α → α) : PairTree α → List (α × α)
  | leaf _ => []
  | node l r => (l.fold op, r.fold op) :: (l.pairs op ++ r.pairs op)

/-- The tree that pairs the neighbours of a list level by level. -/
def ofList (as : List α) : Option (PairTree α) :=
  climb node as.length (as.map leaf)

theorem leaves_pairNeighbours (ts : List (PairTree α)) :
    (pairNeighbours node ts).flatMap leaves = ts.flatMap leaves := by
  fun_induction pairNeighbours node ts with
  | case1 => rfl
  | case2 => rfl
  | case3 a b rest ih => simp only [List.flatMap_cons, leaves, ih, List.append_assoc]

theorem leaves_climb {fuel : Nat} {ts : List (PairTree α)} {t : PairTree α}
    (h : climb node fuel ts = some t) : t.leaves = ts.flatMap leaves := by
  fun_induction climb node fuel ts with
  | case1 => cases h
  | case2 a =>
    obtain rfl := Option.some.inj h
    simp
  | case3 => cases h
  | case4 fuel a b rest ih => rw [ih h, leaves_pairNeighbours]

/-- The leaves of the tree of a list are the list. -/
theorem leaves_ofList {as : List α} {t : PairTree α} (h : ofList as = some t) : t.leaves = as := by
  rw [leaves_climb h, List.flatMap_map]
  exact List.flatMap_singleton' as

/-- Every list with an element has a tree. -/
theorem ofList_isSome {as : List α} (hne : as ≠ []) : ∃ t, ofList as = some t :=
  climb_isSome node (by simpa using hne) (by simp)

/-- Folding the tree is the reduction with the operation. -/
theorem fold_ofList (op : α → α → α) (as : List α) :
    (ofList as).map (fold op) = climb op as.length as := by
  have h : (climb node as.length (as.map leaf)).map (fold op) =
      climb op as.length ((as.map leaf).map (fold op)) := map_climb (fun _ _ => rfl) _ _
  rwa [List.map_map, show fold op ∘ leaf = id from rfl, List.map_id] at h

/-- **The value determines the tree**, where the operation tells the pairs apart that the two trees
combine and makes none of their leaves. -/
theorem eq_of_fold_eq {op : α → α → α} {P : α → α → Prop} {L : α → Prop}
    (hop : ∀ {a b c d}, P a b → P c d → op a b = op c d → a = c ∧ b = d)
    (hleaf : ∀ {a b c}, L c → P a b → c ≠ op a b) {t t' : PairTree α}
    (hP : ∀ p ∈ t.pairs op, P p.1 p.2) (hP' : ∀ p ∈ t'.pairs op, P p.1 p.2)
    (hL : ∀ a ∈ t.leaves, L a) (hL' : ∀ a ∈ t'.leaves, L a) (h : t.fold op = t'.fold op) :
    t = t' := by
  induction t generalizing t' with
  | leaf a =>
    cases t' with
    | leaf a' => exact congrArg leaf h
    | node l' r' => exact absurd h (hleaf (hL a (.head _)) (hP' _ (.head _)))
  | node l r ihl ihr =>
    cases t' with
    | leaf a' => exact absurd h.symm (hleaf (hL' a' (.head _)) (hP _ (.head _)))
    | node l' r' =>
      obtain ⟨hl, hr⟩ := hop (hP _ (.head _)) (hP' _ (.head _)) h
      have eql : l = l' := ihl (fun p hp => hP p (.tail _ (List.mem_append_left _ hp)))
        (fun p hp => hP' p (.tail _ (List.mem_append_left _ hp)))
        (fun a ha => hL a (List.mem_append_left _ ha))
        (fun a ha => hL' a (List.mem_append_left _ ha)) hl
      have eqr : r = r' := ihr (fun p hp => hP p (.tail _ (List.mem_append_right _ hp)))
        (fun p hp => hP' p (.tail _ (List.mem_append_right _ hp)))
        (fun a ha => hL a (List.mem_append_right _ ha))
        (fun a ha => hL' a (List.mem_append_right _ ha)) hr
      rw [eql, eqr]

end PairTree

end NewsChain
