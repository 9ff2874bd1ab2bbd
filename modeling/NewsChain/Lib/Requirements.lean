import Mathlib.Data.List.Nodup
import Mathlib.Order.Basic

/-!
# Requirements and their order

Things that require others, and no circles among them: each has a rank above the ranks of what it
requires. A list is in order (`Ordered`) when nothing is in it twice and each thing comes after all it
requires; it is extended by a thing whose requirements are there (`Ordered.concat`).
-/

namespace NewsChain

/-- What requires what. The ranks rule out circles. -/
structure Requirements (ι : Type) where
  requires : ι → List ι
  rank : ι → Nat
  rank_lt : ∀ i, ∀ j ∈ requires i, rank j < rank i

namespace Requirements

variable {ι : Type} {g : Requirements ι} {l : List ι} {i j : ι}

/-- Nothing twice, and each after all it requires. -/
structure Ordered (g : Requirements ι) (l : List ι) : Prop where
  nodup : l.Nodup
  after : ∀ l₁ i l₂, l = l₁ ++ i :: l₂ → ∀ j ∈ g.requires i, j ∈ l₁

/-- What holds of a thing holds of what it requires. -/
def Closed (g : Requirements ι) (C : ι → Prop) : Prop := ∀ i, C i → ∀ j ∈ g.requires i, C j

/-- What a thing requires, with what that requires, and itself. -/
inductive Needs (g : Requirements ι) : ι → ι → Prop
  | self (i : ι) : Needs g i i
  | step {i j k : ι} : Needs g i j → k ∈ g.requires j → Needs g i k

namespace Ordered

theorem nil : g.Ordered [] where
  nodup := List.nodup_nil
  after l₁ i l₂ h := absurd h.symm (List.append_ne_nil_of_right_ne_nil l₁ (List.cons_ne_nil i l₂))

/-- A new thing goes to the end once what it requires is there. -/
theorem concat (h : g.Ordered l) (hi : i ∉ l) (hrequires : ∀ j ∈ g.requires i, j ∈ l) :
    g.Ordered (l ++ [i]) where
  nodup := by
    refine List.Nodup.append h.nodup (List.nodup_singleton i) ?_
    intro j hj hj'
    exact hi (List.mem_singleton.mp hj' ▸ hj)
  after := by
    intro l₁ j l₂ heq
    rcases List.append_eq_append_iff.mp heq with ⟨rest, rfl, hrest⟩ | ⟨rest, rfl, hrest⟩
    · -- What comes after is part of the new thing alone.
      cases rest with
      | nil =>
        obtain ⟨rfl, -⟩ := List.cons.inj hrest
        rw [List.append_nil]
        exact hrequires
      | cons k rest =>
        obtain ⟨-, htail⟩ := List.cons.inj hrest
        exact absurd htail.symm (List.append_ne_nil_of_right_ne_nil rest (List.cons_ne_nil j l₂))
    · cases rest with
      | nil =>
        obtain ⟨rfl, -⟩ := List.cons.inj hrest
        rw [List.append_nil] at hrequires
        exact hrequires
      | cons k rest =>
        obtain ⟨rfl, -⟩ := List.cons.inj hrest
        exact h.after l₁ j rest rfl

/-- The front of a list in order is in order. -/
theorem of_append {l' : List ι} (h : g.Ordered (l ++ l')) : g.Ordered l where
  nodup := h.nodup.of_append_left
  after l₁ i l₂ heq := h.after l₁ i (l₂ ++ l') (by rw [heq, List.append_assoc, List.cons_append])

/-- A list in order holds what its members require. -/
theorem closed (h : g.Ordered l) : g.Closed (· ∈ l) := by
  intro i hi j hj
  obtain ⟨l₁, l₂, rfl⟩ := List.append_of_mem hi
  exact List.mem_append_left _ (h.after l₁ i l₂ rfl j hj)

end Ordered

end Requirements

end NewsChain
