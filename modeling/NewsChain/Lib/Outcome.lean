import Mathlib.Logic.Basic

/-!
# Reasoning about `EStateM`

`EStateM ε σ` is the monad of a program whose writes survive a throw: a throw leaves the state as
it stood. `Keeps I m` says that `m` keeps `I` on both ways out; it is closed under everything the
programs here are made of, so an invariant of a long program is an invariant of its primitives.

`bind_eq_ok` reads a composite run backwards.
-/

namespace NewsChain

open EStateM (Result)

variable {ε σ α β : Type}

/-- `if( c ) m`, with the code after it in one place. -/
def onlyIf (c : Prop) [Decidable c] (m : EStateM ε σ PUnit) : EStateM ε σ PUnit :=
  if c then m else pure ()

/-- The state a run ends in, on either way out. -/
def finalState : Result ε σ α → σ
  | .ok _ s => s
  | .error _ s => s

/-- The run returned. -/
def Returned (r : Result ε σ α) : Prop := ∃ a s, r = .ok a s

instance : (r : Result ε σ α) → Decidable (Returned r)
  | .ok a s => .isTrue ⟨a, s, rfl⟩
  | .error _ _ => .isFalse nofun

@[simp] theorem finalState_ok (a : α) (s : σ) : finalState (.ok a s : Result ε σ α) = s := rfl
@[simp] theorem finalState_error (e : ε) (s : σ) :
    finalState (.error e s : Result ε σ α) = s := rfl
@[simp] theorem returned_ok (a : α) (s : σ) : Returned (.ok a s : Result ε σ α) := ⟨a, s, rfl⟩
@[simp] theorem not_returned_error (e : ε) (s : σ) : ¬ Returned (.error e s : Result ε σ α) :=
  nofun

/-- A run that returned is its answer and the state it ended in. -/
theorem eq_ok_of_returned {r : Result ε σ α} (h : Returned r) : ∃ a, r = .ok a (finalState r) := by
  obtain ⟨a, s, rfl⟩ := h
  exact ⟨a, rfl⟩

theorem eq_error_of_not_returned {r : Result ε σ α} (h : ¬ Returned r) :
    ∃ e, r = .error e (finalState r) := by
  cases r with
  | ok a s => exact absurd ⟨a, s, rfl⟩ h
  | error e s => exact ⟨e, rfl⟩

/-- A program that returns goes on. -/
theorem run_bind_of_ok {m : EStateM ε σ α} {s s' : σ} {a : α} (h : m.run s = .ok a s')
    (f : α → EStateM ε σ β) : (m >>= f).run s = (f a).run s' := by
  rw [EStateM.run_bind, h]

theorem bind_eq_ok {m : EStateM ε σ α} {f : α → EStateM ε σ β} {s s'' : σ} {b : β} :
    (m >>= f).run s = .ok b s'' ↔ ∃ a s', m.run s = .ok a s' ∧ (f a).run s' = .ok b s'' := by
  rw [EStateM.run_bind]
  cases m.run s with
  | ok a s' => exact ⟨fun h => ⟨a, s', rfl, h⟩, by rintro ⟨_, _, h, hf⟩; cases h; exact hf⟩
  | error e s' => exact ⟨nofun, by rintro ⟨_, _, h, _⟩; cases h⟩

/-- A composite run returns where its parts do. -/
theorem returned_bind {m : EStateM ε σ α} {f : α → EStateM ε σ β} {s : σ} :
    Returned ((m >>= f).run s) ↔ ∃ a s', m.run s = .ok a s' ∧ Returned ((f a).run s') := by
  constructor
  · rintro ⟨b, s'', h⟩
    obtain ⟨a, s', hm, hf⟩ := bind_eq_ok.mp h
    exact ⟨a, s', hm, b, s'', hf⟩
  · rintro ⟨a, s', hm, b, s'', hf⟩
    exact ⟨b, s'', bind_eq_ok.mpr ⟨a, s', hm, hf⟩⟩

/-- `catch` without rollback: the handler starts from the state the throw left. -/
theorem run_tryCatch (m : EStateM ε σ α) (h : ε → EStateM ε σ α) (s : σ) :
    (tryCatch m h).run s =
      match m.run s with
      | .ok a s' => .ok a s'
      | .error e s' => (h e).run s' := by
  show EStateM.tryCatch m h s = _
  delta EStateM.tryCatch EStateM.run
  cases m s <;> rfl

theorem run_onlyIf (c : Prop) [Decidable c] (m : EStateM ε σ PUnit) (s : σ) :
    (onlyIf c m).run s = if c then m.run s else .ok () s := by
  unfold onlyIf
  split <;> rfl

/-! ## Invariants -/

/-- `m` keeps `I`, whether it returns or throws. -/
def Keeps (I : σ → Prop) (m : EStateM ε σ α) : Prop := ∀ s, I s → I (finalState (m.run s))

namespace Keeps

variable {I : σ → Prop}

theorem pure (a : α) : Keeps I (pure a : EStateM ε σ α) := fun _ h => h

theorem throw (e : ε) : Keeps I (throw e : EStateM ε σ α) := fun _ h => h

theorem get : Keeps I (get : EStateM ε σ σ) := fun _ h => h

theorem modify {f : σ → σ} (h : ∀ s, I s → I (f s)) :
    Keeps I (modify f : EStateM ε σ PUnit) := h

/-- A run that returned kept the invariant. -/
theorem of_ok {m : EStateM ε σ α} (hm : Keeps I m) {s s' : σ} {a : α} (hs : I s)
    (h : m.run s = .ok a s') : I s' := by
  have := hm s hs
  rwa [h] at this

/-- A run that threw kept the invariant. -/
theorem of_error {m : EStateM ε σ α} (hm : Keeps I m) {s s' : σ} {e : ε} (hs : I s)
    (h : m.run s = .error e s') : I s' := by
  have := hm s hs
  rwa [h] at this

/-- An invariant that holds where `m` ends holds where the rest ends. -/
theorem after {m : EStateM ε σ α} {f : α → EStateM ε σ β} {s : σ} (hm : I (finalState (m.run s)))
    (hf : ∀ a, Keeps I (f a)) : I (finalState ((m >>= f).run s)) := by
  rw [EStateM.run_bind]
  cases h : m.run s with
  | ok a s' => rw [h] at hm; exact hf a s' hm
  | error e s' => rw [h] at hm; exact hm

theorem bind {m : EStateM ε σ α} {f : α → EStateM ε σ β} (hm : Keeps I m)
    (hf : ∀ a, Keeps I (f a)) : Keeps I (m >>= f) := fun s hs => after (hm s hs) hf

theorem tryCatch {m : EStateM ε σ α} {h : ε → EStateM ε σ α} (hm : Keeps I m)
    (hh : ∀ e, Keeps I (h e)) : Keeps I (tryCatch m h) := by
  intro s hs
  have := hm s hs
  rw [run_tryCatch]
  cases hr : m.run s with
  | ok a s' => rw [hr] at this; exact this
  | error e s' => rw [hr] at this; exact hh e s' this

theorem ite {c : Prop} [Decidable c] {m n : EStateM ε σ α} (hm : Keeps I m) (hn : Keeps I n) :
    Keeps I (if c then m else n) := by
  split
  · exact hm
  · exact hn

theorem onlyIf {c : Prop} [Decidable c] {m : EStateM ε σ PUnit} (hm : c → Keeps I m) :
    Keeps I (onlyIf c m) := by
  unfold NewsChain.onlyIf
  split
  · rename_i h
    exact hm h
  · exact Keeps.pure _

theorem mapM {l : List β} {f : β → EStateM ε σ α} (hf : ∀ b ∈ l, Keeps I (f b)) :
    Keeps I (l.mapM f) := by
  induction l with
  | nil => exact Keeps.pure _
  | cons b l ih =>
    rw [List.mapM_cons]
    exact (hf b List.mem_cons_self).bind fun _ =>
      (ih fun b' hb' => hf b' (List.mem_cons_of_mem _ hb')).bind fun _ => Keeps.pure _

theorem forM {l : List β} {f : β → EStateM ε σ PUnit} (hf : ∀ b ∈ l, Keeps I (f b)) :
    Keeps I (forM l f) := by
  induction l with
  | nil => exact Keeps.pure _
  | cons b l ih =>
    rw [List.forM_cons]
    exact (hf b List.mem_cons_self).bind fun _ => ih fun b' hb' => hf b' (List.mem_cons_of_mem _ hb')

end Keeps

/-! ## A part of the state -/

section Part

variable {τ : Type}

/-- A program on a part of the state. -/
def onPart (part : σ → τ) (put : τ → σ → σ) (m : EStateM ε τ α) : EStateM ε σ α := fun s =>
  match m.run (part s) with
  | .ok a t => .ok a (put t s)
  | .error e t => .error e (put t s)

/-- The run, with something made of the state it ends in. -/
def mapState (f : σ → τ) : Result ε σ α → Result ε τ α
  | .ok a s => .ok a (f s)
  | .error e s => .error e (f s)

@[simp] theorem mapState_ok (f : σ → τ) (a : α) (s : σ) :
    mapState f (.ok a s : Result ε σ α) = .ok a (f s) := rfl
@[simp] theorem mapState_error (f : σ → τ) (e : ε) (s : σ) :
    mapState f (.error e s : Result ε σ α) = .error e (f s) := rfl

theorem finalState_mapState (f : σ → τ) (r : Result ε σ α) :
    finalState (mapState f r) = f (finalState r) := by
  cases r <;> rfl

theorem returned_mapState (f : σ → τ) (r : Result ε σ α) :
    Returned (mapState f r) ↔ Returned r := by
  cases r with
  | ok a s => exact iff_of_true (returned_ok _ _) (returned_ok _ _)
  | error e s => exact iff_of_false (not_returned_error _ _) (not_returned_error _ _)

theorem run_onPart (part : σ → τ) (put : τ → σ → σ) (m : EStateM ε τ α) (s : σ) :
    (onPart part put m).run s = mapState (put · s) (m.run (part s)) := by
  simp only [onPart, EStateM.run]
  cases m (part s) <;> rfl

theorem run_onPart_ok {part : σ → τ} {put : τ → σ → σ} {m : EStateM ε τ α} {s : σ} {a : α} {t : τ}
    (h : m.run (part s) = .ok a t) : (onPart part put m).run s = .ok a (put t s) := by
  rw [run_onPart, h, mapState_ok]

theorem run_onPart_error {part : σ → τ} {put : τ → σ → σ} {m : EStateM ε τ α} {s : σ} {e : ε} {t : τ}
    (h : m.run (part s) = .error e t) : (onPart part put m).run s = .error e (put t s) := by
  rw [run_onPart, h, mapState_error]

/-- What a program keeps of the part it works on. -/
theorem Keeps.onPart {I : τ → Prop} {part : σ → τ} {put : τ → σ → σ} (hput : ∀ t s, part (put t s) = t)
    {m : EStateM ε τ α} (hm : Keeps I m) :
    Keeps (fun s => I (part s)) (NewsChain.onPart part put m) := by
  intro s hs
  rw [run_onPart, finalState_mapState, hput]
  exact hm (part s) hs

/-- What does not depend on the part. -/
theorem Keeps.onPart_frame {I : σ → Prop} {part : σ → τ} {put : τ → σ → σ}
    (hput : ∀ t s, I s → I (put t s)) (m : EStateM ε τ α) : Keeps I (NewsChain.onPart part put m) := by
  intro s hs
  rw [run_onPart, finalState_mapState]
  exact hput _ s hs

end Part

/-! ## Runs that return -/

/-- From every state with `P`, `m` returns, in a state with `Q`. -/
def Returns (P Q : σ → Prop) (m : EStateM ε σ α) : Prop :=
  ∀ s, P s → ∃ a s', m.run s = .ok a s' ∧ Q s'

namespace Returns

variable {P Q R : σ → Prop}

theorem pure (a : α) : Returns P P (pure a : EStateM ε σ α) := fun s hs => ⟨a, s, rfl, hs⟩

theorem modify {f : σ → σ} (h : ∀ s, P s → Q (f s)) :
    Returns P Q (modify f : EStateM ε σ PUnit) := fun s hs => ⟨_, _, rfl, h s hs⟩

theorem bind {m : EStateM ε σ α} {f : α → EStateM ε σ β} (hm : Returns P Q m)
    (hf : ∀ a, Returns Q R (f a)) : Returns P R (m >>= f) := by
  intro s hs
  obtain ⟨a, s', hrun, hs'⟩ := hm s hs
  obtain ⟨b, s'', hrun', hs''⟩ := hf a s' hs'
  exact ⟨b, s'', bind_eq_ok.mpr ⟨a, s', hrun, hrun'⟩, hs''⟩

end Returns

/-! ## Runs that do not depend on part of the state -/

/-- Where `m` returns, `m'` returns the same from every state that `W` makes of that one, and `W`
makes the state it ends in of the one `m` ends in. -/
def Follows {ρ : Type} (W : ρ → σ → σ) (m m' : EStateM ε σ α) : Prop :=
  ∀ s s' a, m.run s = .ok a s' → ∀ r, ∃ r', m'.run (W r s) = .ok a (W r' s')

namespace Follows

variable {ρ : Type} {W : ρ → σ → σ}

theorem pure (a : α) : Follows W (pure a : EStateM ε σ α) (pure a) := by
  intro s s' b h r
  cases h
  exact ⟨r, rfl⟩

theorem throw (e e' : ε) : Follows W (throw e : EStateM ε σ α) (throw e') :=
  fun _ _ _ h => by cases h

theorem modify {f : σ → σ} (h : ∀ r s, f (W r s) = W r (f s)) :
    Follows W (modify f : EStateM ε σ PUnit) (modify f) := by
  intro s s' a hrun r
  cases hrun
  exact ⟨r, by rw [← h]; rfl⟩

theorem bind {m m' : EStateM ε σ α} {f f' : α → EStateM ε σ β} (hm : Follows W m m')
    (hf : ∀ a, Follows W (f a) (f' a)) : Follows W (m >>= f) (m' >>= f') := by
  intro s s'' b h r
  obtain ⟨a, s', hrun, hrest⟩ := bind_eq_ok.mp h
  obtain ⟨r', hrun'⟩ := hm s s' a hrun r
  obtain ⟨r'', hrest'⟩ := hf a s' s'' b hrest r'
  exact ⟨r'', bind_eq_ok.mpr ⟨a, _, hrun', hrest'⟩⟩

/-- A read that does not see the difference. -/
theorem read {f f' : σ → EStateM ε σ α} (hsame : ∀ r s, f' (W r s) = f' s)
    (hf : ∀ s, Follows W (f s) (f' s)) : Follows W (get >>= f) (get >>= f') := by
  intro s s' a hrun r
  obtain ⟨_, _, hget, hrest⟩ := bind_eq_ok.mp hrun
  cases hget
  obtain ⟨r', hrest'⟩ := hf s s s' a hrest r
  exact ⟨r', bind_eq_ok.mpr ⟨W r s, W r s, rfl, by rw [hsame]; exact hrest'⟩⟩

theorem onlyIf {c : Prop} [Decidable c] {m m' : EStateM ε σ PUnit} (h : Follows W m m') :
    Follows W (onlyIf c m) (onlyIf c m') := by
  unfold NewsChain.onlyIf
  split
  · exact h
  · exact Follows.pure _

theorem mapM {l : List β} {f f' : β → EStateM ε σ α} (h : ∀ b, Follows W (f b) (f' b)) :
    Follows W (l.mapM f) (l.mapM f') := by
  induction l with
  | nil => exact Follows.pure _
  | cons b l ih =>
    rw [List.mapM_cons, List.mapM_cons]
    exact (h b).bind fun _ => ih.bind fun _ => Follows.pure _

theorem forM {l : List β} {f f' : β → EStateM ε σ PUnit} (h : ∀ b, Follows W (f b) (f' b)) :
    Follows W (forM l f) (forM l f') := by
  induction l with
  | nil => exact Follows.pure _
  | cons b l ih =>
    rw [List.forM_cons, List.forM_cons]
    exact (h b).bind fun _ => ih

end Follows

/-! ## Programs without a state -/

theorem ok_bind (a : α) (f : α → Except ε β) : ((.ok a : Except ε α) >>= f) = f a := rfl

theorem except_bind_eq_ok {m : Except ε α} {f : α → Except ε β} {b : β} :
    (m >>= f) = .ok b ↔ ∃ a, m = .ok a ∧ f a = .ok b := by
  cases m with
  | ok a => exact ⟨fun h => ⟨a, rfl, h⟩, by rintro ⟨_, h, hf⟩; cases h; exact hf⟩
  | error e => exact ⟨nofun, by rintro ⟨_, h, _⟩; cases h⟩

end NewsChain
