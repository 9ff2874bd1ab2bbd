import NewsChain.Lib.Outcome
import NewsChain.Lib.Snapshots

/-!
# Scopes over snapshots

A scope takes a snapshot, runs its body, and at the end leaves the snapshot on the stack, merges it
into the one below or goes back to it; when the body throws, the scope goes back to it and throws on.

`Lifts m M` says that `M` does to the present content of a stack what `m` does to a content, and
leaves the snapshots alone. Scopes that do not leave theirs on the stack lift `allOrNothing`, and so a
program of nested scopes is read without a stack (`Lifts.scope`).

`Simulates R m m'` compares two programs step by step, throws included.
-/

namespace NewsChain

open EStateM (Result)

variable {ε σ τ ρ α β : Type}

/-! ## Simulation -/

/-- Two runs end alike, in states that are related. -/
inductive Corresponds (R : σ → τ → Prop) : Result ε σ α → Result ε τ α → Prop
  | ok {s : σ} {t : τ} (a : α) : R s t → Corresponds R (.ok a s) (.ok a t)
  | error {s : σ} {t : τ} (e : ε) : R s t → Corresponds R (.error e s) (.error e t)

/-- From related states the two programs end alike. -/
def Simulates (R : σ → τ → Prop) (m : EStateM ε σ α) (m' : EStateM ε τ α) : Prop :=
  ∀ s t, R s t → Corresponds R (m.run s) (m'.run t)

theorem Corresponds.finalState {R : σ → τ → Prop} {r : Result ε σ α} {r' : Result ε τ α}
    (h : Corresponds R r r') : R (finalState r) (NewsChain.finalState r') := by
  cases h with
  | ok a hst => exact hst
  | error e hst => exact hst

namespace Simulates

variable {R : σ → τ → Prop}

theorem pure (a : α) : Simulates R (pure a : EStateM ε σ α) (pure a) := by
  intro s t hst
  exact .ok a hst

theorem throw (e : ε) : Simulates R (throw e : EStateM ε σ α) (throw e) := by
  intro s t hst
  exact .error e hst

theorem bind {m : EStateM ε σ α} {m' : EStateM ε τ α} {f : α → EStateM ε σ β}
    {f' : α → EStateM ε τ β} (hm : Simulates R m m') (hf : ∀ a, Simulates R (f a) (f' a)) :
    Simulates R (m >>= f) (m' >>= f') := by
  intro s t hst
  have hfirst := hm s t hst
  rw [EStateM.run_bind, EStateM.run_bind]
  cases hrun : m.run s with
  | ok a s' =>
    rw [hrun] at hfirst
    generalize m'.run t = r' at hfirst
    cases hfirst with
    | ok _ hnext => exact hf a s' _ hnext
  | error e s' =>
    rw [hrun] at hfirst
    generalize m'.run t = r' at hfirst
    cases hfirst with
    | error _ hend => exact .error e hend

theorem tryCatch {m : EStateM ε σ α} {m' : EStateM ε τ α} {h : ε → EStateM ε σ α}
    {h' : ε → EStateM ε τ α} (hm : Simulates R m m') (hh : ∀ e, Simulates R (h e) (h' e)) :
    Simulates R (tryCatch m h) (tryCatch m' h') := by
  intro s t hst
  have hfirst := hm s t hst
  rw [run_tryCatch, run_tryCatch]
  cases hrun : m.run s with
  | ok a s' =>
    rw [hrun] at hfirst
    generalize m'.run t = r' at hfirst
    cases hfirst with
    | ok _ hend => exact .ok a hend
  | error e s' =>
    rw [hrun] at hfirst
    generalize m'.run t = r' at hfirst
    cases hfirst with
    | error _ hnext => exact hh e s' _ hnext

end Simulates

/-! ## Scopes -/

/-- What becomes of the snapshot of a scope whose body came to its end. -/
inductive Finish
  | push
  | squash
  | undo
deriving DecidableEq

namespace Snapshots

/-- The end of a scope. -/
def finish : Finish → Snapshots σ → Snapshots σ
  | .push, s => s
  | .squash, s => s.squash
  | .undo, s => s.undo

/-- A scope, on the stack. -/
def scope (f : Finish) (m : EStateM ε (Snapshots σ) α) : EStateM ε (Snapshots σ) α := do
  modify start
  let a ← tryCatch m fun e => do
    modify undo
    throw e
  modify (finish f)
  pure a

/-- A program on the present content, on the stack. -/
def onContent (m : EStateM ε σ α) : EStateM ε (Snapshots σ) α := fun s =>
  match m.run s.content with
  | .ok a c => .ok a (s.put c)
  | .error e c => .error e (s.put c)

/-- The stacks of the components of a content. -/
def map (g : σ → τ) (s : Snapshots σ) : Snapshots τ where
  content := g s.content
  frames := s.frames.map fun f => ⟨f.revision, g f.saved⟩
  revision := s.revision

variable (g : σ → τ) (s : Snapshots σ)

@[simp] theorem map_content : (s.map g).content = g s.content := rfl
@[simp] theorem map_revision : (s.map g).revision = s.revision := rfl

theorem length_map_frames : (s.map g).frames.length = s.frames.length := List.length_map _

theorem map_undo : (s.map g).undo = s.undo.map g := by
  obtain ⟨content, frames, revision⟩ := s
  cases frames with
  | nil => rfl
  | cons f fs => rfl

theorem map_squash : (s.map g).squash = s.squash.map g := by
  obtain ⟨content, frames, revision⟩ := s
  match frames with
  | [] => rfl
  | [f] => rfl
  | f :: f' :: fs => rfl

theorem map_commit (r : Int) : (s.map g).commit r = (s.commit r).map g := by
  have hframes : (s.map g).frames.rdropWhile (fun f => f.revision ≤ r) =
      (s.frames.rdropWhile fun f => f.revision ≤ r).map fun f => ⟨f.revision, g f.saved⟩ := by
    rw [map, List.rdropWhile, List.rdropWhile, ← List.map_reverse, List.dropWhile_map,
      List.map_reverse]
    rfl
  rw [commit, hframes]
  rfl

theorem map_undoAll : (s.map g).undoAll = s.undoAll.map g := by
  rw [undoAll, undoAll, length_map_frames]
  induction s.frames.length generalizing s with
  | zero => rfl
  | succ n ih => rw [Function.iterate_succ_apply, Function.iterate_succ_apply, map_undo, ih]

end Snapshots

/-- A scope, on a content: if the body throws, or is not wanted, nothing happened. -/
def allOrNothing (f : Finish) (m : EStateM ε σ α) : EStateM ε σ α := fun c =>
  match m.run c with
  | .ok a c' => .ok a (if f = .undo then c else c')
  | .error e _ => .error e c

/-! ## Reading a program without the stack -/

/-- `M` does to the present content what `m` does. It leaves the snapshots, and where there is one it
leaves the counter. -/
def Lifts (m : EStateM ε σ α) (M : EStateM ε (Snapshots σ) α) : Prop :=
  ∀ s : Snapshots σ, ∃ r : Int, (s.frames ≠ [] → r = s.revision) ∧ s.revision ≤ r ∧
    M.run s = (Snapshots.onContent m).run { s with revision := r }

namespace Lifts

theorem onContent (m : EStateM ε σ α) : Lifts m (Snapshots.onContent m) := fun s =>
  ⟨s.revision, fun _ => rfl, Int.le_refl _, rfl⟩

theorem pure (a : α) : Lifts (pure a : EStateM ε σ α) (pure a) := fun s =>
  ⟨s.revision, fun _ => rfl, Int.le_refl _, rfl⟩

theorem throw (e : ε) : Lifts (throw e : EStateM ε σ α) (throw e) := fun s =>
  ⟨s.revision, fun _ => rfl, Int.le_refl _, rfl⟩

theorem run_onContent (m : EStateM ε σ α) (s : Snapshots σ) :
    (Snapshots.onContent m).run s =
      match m.run s.content with
      | .ok a c => .ok a (s.put c)
      | .error e c => .error e (s.put c) := rfl

theorem bind {m : EStateM ε σ α} {M : EStateM ε (Snapshots σ) α} {f : α → EStateM ε σ β}
    {F : α → EStateM ε (Snapshots σ) β} (hm : Lifts m M) (hf : ∀ a, Lifts (f a) (F a)) :
    Lifts (m >>= f) (M >>= F) := by
  intro s
  obtain ⟨r, hkeep, hle, hrun⟩ := hm s
  rw [EStateM.run_bind, hrun, run_onContent]
  cases hfirst : m.run s.content with
  | ok a c =>
    obtain ⟨r', hkeep', hle', hrun'⟩ := hf a ({ s with revision := r }.put c)
    refine ⟨r', fun hne => (hkeep' hne).trans (hkeep hne), Int.le_trans hle hle', ?_⟩
    rw [run_onContent, EStateM.run_bind, hfirst]
    exact hrun'
  | error e c =>
    refine ⟨r, hkeep, hle, ?_⟩
    rw [run_onContent, EStateM.run_bind, hfirst]

theorem tryCatch {m : EStateM ε σ α} {M : EStateM ε (Snapshots σ) α} {h : ε → EStateM ε σ α}
    {H : ε → EStateM ε (Snapshots σ) α} (hm : Lifts m M) (hh : ∀ e, Lifts (h e) (H e)) :
    Lifts (tryCatch m h) (tryCatch M H) := by
  intro s
  obtain ⟨r, hkeep, hle, hrun⟩ := hm s
  rw [run_tryCatch, hrun, run_onContent]
  cases hfirst : m.run s.content with
  | ok a c =>
    refine ⟨r, hkeep, hle, ?_⟩
    rw [run_onContent, run_tryCatch, hfirst]
  | error e c =>
    obtain ⟨r', hkeep', hle', hrun'⟩ := hh e ({ s with revision := r }.put c)
    refine ⟨r', fun hne => (hkeep' hne).trans (hkeep hne), Int.le_trans hle hle', ?_⟩
    rw [run_onContent, run_tryCatch, hfirst]
    exact hrun'

/-- A read of the content. -/
theorem read {f : σ → EStateM ε σ α} {F : σ → EStateM ε (Snapshots σ) α}
    (hf : ∀ c, Lifts (f c) (F c)) :
    Lifts (get >>= f) (get >>= fun s => F s.content) := fun s => hf s.content s

end Lifts

/-- What a scope does whose body lifts. -/
theorem Snapshots.run_scope {m : EStateM ε σ α} {M : EStateM ε (Snapshots σ) α} (hm : Lifts m M) (f : Finish)
    (s : Snapshots σ) : (Snapshots.scope f M).run s =
      match m.run s.content with
      | .ok a c => .ok a ((s.start.put c).finish f)
      | .error e _ => .error e s := by
  obtain ⟨r, hkeep, -, hrun⟩ := hm s.start
  obtain rfl := hkeep (List.cons_ne_nil _ _)
  rw [Lifts.run_onContent] at hrun
  have hbody : (tryCatch M fun e => do
      modify Snapshots.undo
      throw e : EStateM ε (Snapshots σ) α).run s.start =
        match m.run s.content with
        | .ok a c => .ok a (s.start.put c)
        | .error e _ => .error e s := by
    have hcontent : s.start.content = s.content := rfl
    rw [run_tryCatch, hrun, hcontent]
    cases m.run s.content with
    | ok a c => rfl
    | error e c => exact congrArg (Result.error e) (s.undo_put_start c)
  change ((tryCatch M fun e => do
      modify Snapshots.undo
      throw e : EStateM ε (Snapshots σ) α) >>= fun a => do
        modify (Snapshots.finish f)
        Pure.pure a).run s.start = _
  rw [EStateM.run_bind, hbody]
  cases m.run s.content with
  | ok a c => rfl
  | error e c => rfl

namespace Lifts

/-- **A scope** that does not leave its snapshot on the stack is all or nothing. -/
theorem scope {m : EStateM ε σ α} {M : EStateM ε (Snapshots σ) α} (hm : Lifts m M) {f : Finish}
    (hf : f ≠ .push) : Lifts (allOrNothing f m) (Snapshots.scope f M) := by
  intro s
  rw [Snapshots.run_scope hm]
  have hmeaning : (allOrNothing f m).run s.content =
      match m.run s.content with
      | .ok a c' => .ok a (if f = .undo then s.content else c')
      | .error e _ => .error e s.content := rfl
  simp only [run_onContent, hmeaning]
  cases m.run s.content with
  | error e c => exact ⟨s.revision, fun _ => rfl, Int.le_refl _, rfl⟩
  | ok a c =>
    cases f with
    | push => exact absurd rfl hf
    | undo =>
      exact ⟨s.revision, fun _ => rfl, Int.le_refl _, congrArg (Result.ok a) (s.undo_put_start c)⟩
    | squash =>
      simp only [reduceCtorEq, if_false]
      obtain ⟨content, frames, revision⟩ := s
      cases frames with
      | nil => exact ⟨revision + 1, fun hne => absurd rfl hne, Int.le_add_one (Int.le_refl _), rfl⟩
      | cons g gs =>
        have hsquash : ((Snapshots.mk content (g :: gs) revision).start.put c).squash =
            (Snapshots.mk content (g :: gs) revision).put c := Snapshots.squash_put_start rfl c
        exact ⟨revision, fun _ => rfl, Int.le_refl _, congrArg (Result.ok a) hsquash⟩

end Lifts

end NewsChain
