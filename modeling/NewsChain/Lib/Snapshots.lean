import Mathlib.Data.List.DropRight
import Mathlib.Logic.Function.Iterate

/-!
# A stack of snapshots

The machine an undo log stands for: the present content, the full contents it had when each open
session started, newest first, and a revision counter. Each snapshot carries the revision its
session was given.

`undo` goes back to the newest snapshot and drops it, `squash` drops it and keeps the present
content, `commit r` drops from the oldest end the snapshots whose revision is at most `r`. On an
empty stack `undo` and `squash` do nothing.

The counter follows the sessions up and down with one exception, kept because the counter decides
what a later `commit` drops: `squash` of the only snapshot does not lower it.
-/

namespace NewsChain

variable {σ : Type}

/-- Dropping from the end stops at the first element that stays. -/
theorem rdropWhile_cons {α : Type} (p : α → Bool) (a : α) (l : List α) :
    (a :: l).rdropWhile p =
      if l.rdropWhile p = [] then (if p a then [] else [a]) else a :: l.rdropWhile p := by
  simp only [List.rdropWhile, List.reverse_cons, List.dropWhile_append, List.reverse_eq_nil_iff,
    List.isEmpty_iff]
  split
  · by_cases hp : p a <;> simp [hp]
  · simp

/-- One snapshot: the content saved and the revision of the session that saved it. -/
structure Frame (σ : Type) where
  revision : Int
  saved : σ

/-- The present content over the snapshots of the open sessions, newest first. -/
structure Snapshots (σ : Type) where
  content : σ
  frames : List (Frame σ) := []
  revision : Int := 0

namespace Snapshots

def start (s : Snapshots σ) : Snapshots σ :=
  { s with frames := ⟨s.revision + 1, s.content⟩ :: s.frames, revision := s.revision + 1 }

def undo (s : Snapshots σ) : Snapshots σ :=
  match s.frames with
  | [] => s
  | f :: fs => { content := f.saved, frames := fs, revision := s.revision - 1 }

def squash (s : Snapshots σ) : Snapshots σ :=
  match s.frames with
  | [] => s
  | [_] => { s with frames := [] }
  | _ :: f :: fs => { s with frames := f :: fs, revision := s.revision - 1 }

def commit (r : Int) (s : Snapshots σ) : Snapshots σ :=
  { s with frames := s.frames.rdropWhile (fun f => f.revision ≤ r) }

def undoAll (s : Snapshots σ) : Snapshots σ := undo^[s.frames.length] s

/-- The counter alone, where no session is open. -/
def setRevision (r : Int) (s : Snapshots σ) : Snapshots σ := { s with revision := r }

/-- The present content replaced. -/
def put (s : Snapshots σ) (c : σ) : Snapshots σ := { s with content := c }

@[simp] theorem put_content (s : Snapshots σ) (c : σ) : (s.put c).content = c := rfl
@[simp] theorem put_frames (s : Snapshots σ) (c : σ) : (s.put c).frames = s.frames := rfl
@[simp] theorem put_revision (s : Snapshots σ) (c : σ) : (s.put c).revision = s.revision := rfl
@[simp] theorem put_put (s : Snapshots σ) (c d : σ) : (s.put c).put d = s.put d := rfl
@[simp] theorem put_self (s : Snapshots σ) : s.put s.content = s := rfl

@[simp] theorem commit_content (r : Int) (s : Snapshots σ) : (s.commit r).content = s.content := rfl
@[simp] theorem commit_revision (r : Int) (s : Snapshots σ) :
    (s.commit r).revision = s.revision := rfl

/-- A session that is undone leaves no trace, whatever became of the content meanwhile. -/
@[simp] theorem undo_put_start (s : Snapshots σ) (c : σ) : (s.start.put c).undo = s := by
  simp [undo, start, put]

/-- Squashing a session opened over another keeps the content and the outer snapshot. -/
theorem squash_put_start {s : Snapshots σ} {f : Frame σ} {fs : List (Frame σ)}
    (h : s.frames = f :: fs) (c : σ) : (s.start.put c).squash = s.put c := by
  simp [squash, start, put, h]

/-! ## Snapshots along a history -/

variable {β : Type} {I : List β → σ → Prop} {h : List β} {s : Snapshots σ}

/-- The saved contents belong to the ends of a history, each one step shorter than the last. -/
def FramesTrack (I : List β → σ → Prop) : List β → List (Frame σ) → Prop
  | _, [] => True
  | [], _ :: _ => False
  | _ :: h, f :: fs => I h f.saved ∧ FramesTrack I h fs

/-- The contents a stack can go back to are those of a history, newest first: `I` says which
contents belong to which history. -/
structure Tracks (I : List β → σ → Prop) (h : List β) (s : Snapshots σ) : Prop where
  content : I h s.content
  frames : FramesTrack I h s.frames

theorem FramesTrack.of_prefix {fs fs' : List (Frame σ)} (ht : FramesTrack I h fs)
    (hp : fs' <+: fs) : FramesTrack I h fs' := by
  induction fs' generalizing h fs with
  | nil => cases h <;> trivial
  | cons f fs' ih =>
    obtain ⟨rest, rfl⟩ := hp
    cases h with
    | nil => exact ht
    | cons b h => exact ⟨ht.1, ih ht.2 ⟨rest, rfl⟩⟩

/-- What a snapshot saved, by its depth. -/
theorem FramesTrack.getElem {fs : List (Frame σ)} (ht : FramesTrack I h fs) {k : Nat} {f : Frame σ}
    (hf : fs[k]? = some f) : I (h.drop (k + 1)) f.saved := by
  induction fs generalizing h k with
  | nil => simp at hf
  | cons g fs ih =>
    cases h with
    | nil => exact ht.elim
    | cons b h =>
      cases k with
      | zero =>
        obtain rfl : g = f := by simpa using hf
        exact ht.1
      | succ k => exact ih ht.2 (by simpa using hf)

namespace Tracks

/-- A stack with no session open tracks the empty history. -/
theorem initial {c : σ} (hc : I [] c) : Tracks I [] { content := c } := ⟨hc, trivial⟩

/-- A session whose content is one step further tracks the longer history. -/
theorem put_start (ht : Tracks I h s) {b : β} {c : σ} (hc : I (b :: h) c) :
    Tracks I (b :: h) (s.start.put c) := ⟨hc, ht.content, ht.frames⟩

theorem commit (ht : Tracks I h s) (r : Int) : Tracks I h (s.commit r) :=
  ⟨ht.content, ht.frames.of_prefix (List.rdropWhile_prefix _ _)⟩

/-- Where there is a snapshot the history has a step to go back. -/
theorem undo {b : β} (ht : Tracks I (b :: h) s) (hs : s.frames ≠ []) : Tracks I h s.undo := by
  obtain ⟨hc, hf⟩ := ht
  unfold Snapshots.undo
  cases hframes : s.frames with
  | nil => exact absurd hframes hs
  | cons f fs =>
    rw [hframes] at hf
    exact ⟨hf.1, hf.2⟩

end Tracks

end Snapshots

end NewsChain
