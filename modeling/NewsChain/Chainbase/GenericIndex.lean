import NewsChain.Base.Exception
import NewsChain.Chainbase.Table
import NewsChain.Lib.Snapshots

/-!
# The undo log of chainbase

`generic_index` records what each open session changes instead of copying what it holds. An
`UndoState` names the objects its session created, and keeps the first old value of those it
modified and of those it removed. `undo` plays the newest record backwards, `squash` merges it into
the one below, `commit` forgets from the oldest end.

`UndoOp` is the interface as data. `GenericIndex.step` runs an operation on the undo log,
`Snapshots.step` runs it on full copies; `Laws/UndoStore.lean` shows that the two agree.
-/

namespace NewsChain

variable {V : Type}

/-- `std::map::emplace`: a key that is there keeps its value. -/
def IdMap.emplace (m : IdMap V) (i : Nat) (v : V) : IdMap V :=
  if (m.get? i).isSome then m else m.insert i v

/-- `undo_state`. -/
structure UndoState (V : Type) where
  oldValues : IdMap V := .empty
  removedValues : IdMap V := .empty
  newIds : IdMap Unit := .empty
  oldNextId : Nat
  revision : Int

namespace UndoState

/-- `on_create`. -/
def onCreate (head : UndoState V) (i : Nat) : UndoState V :=
  { head with newIds := head.newIds.insert i () }

/-- `on_modify`. -/
def onModify (head : UndoState V) (i : Nat) (v : V) : UndoState V :=
  if (head.newIds.get? i).isSome then head
  else if (head.oldValues.get? i).isSome then head
  else { head with oldValues := head.oldValues.emplace i v }

/-- `on_remove`. -/
def onRemove (head : UndoState V) (i : Nat) (v : V) : UndoState V :=
  if (head.newIds.get? i).isSome then { head with newIds := head.newIds.erase i }
  else
    match head.oldValues.get? i with
    | some x =>
      { head with
        removedValues := head.removedValues.emplace i x
        oldValues := head.oldValues.erase i }
    | none =>
      if (head.removedValues.get? i).isSome then head
      else { head with removedValues := head.removedValues.emplace i v }

/-- The first loop of `squash`: an old value of the newer state. -/
def mergeOld (prev : UndoState V) (item : Nat × V) : UndoState V :=
  if (prev.newIds.get? item.1).isSome then prev
  else if (prev.oldValues.get? item.1).isSome then prev
  else { prev with oldValues := prev.oldValues.emplace item.1 item.2 }

/-- The second loop of `squash`: a new id of the newer state. -/
def mergeNew (prev : UndoState V) (item : Nat × Unit) : UndoState V :=
  { prev with newIds := prev.newIds.insert item.1 () }

/-- The third loop of `squash`: a removed value of the newer state. -/
def mergeRemoved (prev : UndoState V) (item : Nat × V) : UndoState V :=
  if (prev.newIds.get? item.1).isSome then { prev with newIds := prev.newIds.erase item.1 }
  else
    match prev.oldValues.get? item.1 with
    | some x =>
      { prev with
        removedValues := prev.removedValues.emplace item.1 x
        oldValues := prev.oldValues.erase item.1 }
    | none => { prev with removedValues := prev.removedValues.emplace item.1 item.2 }

/-- The three loops of `squash`, merging the newer state into the older one. -/
def merge (prev state : UndoState V) : UndoState V :=
  state.removedValues.rows.foldl mergeRemoved
    (state.newIds.rows.foldl mergeNew (state.oldValues.rows.foldl mergeOld prev))

end UndoState

variable [Indexed V]

/-- `generic_index`. The stack has its back, the newest state, first. -/
structure GenericIndex (V : Type) [Indexed V] where
  indices : Table V := .empty
  nextId : Nat := 0
  stack : List (UndoState V) := []
  revision : Int := 0

/-- The loop of `undo` over the old values. -/
def restoreOld : List (Nat × V) → Table V → Except Exc (Table V)
  | [], t => .ok t
  | r :: rest, t =>
    match t.replace r.1 r.2 with
    | some t' => restoreOld rest t'
    | none => .error (.logicError
        "Could not modify object, most likely a uniqueness constraint was violated")

/-- The loop of `undo` over the new ids. -/
def eraseNew : List (Nat × Unit) → Table V → Except Exc (Table V)
  | [], t => .ok t
  | r :: rest, t =>
    match t.get? r.1 with
    | some _ => eraseNew rest (t.erase r.1)
    | none => .error (.undefinedBehavior "_indices.erase( _indices.end() )")

/-- The loop of `undo` over the removed values. -/
def restoreRemoved : List (Nat × V) → Table V → Except Exc (Table V)
  | [], t => .ok t
  | r :: rest, t =>
    match t.emplace r.1 r.2 with
    | some t' => restoreRemoved rest t'
    | none => .error (.logicError
        "Could not restore object, most likely a uniqueness constraint was violated")

namespace GenericIndex

/-- The newest undo state, rewritten; nothing is recorded without a session. -/
def record (g : GenericIndex V) (f : UndoState V → UndoState V) : GenericIndex V :=
  match g.stack with
  | [] => g
  | head :: rest => { g with stack := f head :: rest }

/-- `emplace`. -/
def emplace (g : GenericIndex V) (v : V) : Except Exc (GenericIndex V) :=
  match g.indices.emplace g.nextId v with
  | none => .error (.logicError
      "could not insert object, most likely a uniqueness constraint was violated")
  | some t => .ok (({ g with indices := t, nextId := g.nextId + 1 }).record (·.onCreate g.nextId))

/-- `modify`. The object is there: the caller holds a reference to it. -/
def modify (g : GenericIndex V) (i : Nat) (m : Modifier V) : Except Exc (GenericIndex V) :=
  match g.indices.get? i with
  | none => .error (.undefinedBehavior "_indices.iterator_to( obj )")
  | some v => .ok { g.record (·.onModify i v) with indices := g.indices.modify i m }

/-- `remove`. The object is there: the caller holds a reference to it. -/
def remove (g : GenericIndex V) (i : Nat) : Except Exc (GenericIndex V) :=
  match g.indices.get? i with
  | none => .error (.undefinedBehavior "_indices.iterator_to( obj )")
  | some v => .ok { g.record (·.onRemove i v) with indices := g.indices.erase i }

/-- `start_undo_session`. -/
def startUndoSession (g : GenericIndex V) : GenericIndex V :=
  { g with
    stack := { oldNextId := g.nextId, revision := g.revision + 1 } :: g.stack
    revision := g.revision + 1 }

/-- `undo`. -/
def undo (g : GenericIndex V) : Except Exc (GenericIndex V) :=
  match g.stack with
  | [] => .ok g
  | head :: rest => do
    let t ← restoreOld head.oldValues.rows g.indices
    let t ← eraseNew head.newIds.rows t
    let t ← restoreRemoved head.removedValues.rows t
    .ok { indices := t, nextId := head.oldNextId, stack := rest, revision := g.revision - 1 }

/-- `squash`. -/
def squash (g : GenericIndex V) : GenericIndex V :=
  match g.stack with
  | [] => g
  | [_] => { g with stack := [] }
  | state :: prev :: rest =>
    { g with stack := prev.merge state :: rest, revision := g.revision - 1 }

/-- `commit`. -/
def commit (g : GenericIndex V) (revision : Int) : GenericIndex V :=
  { g with stack := g.stack.rdropWhile fun s => s.revision ≤ revision }

/-- The loop of `undo_all`; every round takes one state off the stack. -/
def undoRounds : Nat → GenericIndex V → Except Exc (GenericIndex V)
  | 0, g => .ok g
  | rounds + 1, g => do undoRounds rounds (← g.undo)

/-- `undo_all`. -/
def undoAll (g : GenericIndex V) : Except Exc (GenericIndex V) := undoRounds g.stack.length g

end GenericIndex

/-! ## The interface as data -/

/-- The operations of a `generic_index`. -/
inductive UndoOp (V : Type) [Indexed V]
  | emplace (v : V)
  | modify (i : Nat) (m : Modifier V)
  | remove (i : Nat)
  | startUndoSession
  | undo
  | squash
  | commit (revision : Int)
  | undoAll

/-- One operation on the undo log. -/
def GenericIndex.step (g : GenericIndex V) : UndoOp V → Except Exc (GenericIndex V)
  | .emplace v => g.emplace v
  | .modify i m => g.modify i m
  | .remove i => g.remove i
  | .startUndoSession => .ok g.startUndoSession
  | .undo => g.undo
  | .squash => .ok g.squash
  | .commit r => .ok (g.commit r)
  | .undoAll => g.undoAll

/-- The index after an operation. One that is refused changes nothing. -/
def GenericIndex.after (g : GenericIndex V) (op : UndoOp V) : GenericIndex V :=
  match g.step op with
  | .ok g' => g'
  | .error _ => g

/-- One operation on full snapshots of the container and the next id. -/
def Snapshots.step (s : Snapshots (Content V)) : UndoOp V → Snapshots (Content V)
  | .emplace v => s.put ((s.content.emplace v).getD s.content)
  | .modify i m => s.put (s.content.modify i m)
  | .remove i => s.put (s.content.erase i)
  | .startUndoSession => s.start
  | .undo => s.undo
  | .squash => s.squash
  | .commit r => s.commit r
  | .undoAll => s.undoAll

end NewsChain
