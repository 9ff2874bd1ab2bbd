import NewsChain.Chainbase.GenericIndex
import NewsChain.Lib.Scopes

/-!
# The sessions of chainbase

A database has one index for each type of object, every one with an undo stack of its own. A session of
the database is a session on each of them. It is pushed, squashed or undone, which goes through the
indexes in the order of `_index_list`; if it is none of these when it goes out of scope, it is undone.

`ι` names the types. A session object is a value; a program keeps it in a scope (`Prog`), or wherever
it likes (`SessionCall`).
-/

namespace NewsChain

variable {ι : Type} [DecidableEq ι] {V : ι → Type} [∀ i, Indexed (V i)]

/-- `_index_list`. `add_index_helper` refuses a type that has an index. -/
structure IndexList (ι : Type) where
  list : List ι
  nodup : list.Nodup
  all : ∀ i, i ∈ list

/-- `database`, as far as it is indexes. -/
structure ChainbaseStore (V : ι → Type) [∀ i, Indexed (V i)] where
  index : (i : ι) → GenericIndex (V i) := fun _ => {}
  undoSessionCount : Int := 0

abbrev StoreM (V : ι → Type) [∀ i, Indexed (V i)] := EStateM Exc (ChainbaseStore V)

/-- `generic_index::session`, of an index. -/
structure IndexSession (ι : Type) where
  index : ι
  apply : Bool
  revision : Int := 0

/-- `database::session`. -/
structure Session (ι : Type) where
  indexSessions : List (IndexSession ι)
  revision : Int

/-- A call on one of the indexes. -/
def callIndex (i : ι) (f : GenericIndex (V i) → Except Exc (GenericIndex (V i))) : StoreM V Unit := do
  let x ← get
  match f (x.index i) with
  | .ok g => set { x with index := Function.update x.index i g }
  | .error e => throw e

namespace IndexSession

variable (s : IndexSession ι)

/-- What ends a session is done once. -/
def once (f : GenericIndex (V s.index) → Except Exc (GenericIndex (V s.index))) : StoreM V Unit :=
  if s.apply then callIndex s.index f else pure ()

/-- `squash`. -/
def squash : StoreM V Unit := s.once fun g => .ok g.squash

/-- `undo`. -/
def undo : StoreM V Unit := s.once (·.undo)

end IndexSession

/-- `index_impl::start_undo_session`. The session is moved into the `session_impl`, and the move
constructor takes `_apply` along and leaves `_revision`. -/
def startIndexSession (i : ι) : StoreM V (IndexSession ι) := do
  callIndex (V := V) i fun g => .ok g.startUndoSession
  let x ← get
  pure { index := i, apply := (x.index i).revision ≠ -1 }

/-- `database::start_undo_session`. -/
def startUndoSession (l : IndexList ι) : StoreM V (Session ι) := do
  let indexSessions ← l.list.mapM (startIndexSession (V := V))
  modify fun x => { x with undoSessionCount := x.undoSessionCount + 1 }
  pure { indexSessions, revision := (indexSessions.head?.map (·.revision)).getD (-1) }

namespace Session

variable (s : Session ι)

/-- `push`: nothing is done to the indexes, nor when the sessions on them go. -/
def push : StoreM V (Session ι) := pure { s with indexSessions := [] }

/-- `squash`. The sessions on the indexes are dropped, and have nothing left to do. -/
def squash : StoreM V (Session ι) := do
  forM s.indexSessions (·.squash (V := V))
  pure { s with indexSessions := [] }

/-- `undo`. -/
def undo : StoreM V (Session ι) := do
  forM s.indexSessions (·.undo (V := V))
  pure { s with indexSessions := [] }

/-- `~session`. -/
def destroy : StoreM V Unit := do
  let _ ← s.undo (V := V)
  modify fun x => { x with undoSessionCount := x.undoSessionCount - 1 }

/-- The member that a scope calls at its end. -/
def finish : Finish → StoreM V (Session ι)
  | .push => s.push
  | .squash => s.squash
  | .undo => s.undo

end Session

/-- `{ auto s = start_undo_session(); m; s.f(); }` -/
def sessionScope {α : Type} (l : IndexList ι) (f : Finish) (m : StoreM V α) : StoreM V α := do
  let s ← startUndoSession l
  let a ← tryCatch m fun e => do
    s.destroy
    throw e
  let s ← s.finish f
  s.destroy
  pure a

/-! ## Calls on the database -/

/-- A call on every index, in order. -/
def callEach (l : IndexList ι) (f : (i : ι) → GenericIndex (V i) → Except Exc (GenericIndex (V i))) :
    StoreM V Unit := forM l.list fun i => callIndex i (f i)

/-- `database::undo`. -/
def undoLast (l : IndexList ι) : StoreM V Unit := callEach l fun _ g => g.undo

/-- `database::squash`. -/
def squashLast (l : IndexList ι) : StoreM V Unit := callEach l fun _ g => .ok g.squash

/-- `database::commit`. -/
def commitTo (l : IndexList ι) (revision : Int) : StoreM V Unit :=
  callEach l fun _ g => .ok (g.commit revision)

/-- `database::undo_all`. -/
def undoAllOf (l : IndexList ι) : StoreM V Unit := callEach l fun _ g => g.undoAll

/-- `generic_index::set_revision`. -/
def GenericIndex.setRevision {W : Type} [Indexed W] (g : GenericIndex W) (revision : Int) :
    Except Exc (GenericIndex W) :=
  if g.stack.length ≠ 0 then
    .error (.logicError "cannot set revision while there is an existing undo stack")
  else .ok { g with revision }

/-- `database::set_revision`. -/
def setRevisionOf (l : IndexList ι) (revision : Int) : StoreM V Unit :=
  callEach l fun _ g => g.setRevision revision

/-! ## Programs -/

/-- What the indexes hold. -/
abbrev Contents (V : ι → Type) [∀ i, Indexed (V i)] := (i : ι) → Content (V i)

def ChainbaseStore.contents (x : ChainbaseStore V) : Contents V := fun i =>
  ⟨(x.index i).indices, (x.index i).nextId⟩

/-- Code on a database. What it does next may depend on what it reads. -/
inductive Prog (V : ι → Type) [∀ i, Indexed (V i)]
  | pass
  | create (i : ι) (v : V i)
  | modify (i : ι) (id : Nat) (m : Modifier (V i))
  | remove (i : ι) (id : Nat)
  | throw (e : Exc)
  | read (next : Contents V → Prog V)
  | seq (p q : Prog V)
  | tryCatch (p : Prog V) (handler : Exc → Prog V)
  | scope (f : Finish) (p : Prog V)

/-- The program run on the undo logs. -/
def Prog.exec (l : IndexList ι) : Prog V → StoreM V Unit
  | .pass => Pure.pure ()
  | .create i v => callIndex i (·.emplace v)
  | .modify i id m => callIndex i (·.modify id m)
  | .remove i id => callIndex i (·.remove id)
  | .throw e => MonadExcept.throw e
  | .read next => do
    let x ← get
    (next x.contents).exec l
  | .seq p q => do
    p.exec l
    q.exec l
  | .tryCatch p handler => MonadExcept.tryCatch (p.exec l) fun e => (handler e).exec l
  | .scope f p => sessionScope l f (p.exec l)

/-! ## Session objects -/

/-- A call on the database or on one of the sessions a program holds. -/
inductive SessionCall (V : ι → Type) [∀ i, Indexed (V i)]
  | create (i : ι) (v : V i)
  | modify (i : ι) (id : Nat) (m : Modifier (V i))
  | remove (i : ι) (id : Nat)
  | start
  | push (k : Nat)
  | squash (k : Nat)
  | undo (k : Nat)
  | destroy (k : Nat)
  | undoLast
  | squashLast
  | commit (revision : Int)
  | undoAll
  | setRevision (revision : Int)

/-- The database and the sessions that are held, the latest first. -/
structure Workspace (V : ι → Type) [∀ i, Indexed (V i)] where
  store : ChainbaseStore V := {}
  sessions : List (Session ι) := []

namespace Workspace

variable (w : Workspace V)

/-- A call that leaves the sessions. One that throws leaves the database as it was then. -/
def call (m : StoreM V Unit) : Workspace V := { w with store := finalState (m.run w.store) }

/-- A call on the session at a place. -/
def onSession (k : Nat) (m : Session ι → StoreM V (Session ι)) : Workspace V :=
  match w.sessions[k]? with
  | none => w
  | some s =>
    match (m s).run w.store with
    | .ok s' x => { store := x, sessions := w.sessions.set k s' }
    | .error _ x => { w with store := x }

/-- One call. -/
def step (l : IndexList ι) : SessionCall V → Workspace V
  | .create i v => w.call (callIndex i (·.emplace v))
  | .modify i id m => w.call (callIndex i (·.modify id m))
  | .remove i id => w.call (callIndex i (·.remove id))
  | .start =>
    match (startUndoSession l).run w.store with
    | .ok s x => { store := x, sessions := s :: w.sessions }
    | .error _ x => { w with store := x }
  | .push k => w.onSession k (·.push)
  | .squash k => w.onSession k (·.squash)
  | .undo k => w.onSession k (·.undo)
  | .destroy k =>
    match w.sessions[k]? with
    | none => w
    | some s => { store := finalState (s.destroy.run w.store), sessions := w.sessions.eraseIdx k }
  | .undoLast => w.call (NewsChain.undoLast l)
  | .squashLast => w.call (NewsChain.squashLast l)
  | .commit r => w.call (commitTo l r)
  | .undoAll => w.call (undoAllOf l)
  | .setRevision r => w.call (setRevisionOf l r)

/-- Calls one after the other on a new database. -/
def run (l : IndexList ι) (calls : List (SessionCall V)) : Workspace V :=
  calls.foldl (fun w c => w.step l c) {}

end Workspace

/-! ## The same on one stack -/

/-- `emplace`, on what the indexes hold. -/
def createIn (i : ι) (v : V i) : EStateM Exc (Contents V) Unit := fun c =>
  match (c i).emplace v with
  | some c' => .ok () (Function.update c i c')
  | none => .error (.logicError
      "could not insert object, most likely a uniqueness constraint was violated") c

/-- `modify`, on what the indexes hold. -/
def modifyIn (i : ι) (id : Nat) (m : Modifier (V i)) : EStateM Exc (Contents V) Unit := fun c =>
  match (c i).table.get? id with
  | some _ => .ok () (Function.update c i ((c i).modify id m))
  | none => .error (.undefinedBehavior "_indices.iterator_to( obj )") c

/-- `remove`, on what the indexes hold. -/
def removeIn (i : ι) (id : Nat) : EStateM Exc (Contents V) Unit := fun c =>
  match (c i).table.get? id with
  | some _ => .ok () (Function.update c i ((c i).erase id))
  | none => .error (.undefinedBehavior "_indices.iterator_to( obj )") c

/-- The program on one stack of snapshots. -/
def Prog.onSnapshots : Prog V → EStateM Exc (Snapshots (Contents V)) Unit
  | .pass => Pure.pure ()
  | .create i v => Snapshots.onContent (createIn i v)
  | .modify i id m => Snapshots.onContent (modifyIn i id m)
  | .remove i id => Snapshots.onContent (removeIn i id)
  | .throw e => MonadExcept.throw e
  | .read next => do
    let s ← get
    (next s.content).onSnapshots
  | .seq p q => do
    p.onSnapshots
    q.onSnapshots
  | .tryCatch p handler => MonadExcept.tryCatch p.onSnapshots fun e => (handler e).onSnapshots
  | .scope f p => Snapshots.scope f p.onSnapshots

/-- **What a program means**, without a stack. -/
def Prog.meaning : Prog V → EStateM Exc (Contents V) Unit
  | .pass => Pure.pure ()
  | .create i v => createIn i v
  | .modify i id m => modifyIn i id m
  | .remove i id => removeIn i id
  | .throw e => MonadExcept.throw e
  | .read next => do
    let c ← get
    (next c).meaning
  | .seq p q => do
    p.meaning
    q.meaning
  | .tryCatch p handler => MonadExcept.tryCatch p.meaning fun e => (handler e).meaning
  | .scope f p => allOrNothing f p.meaning

/-- No scope leaves its undo state on the stack. -/
def Prog.Closed : Prog V → Prop
  | .pass | .create _ _ | .modify _ _ _ | .remove _ _ | .throw _ => True
  | .read next => ∀ c, (next c).Closed
  | .seq p q => p.Closed ∧ q.Closed
  | .tryCatch p handler => p.Closed ∧ ∀ e, (handler e).Closed
  | .scope f p => f ≠ .push ∧ p.Closed

/-- One stack of snapshots, and which of the sessions that are held are still to be ended. -/
structure Holding (σ : Type) where
  snapshots : Snapshots σ
  live : List Bool := []

namespace Holding

variable (a : Holding (Contents V))

def put (m : EStateM Exc (Contents V) Unit) : Holding (Contents V) :=
  { a with snapshots := finalState ((Snapshots.onContent m).run a.snapshots) }

/-- The end of the session at a place, if it has not had one. -/
def ending (k : Nat) (f : Snapshots (Contents V) → Snapshots (Contents V)) : Holding (Contents V) where
  snapshots := if a.live[k]? = some true then f a.snapshots else a.snapshots
  live := a.live.set k false

/-- One call. -/
def step : SessionCall V → Holding (Contents V)
  | .create i v => a.put (createIn i v)
  | .modify i id m => a.put (modifyIn i id m)
  | .remove i id => a.put (removeIn i id)
  | .start => { snapshots := a.snapshots.start, live := (a.snapshots.revision + 1 ≠ -1) :: a.live }
  | .push k => a.ending k id
  | .squash k => a.ending k (·.squash)
  | .undo k => a.ending k (·.undo)
  | .destroy k => { a.ending k (·.undo) with live := a.live.eraseIdx k }
  | .undoLast => { a with snapshots := a.snapshots.undo }
  | .squashLast => { a with snapshots := a.snapshots.squash }
  | .commit r => { a with snapshots := a.snapshots.commit r }
  | .undoAll => { a with snapshots := a.snapshots.undoAll }
  | .setRevision r =>
    if a.snapshots.frames = [] then { a with snapshots := a.snapshots.setRevision r } else a

def run (calls : List (SessionCall V)) : Holding (Contents V) :=
  calls.foldl step { snapshots := { content := fun _ => .empty } }

end Holding

end NewsChain
