import NewsChain.Chain.Database

/-!
# The write queue

Clients of the chain plugin put pointers to their write contexts into two queues, and the
write-processing thread takes them out and runs the requests. Both sides are steps on one state: the
thread goes from one program point to the next (`threadStep`), and a client's call is the step that
puts its context into a queue and the step in which it returns. Any order of these steps is a run.

A context is known by a number and is in memory until its client returns. What would dereference
another, or set a promise twice, has no next state.
-/

namespace NewsChain

/-! ## Requests -/

/-- `generate_block_request`, what is asked of it. -/
structure GenerateBlockRequest where
  when_ : TimePointSec
  witnessOwner : AccountName
  blockSigningPrivateKey : PrivateKey
  skip : SkipFlags

/-- `write_request_ptr`, as what it points at. -/
inductive WriteRequest
  | block (block : SignedBlock)
  | trx (trx : SignedTransaction)
  | generate (req : GenerateBlockRequest)

/-- The two queues. -/
inductive QueueName
  | writeBlockQueue
  | writeQueue
deriving DecidableEq

/-- The queue that `accept_block`, `accept_transaction` and `generate_block` push to. -/
def WriteRequest.queue : WriteRequest → QueueName
  | .block _ => .writeBlockQueue
  | .trx _ => .writeQueue
  | .generate _ => .writeBlockQueue

/-- `write_context`, with `block` of a `generate_block_request` and whether the promise is set. -/
structure WriteContext where
  req : WriteRequest
  skip : SkipFlags := 0
  success : Bool := true
  except : Option Exc := none
  block : Option SignedBlock := none
  promised : Bool := false

/-- What a visit of a request returns and stores. -/
structure WriteResult where
  success : Bool
  except : Option Exc := none
  block : Option SignedBlock := none

variable [Node]

/-- `write_request_visitor`. -/
def writeRequestVisitor (skip : SkipFlags) (req : WriteRequest) (d : Database) :
    WriteResult × Database :=
  match req with
  | .block block =>
    match (pushBlock skip block).run d with
    | .ok result d => ({ success := result }, d)
    | .error e d => ({ success := false, except := some e }, d)
  | .trx trx =>
    match (pushTransaction skipNothing trx).run d with
    | .ok _ d => ({ success := true }, d)
    | .error e d => ({ success := false, except := some e }, d)
  | .generate req =>
    match (generateBlock req.skip req.when_ req.witnessOwner req.blockSigningPrivateKey).run d with
    | .ok block d => ({ success := true, block := some block }, d)
    | .error e d => ({ success := false, except := some e }, d)

/-! ## The thread -/

/-- Where the thread is in `start_write_processing`. -/
inductive WritePc
  /-- At `while( running )`. -/
  | loop
  /-- At the first `write_block_queue.pop( cxt )`, outside the lock. -/
  | firstBlock
  /-- At the first `write_queue.pop( cxt )`. -/
  | firstTrx
  /-- In `with_write_lock`, before the callback. -/
  | lock
  /-- At the top of the inner loop. -/
  | prepare
  /-- At `cxt->req_ptr.visit( req_visitor )`. -/
  | visit
  /-- At `cxt->prom_ptr.visit( promise_visitor )`. -/
  | setPromise
  /-- At the two breaks. -/
  | breaks
  /-- At the second `write_block_queue.pop( cxt )`, inside the lock. -/
  | nextBlock
  /-- At the second `write_queue.pop( cxt )`. -/
  | nextTrx
  /-- Behind `with_write_lock`. -/
  | sleep
  /-- Behind the outer loop. -/
  | stopped
deriving DecidableEq

/-- The plugin and its thread. `contexts` are the write contexts in memory; `cxt` and the pointer of
the visitor are not initialised at first. -/
structure WriteProcessing where
  db : Database
  running : Bool := true
  writeQueue : List Nat := []
  writeBlockQueue : List Nat := []
  contexts : IdMap WriteContext := .empty
  nextContext : Nat := 0
  pc : WritePc := .loop
  isSyncing : Bool := true
  cxt : Option Nat := none
  start : TimePointSec
  visitorSkip : SkipFlags := 0
  visitorExcept : Option Nat := none

/-- What a step is seen to do. -/
inductive WriteEvent
  /-- A client has put its context into the queue of its request. -/
  | enqueued (i : Nat) (c : WriteContext)
  /-- The thread has found no block request. -/
  | noBlock
  | popped (q : QueueName) (i : Nat)
  /-- The thread has run the request of the context as it was. -/
  | executed (i : Nat) (c : WriteContext) (result : WriteResult)
  | promised (i : Nat)
  /-- A client has read its context and returned. -/
  | answered (i : Nat) (c : WriteContext)

namespace WriteProcessing

variable (s : WriteProcessing)

/-- The context `cxt` points at. -/
def current : Option (Nat × WriteContext) :=
  match s.cxt with
  | none => none
  | some i => (s.contexts.get? i).map fun c => (i, c)

/-- `*except = e`, where something was thrown. -/
def storeExcept (e : Option Exc) : Option (IdMap WriteContext) :=
  match e with
  | none => some s.contexts
  | some e =>
    match s.visitorExcept with
    | none => none
    | some i => (s.contexts.get? i).map fun c => s.contexts.insert i { c with except := some e }

/-- `start - db.head_block_time() < fc::minutes(1)`, in seconds. -/
def nearHead : Bool := (s.start.toNat : Int) - s.db.gpo.time.toNat < 60

/-- `fc::time_point::now() - start > fc::milliseconds( write_lock_hold_time )`, of a time in
microseconds. -/
def heldLong (now : Int) : Bool := 200 * 1000 < now - (s.start.toNat : Int) * 1000000

/-- `fc::time_point_sec` of a time in microseconds. -/
def seconds (now : Int) : TimePointSec := UInt32.ofInt (now.tdiv 1000000)

/-- The next step of the thread, which may read the clock. -/
def threadStep (now : Int) : Option (List WriteEvent × WriteProcessing) :=
  match s.pc with
  | .loop =>
    if s.running then
      some ([], { s with start := if s.isSyncing then s.start else seconds now, pc := .firstBlock })
    else some ([], { s with pc := .stopped })
  | .firstBlock =>
    match s.writeBlockQueue with
    | i :: rest => some ([.popped .writeBlockQueue i],
        { s with writeBlockQueue := rest, cxt := some i, pc := .lock })
    | [] => some ([.noBlock], { s with pc := .firstTrx })
  | .firstTrx =>
    match s.writeQueue with
    | i :: rest => some ([.popped .writeQueue i],
        { s with writeQueue := rest, cxt := some i, pc := .lock })
    | [] => some ([], { s with pc := .sleep })
  | .lock => some ([], { s with pc := .prepare })
  | .prepare =>
    match s.current with
    | none => none
    | some (i, c) => some ([], { s with visitorSkip := c.skip, visitorExcept := some i, pc := .visit })
  | .visit =>
    match s.current with
    | none => none
    | some (i, c) =>
      let (result, db) := writeRequestVisitor s.visitorSkip c.req s.db
      match s.storeExcept result.except with
      | none => none
      | some contexts =>
        (contexts.get? i).map fun c' => ([.executed i c result],
          { s with
            db
            contexts := contexts.insert i { c' with success := result.success, block := result.block }
            pc := .setPromise })
  | .setPromise =>
    match s.current with
    | none => none
    | some (i, c) =>
      if c.promised then none
      else some ([.promised i],
        { s with contexts := s.contexts.insert i { c with promised := true }, pc := .breaks })
  | .breaks =>
    if s.isSyncing && s.nearHead then
      some ([], { s with start := seconds now, isSyncing := false, pc := .sleep })
    else if !s.isSyncing && s.heldLong now then some ([], { s with pc := .sleep })
    else some ([], { s with pc := .nextBlock })
  | .nextBlock =>
    match s.writeBlockQueue with
    | i :: rest => some ([.popped .writeBlockQueue i],
        { s with writeBlockQueue := rest, cxt := some i, pc := .prepare })
    | [] => some ([.noBlock], { s with pc := .nextTrx })
  | .nextTrx =>
    match s.writeQueue with
    | i :: rest => some ([.popped .writeQueue i],
        { s with writeQueue := rest, cxt := some i, pc := .prepare })
    | [] => some ([], { s with pc := .sleep })
  | .sleep => some ([], { s with pc := .loop })
  | .stopped => some ([], s)

/-! ## The clients -/

/-- A queue by its name. -/
def queue : QueueName → List Nat
  | .writeBlockQueue => s.writeBlockQueue
  | .writeQueue => s.writeQueue

/-- The queue with other elements. -/
def setQueue (q : QueueName) (ids : List Nat) : WriteProcessing :=
  match q with
  | .writeBlockQueue => { s with writeBlockQueue := ids }
  | .writeQueue => { s with writeQueue := ids }

/-- `push( &cxt )` of a fresh context. -/
def push (c : WriteContext) : WriteProcessing :=
  { s.setQueue c.req.queue (s.queue c.req.queue ++ [s.nextContext]) with
    contexts := s.contexts.insert s.nextContext c
    nextContext := s.nextContext + 1 }

end WriteProcessing

/-- The context `accept_block` makes. -/
def acceptBlock (block : SignedBlock) (skip : SkipFlags) : WriteContext := { req := .block block, skip }

/-- The context `accept_transaction` makes. -/
def acceptTransaction (trx : SignedTransaction) : WriteContext := { req := .trx trx }

/-- The context `generate_block` of the plugin makes. -/
def generateBlockContext (req : GenerateBlockRequest) : WriteContext := { req := .generate req }

/-- One step, by whoever makes it. -/
inductive WriteStep : WriteProcessing → List WriteEvent → WriteProcessing → Prop
  | thread {s s' : WriteProcessing} {es : List WriteEvent} (now : Int) :
      s.threadStep now = some (es, s') → WriteStep s es s'
  | acceptBlock {s : WriteProcessing} (block : SignedBlock) (skip : SkipFlags) :
      WriteStep s [.enqueued s.nextContext (acceptBlock block skip)] (s.push (acceptBlock block skip))
  | acceptTransaction {s : WriteProcessing} (trx : SignedTransaction) :
      WriteStep s [.enqueued s.nextContext (acceptTransaction trx)] (s.push (acceptTransaction trx))
  | generateBlock {s : WriteProcessing} (req : GenerateBlockRequest) :
      WriteStep s [.enqueued s.nextContext (generateBlockContext req)]
        (s.push (generateBlockContext req))
  | answered {s : WriteProcessing} {i : Nat} {c : WriteContext} :
      s.contexts.get? i = some c → c.promised = true →
        WriteStep s [.answered i c] { s with contexts := s.contexts.erase i }
  | stop {s : WriteProcessing} : WriteStep s [] { s with running := false }

/-- The runs from a database on, with all that has been seen. -/
inductive WriteRun (d : Database) : List WriteEvent → WriteProcessing → Prop
  | start (start : TimePointSec) : WriteRun d [] { db := d, start }
  | step {log es : List WriteEvent} {s s' : WriteProcessing} :
      WriteRun d log s → WriteStep s es s' → WriteRun d (log ++ es) s'

end NewsChain
