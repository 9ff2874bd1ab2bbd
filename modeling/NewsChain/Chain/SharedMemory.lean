import NewsChain.Chain.Database
import NewsChain.Chainbase.Registry

/-!
# The chain database and its shared memory

`open`, `wipe` and `reindex` as the registries of chainbase see them, and `check_free_memory`, which
resizes the file once it is nearly full. The code that works on stored objects in between
(`init_genesis`, the application of a block) is an `ObjectCode`, any change of what is stored
followed by a return or a throw; how much memory is free is a number the segment manager reports.

`pushBlockChecked` is `push_block` with the outcome of its `check_free_memory`, which `pushBlock`
leaves out. On a database object together with its memory (`MappedDatabase`) the outcome is that of
the check itself: `pushBlockMapped` and `reindex` are the calls of the database that check.
-/

namespace NewsChain

variable {Stored : Type}

/-- The types of `initialize_indexes`, in its order. -/
def objectTypes : List IndexType :=
  [⟨0, "news::chain::dynamic_global_property_object"⟩,
   ⟨1, "news::chain::block_summary_object"⟩,
   ⟨2, "news::chain::transaction_object"⟩,
   ⟨3, "news::base::account_object"⟩,
   ⟨5, "news::chain::operation_object"⟩,
   ⟨6, "news::chain::account_history_object"⟩,
   ⟨4, "news::base::account_authority_object"⟩,
   ⟨7, "news::chain::hardfork_property_object"⟩]

/-- `initialize_indexes`. -/
def initializeIndexes (fresh : Stored) : ChainbaseM Stored Unit :=
  forM objectTypes (addIndex fresh)

/-- The members of `open_db_args` that the shared memory depends on. -/
structure OpenDbArgs where
  sharedMemDir : String
  sharedMemSize : UInt64
  sharedFileFullThreshold : UInt16
  sharedFileScaleRate : UInt16
deriving DecidableEq, Repr

/-- A return or a throw. -/
def outcome (r : Except Exc Unit) : ChainbaseM Stored Unit :=
  match r with
  | .ok () => pure ()
  | .error e => throw e

/-- Code that works on stored objects: what it makes of the object of each name, and how it ends. -/
structure ObjectCode (Stored : Type) where
  writes : String → Stored → Stored
  result : Except Exc Unit

/-- The objects of the mapped file are written. -/
def Chainbase.writeObjects (writes : String → Stored → Stored) (c : Chainbase Stored) :
    Chainbase Stored :=
  match c.segment with
  | none => c
  | some s =>
    c.setFile s.dir <| (c.files s.dir).map fun file =>
      { file with objects := fun n => (file.objects n).map (writes n) }

def ObjectCode.run (code : ObjectCode Stored) : ChainbaseM Stored Unit := do
  modify (·.writeObjects code.writes)
  outcome code.result

/-- `NEWS_100_PERCENT`. -/
def hundredPercent : Nat := 10000

/-- `uint128::to_uint64`. -/
def toUInt64 (x : BitVec 128) : ChainbaseM Stored UInt64 := do
  fcAssert (x.toNat < 2 ^ 64) "hi == 0"
  pure (UInt64.ofNat x.toNat)

/-- What `check_free_memory` compares the free memory with, before `to_uint64`. -/
def fullMark (threshold : UInt16) (maxMem : UInt64) : BitVec 128 :=
  BitVec.ofInt 128 (hundredPercent - threshold.toNat) * BitVec.ofNat 128 maxMem.toNat /
    BitVec.ofNat 128 hundredPercent

/-- The size `check_free_memory` asks for. -/
def scaledUp (maxMem : UInt64) (rate : UInt16) : UInt64 :=
  maxMem * rate.toUInt64 / UInt64.ofNat hundredPercent + maxMem

/-- `check_free_memory`, where the segment has so much memory left. -/
def checkFreeMemory (fresh : Stored) (freeMem : UInt64) : ChainbaseM Stored Unit := do
  let c ← get
  onlyIf c.segment.isNone do throw (.undefinedBehavior "_segment->get_segment_manager()")
  onlyIf (c.sharedFileFullThreshold ≠ 0 ∧ c.sharedFileScaleRate ≠ 0) do
    let mark ← toUInt64 (fullMark c.sharedFileFullThreshold c.fileSize)
    onlyIf (freeMem < mark) do resize fresh (scaledUp c.fileSize c.sharedFileScaleRate)

/-- `open`: `_block_log.open` returns or throws, and the code after `initialize_indexes` does. -/
def openDatabase (fresh : Stored) (args : OpenDbArgs) (blockLog : Except Exc Unit)
    (start : ObjectCode Stored) : ChainbaseM Stored Unit := do
  openSegment args.sharedMemDir args.sharedMemSize
  outcome blockLog
  initializeIndexes fresh
  start.run
  modify fun c =>
    { c with
      sharedFileFullThreshold := args.sharedFileFullThreshold
      sharedFileScaleRate := args.sharedFileScaleRate }

/-- `wipe`. -/
def wipeDatabase (sharedMemDir : String) : ChainbaseM Stored Unit := do
  closeSegment
  wipeSegment sharedMemDir

/-- `reindex`: a replayed block is `apply_block`, then `check_free_memory`; the last one, and what
comes after it, is checked no more. -/
def reindexDatabase (fresh : Stored) (args : OpenDbArgs) (blockLog : Except Exc Unit)
    (start : ObjectCode Stored) (replayed : List (ObjectCode Stored × UInt64))
    (last : ObjectCode Stored) : ChainbaseM Stored Unit := do
  wipeDatabase args.sharedMemDir
  openDatabase fresh args blockLog start
  forM replayed fun block => do
    block.1.run
    checkFreeMemory fresh block.2
  last.run

/-- How a run ended. -/
def ending {σ α : Type} : EStateM.Result Exc σ α → Except Exc α
  | .ok a _ => .ok a
  | .error e _ => .error e

/-- `push_block`, with the outcome of the `check_free_memory` that follows `_push_block`. -/
def pushBlockChecked [Node] (check : Except Exc Unit) (skip : SkipFlags) (b : SignedBlock) :
    DbM Bool :=
  withoutPendingTransactions skip do
    let result ← releaseItems (pushBlockImpl skip b)
    match check with
    | .ok () => pure result
    | .error e => throw e

/-! ## The objects and the memory together -/

section Mapped

variable [Node] {α : Type}

/-- A database object and the memory it maps. What the objects hold is in `database`; `memory` says
what is mapped and registered, and how large the file is. -/
structure MappedDatabase (Stored : Type) where
  database : Database
  memory : Chainbase Stored

abbrev MappedM (Stored : Type) := EStateM Exc (MappedDatabase Stored)

def onDatabase (m : DbM α) : MappedM Stored α :=
  onPart (·.database) (fun d s => { s with database := d }) m

def onMemory (m : ChainbaseM Stored α) : MappedM Stored α :=
  onPart (·.memory) (fun c s => { s with memory := c }) m

/-- `check_free_memory`, called outside of every block: the pending session is the only one that
can be open. -/
def checkMemory (fresh : Stored) (freeMem : UInt64) : MappedM Stored Unit := do
  let d := (← get).database
  onMemory do
    modify fun c => { c with undoSessionCount := if d.pendingSession then 1 else 0 }
    checkFreeMemory fresh freeMem

/-- `push_block`, where so much memory is free once the block is pushed. -/
def pushBlockMapped (fresh : Stored) (freeMem : UInt64) (skip : SkipFlags) (b : SignedBlock) :
    MappedM Stored Bool := do
  let oldInput := (← get).database.pendingTrx
  onDatabase do
    modify fun d => { d with pendingTrx := [] }
    resetPendingSession
  let result ← tryCatch
    (do
      let result ← onDatabase (releaseItems (pushBlockImpl skip b))
      checkMemory fresh freeMem
      pure result)
    fun e => do
      onDatabase (restorePending skip oldInput)
      throw e
  onDatabase (restorePending skip oldInput)
  pure result

/-- `generate_block`. -/
def generateBlockMapped (fresh : Stored) (freeMem : UInt64) (skip : SkipFlags) (now : TimePointSec)
    (producer : AccountName) (key : PrivateKey) : MappedM Stored SignedBlock := do
  let block ← onDatabase (composeBlock skip now producer key)
  let _ ← pushBlockMapped fresh freeMem skip block
  pure block

/-- `open`, where the block log opens. -/
def openMapped (fresh : Stored) (args : OpenDbArgs) : MappedM Stored Unit := do
  onMemory do
    openSegment args.sharedMemDir args.sharedMemSize
    initializeIndexes fresh
  onDatabase reopen
  onMemory <| modify fun c =>
    { c with
      sharedFileFullThreshold := args.sharedFileFullThreshold
      sharedFileScaleRate := args.sharedFileScaleRate }

/-- The loop of `reindex` up to the block before `lastBlockNum`, and that block; `freeMem` says how
much memory is free after each block. Every round reads on in the log, which throws at its end, so
the length of the log bounds the rounds. -/
def replay (fresh : Stored) (freeMem : Nat → UInt64) (lastBlockNum : Nat) :
    Nat → SignedBlock × Nat → MappedM Stored SignedBlock
  | 0, itr => pure itr.1
  | rounds + 1, itr => do
    if itr.1.blockNum ≠ lastBlockNum then do
      let currentBlockNum := itr.1.blockNum
      onDatabase (applyBlock reindexFlags itr.1)
      checkMemory fresh (freeMem currentBlockNum)
      let next ← onDatabase (readLog (·.readBlock itr.2))
      replay fresh freeMem lastBlockNum rounds next
    else pure itr.1

/-- `reindex`, of a log that opens: `wipe` leaves the block log alone. -/
def reindex (fresh : Stored) (args : OpenDbArgs) (stopReplayAt : Nat) (freeMem : Nat → UInt64) :
    MappedM Stored Nat := do
  onMemory (wipeDatabase args.sharedMemDir)
  onDatabase <| modify fun d => { blockLog := d.blockLog, applied := d.applied }
  openMapped fresh args
  onDatabase (modifyForkDb fun _ => {})
  let first ← onDatabase (readLog (·.readBlock 0))
  let head ← onDatabase (readLog (·.readHead))
  let lastBlockNum :=
    if 0 < stopReplayAt ∧ stopReplayAt < head.blockNum then stopReplayAt else head.blockNum
  let last ← replay fresh freeMem lastBlockNum (← get).database.blockLog.blocks.length first
  onDatabase (applyBlock reindexFlags last)
  onDatabase (setRevision (← get).database.headBlockNum)
  onlyIf (head.blockNum ≠ 0) do onDatabase (modifyForkDb (·.startBlock head))
  pure head.blockNum

end Mapped

/-! ## Runs of a database object -/

/-- What is called on a database object. -/
inductive MemoryCall (Stored : Type)
  | open (args : OpenDbArgs) (blockLog : Except Exc Unit) (start : ObjectCode Stored)
  | wipe (sharedMemDir : String)
  | reindex (args : OpenDbArgs) (blockLog : Except Exc Unit) (start : ObjectCode Stored)
      (replayed : List (ObjectCode Stored × UInt64)) (last : ObjectCode Stored)
  | resize (newSharedFileSize : UInt64)
  | checkFreeMemory (freeMem : UInt64)
  | close
  /-- Whatever else works on the stored objects. -/
  | code (objects : ObjectCode Stored)
  /-- Undo sessions start and end. -/
  | sessions (count : Nat)

def MemoryCall.run (fresh : Stored) : MemoryCall Stored → ChainbaseM Stored Unit
  | .open args blockLog start => openDatabase fresh args blockLog start
  | .wipe dir => wipeDatabase dir
  | .reindex args blockLog start replayed last =>
    reindexDatabase fresh args blockLog start replayed last
  | .resize size => NewsChain.resize fresh size
  | .checkFreeMemory freeMem => NewsChain.checkFreeMemory fresh freeMem
  | .close => closeSegment
  | .code objects => objects.run
  | .sessions count => modify fun c => { c with undoSessionCount := count }

/-- A database object as it is constructed: nothing is registered. Its thresholds are set by
`open`, and are what the memory held until then. -/
def constructed (files : String → Option (SharedFile Stored)) (threshold rate : UInt16) :
    Chainbase Stored where
  files := files
  sharedFileFullThreshold := threshold
  sharedFileScaleRate := rate

/-- A database object that is called so, whatever returns or throws. -/
def runMemoryCalls (fresh : Stored) (c : Chainbase Stored) :
    List (MemoryCall Stored) → Chainbase Stored
  | [] => c
  | call :: calls => runMemoryCalls fresh (finalState ((call.run fresh).run c)) calls

end NewsChain
