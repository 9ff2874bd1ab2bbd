import NewsChain.Chain.BlockLog
import NewsChain.Chain.Evaluator
import NewsChain.Chain.ForkDatabase
import NewsChain.Lib.Snapshots

/-!
# The chain database

`news::chain::database`: the object store with its undo stack, the fork database, the block log
and the pending transactions, and the three calls that change them: `push_transaction`,
`push_block` and `generate_block`.

The eight undo stacks of chainbase move together, so the store is one stack of snapshots. A session
that goes out of scope undoes itself: `withSession` is that scope. The skip flags are a parameter;
`with_skip_flags` puts the old ones back, so every step of a call runs under the call's own.
-/

namespace NewsChain

variable [Node]

/-- One start of `apply_block`: the block, and the head it found. -/
structure Applied where
  block : SignedBlock
  headBlockId : BlockId
  headBlockNum : Nat

structure Database where
  store : Snapshots Objects := { content := genesis }
  forkDb : ForkDatabase := {}
  blockLog : BlockLog := {}
  pendingTrx : List SignedTransaction := []
  /-- `_pending_trx_session.valid()`. -/
  pendingSession : Bool := false
  poppedTx : List SignedTransaction := []
  currentBlockNum : Nat := 0
  /-- A history variable, newest first. No code reads it. -/
  applied : List Applied := []

/-- Code over the database. -/
abbrev DbM := EStateM Exc Database

namespace Database

/-- The database after `init_genesis`. -/
def genesis : Database := {}

/-- `get_global_property_object`. -/
def gpo (d : Database) : DynamicGlobalProperty := d.store.content.gpo

/-- `head_block_id`. -/
def headBlockId (d : Database) : BlockId := d.gpo.headBlockId

/-- `head_block_num`. -/
def headBlockNum (d : Database) : Nat := d.gpo.headBlockNum

end Database

/-! ## Running the parts -/

variable {α : Type}

/-- Code over the objects, run on the present content. -/
def objects (m : ObjM α) : DbM α := fun d =>
  match m.run d.store.content with
  | .ok a o => .ok a { d with store := d.store.put o }
  | .error e o => .error e { d with store := d.store.put o }

/-- A member function of the fork database that changes nothing when it throws. -/
def forkDb (f : ForkDatabase → Except Exc (α × ForkDatabase)) : DbM α := fun d =>
  match f d.forkDb with
  | .ok (a, fdb) => .ok a { d with forkDb := fdb }
  | .error e => .error e d

/-- A member function of the fork database that cannot throw. -/
def modifyForkDb (f : ForkDatabase → ForkDatabase) : DbM Unit :=
  modify fun d => { d with forkDb := f d.forkDb }

def modifyStore (f : Snapshots Objects → Snapshots Objects) : DbM Unit :=
  modify fun d => { d with store := f d.store }

/-- The scope of an undo session: what throws inside is undone. -/
def withSession (m : DbM α) : DbM α := do
  modifyStore .start
  tryCatch m fun e => do
    modifyStore .undo
    throw e

/-- `_pending_trx_session.reset()`. -/
def resetPendingSession : DbM Unit := modify fun d =>
  if d.pendingSession then { d with store := d.store.undo, pendingSession := false } else d

/-! ## Applying a block -/

/-- The log loop of `update_last_irreversible_block`, for `count` blocks after `logHeadNum`. -/
def appendBlocks : Nat → Nat → DbM Unit
  | 0, _ => pure ()
  | count + 1, logHeadNum => do
    match (← get).forkDb.fetchBlockOnMainBranchByNumber (logHeadNum + 1) with
    | none => throw (.assertion
        "Current fork in the fork database does not contain the last_irreversible_block")
    | some item =>
      match (← get).blockLog.append item.data with
      | .error e => throw e
      | .ok log => modify fun d => { d with blockLog := log }
      appendBlocks count (logHeadNum + 1)

/-- `update_last_irreversible_block`. -/
def updateLastIrreversibleBlock (skip : SkipFlags) : DbM Unit := do
  objects raiseLastIrreversible
  let gpo := (← get).gpo
  modifyStore (.commit gpo.lastIrreversibleBlockNum)
  onlyIf (!skip.has skipBlockLog) do
    let logHeadNum := (← get).blockLog.headNum
    appendBlocks (gpo.lastIrreversibleBlockNum - logHeadNum) logHeadNum
  modifyForkDb (·.setMaxSize
    ((gpo.headBlockNum + 2 ^ 32 - gpo.lastIrreversibleBlockNum + 1) % 2 ^ 32))

/-- `_apply_block`. -/
def applyBlockImpl (skip : SkipFlags) (b : SignedBlock) : DbM Unit := do
  modify fun d => { d with currentBlockNum := b.blockNum }
  objects (Objects.enterBlock skip b)
  updateLastIrreversibleBlock skip
  objects (Objects.leaveBlock b)

/-- `apply_block`, recorded. -/
def applyBlock (skip : SkipFlags) (b : SignedBlock) : DbM Unit := do
  modify fun d => { d with applied := ⟨b, d.headBlockId, d.headBlockNum⟩ :: d.applied }
  applyBlockImpl skip b

/-! ## Pending transactions -/

/-- `_push_transaction`. -/
def pushTransactionImpl (skip : SkipFlags) (trx : SignedTransaction) : DbM Unit := do
  onlyIf (!(← get).pendingSession) do
    modifyStore .start
    modify fun d => { d with pendingSession := true }
  let num := (← get).currentBlockNum
  withSession (objects (applyTransactionImpl skip num trx))
  modify fun d => { d with pendingTrx := d.pendingTrx ++ [trx] }
  modifyStore .squash

/-- `push_transaction`. -/
def pushTransaction (skip : SkipFlags) (trx : SignedTransaction) : DbM Unit :=
  pushTransactionImpl skip trx

/-- One round of the loops of `without_pengding_transactions`: a transaction the state does not
know is pushed again, and what it throws is dropped. -/
def pushAgain (skip : SkipFlags) (tx : SignedTransaction) : DbM Unit :=
  tryCatch
    (do onlyIf (!(← get).store.content.isKnowTransaction tx.id) (pushTransactionImpl skip tx))
    fun _ => pure ()

/-- The scope exit of `without_pengding_transactions`. -/
def restorePending (skip : SkipFlags) (oldInput : List SignedTransaction) : DbM Unit := do
  forM (← get).poppedTx (pushAgain skip)
  forM oldInput (pushAgain skip)

/-- `without_pengding_transactions`. -/
def withoutPendingTransactions (skip : SkipFlags) (f : DbM α) : DbM α := do
  let oldInput := (← get).pendingTrx
  modify fun d => { d with pendingTrx := [] }
  resetPendingSession
  let a ← tryCatch f fun e => do
    restorePending skip oldInput
    throw e
  restorePending skip oldInput
  pure a

/-! ## Looking blocks up -/

/-- `fetch_block_by_id`. -/
def Database.fetchBlockById (d : Database) (id : BlockId) : Option SignedBlock :=
  match d.forkDb.fetchBlock id with
  | some i => some i.data
  | none => (d.blockLog.readBlockByNum (numFromId id)).filter (·.id == id)

/-- `fetch_block_by_number`: the log answers where the fork database has no block of this number,
or several. -/
def Database.fetchBlockByNumber (d : Database) (blockNum : Nat) : Option SignedBlock :=
  match d.forkDb.fetchBlockByNumber blockNum with
  | [i] => some i.data
  | _ => d.blockLog.readBlockByNum blockNum

/-- `find_block_id_for_num`: the block summary, then the log, then the fork database. -/
def Database.findBlockIdForNum (d : Database) (blockNum : Nat) : BlockId :=
  if blockNum = 0 then .null
  else
    let summary := d.store.content.blockSummary (UInt16.ofNat blockNum)
    if numFromId summary = blockNum then summary
    else
      match d.blockLog.readBlockByNum blockNum with
      | some b => b.id
      | none =>
        match d.forkDb.fetchBlockOnMainBranchByNumber blockNum with
        | some i => i.id
        | none => .null

/-! ## Pushing a block -/

/-- `pop_block`. -/
def popBlock : DbM Unit := do
  resetPendingSession
  match (← get).fetchBlockById (← get).headBlockId with
  | none => throw (.assertion "there is no block to pop")
  | some headBlock => do
    forkDb fun fdb => fdb.popBlock.map fun fdb => ((), fdb)
    modifyStore .undo
    modify fun d => { d with poppedTx := headBlock.transactions ++ d.poppedTx }

/-- `while( head_block_id() != id ) pop_block()`. Every round pops the fork database, which throws
at the end of its head's line, so the length of that line bounds the rounds. -/
def popUntil (id : BlockId) : Nat → DbM Unit
  | 0 => pure ()
  | rounds + 1 => do
    onlyIf ((← get).headBlockId ≠ id) do
      popBlock
      popUntil id rounds

/-- The rounds `popUntil` needs. -/
def Database.popRounds (d : Database) : Nat := (d.forkDb.head.map (·.line.length + 1)).getD 1

/-- `{ auto session = start_undo_session(); apply_block( b, skip ); session.push(); }` -/
def applyInSession (skip : SkipFlags) (b : SignedBlock) : DbM Unit := withSession (applyBlock skip b)

/-- The recovery of a failed switch: `failed` are the items from the failing one on. -/
def restoreBranch (skip : SkipFlags) (failed : List ForkItem) (old : Branch) (e : Exc) :
    DbM Bool := do
  forM failed fun i => modifyForkDb (·.remove i.id)
  modifyForkDb (·.setHead old.front)
  popUntil old.back.data.previous (← get).popRounds
  forM old.items fun i => applyInSession skip i.data
  throw e

/-- The loop of `_push_block` over the new branch. -/
def applyBranch (skip : SkipFlags) (old : Branch) : List ForkItem → DbM Bool
  | [] => pure true
  | i :: rest => do
    let exception ← tryCatch (do applyInSession skip i.data; pure none) fun e => pure (some e)
    match exception with
    | some e => restoreBranch skip (i :: rest) old e
    | none => applyBranch skip old rest

/-- The fork switch of `_push_block`. -/
def switchForks (skip : SkipFlags) (newHead : ForkItem) : DbM Bool := do
  let headId := (← get).headBlockId
  let branches ← forkDb fun fdb =>
    (fdb.fetchBranchFrom newHead.id headId).map fun br => (br, fdb)
  modifyForkDb (·.hold (branches.1.items ++ branches.2.items))
  popUntil branches.2.back.data.previous (← get).popRounds
  applyBranch skip branches.2 branches.1.items

/-- The last part of `_push_block`: the block goes on top of the present head. -/
def applyPushed (skip : SkipFlags) (b : SignedBlock) : DbM Bool :=
  tryCatch (do applyInSession skip b; pure true) fun e => do
    modifyForkDb (·.remove b.id)
    throw e

/-- `_push_block`. -/
def pushBlockImpl (skip : SkipFlags) (b : SignedBlock) : DbM Bool := do
  if !skip.has skipForkDb then
    let newBlock ← forkDb (·.pushBlock b)
    if newBlock.data.previous ≠ (← get).headBlockId then
      if (← get).headBlockNum < newBlock.num then switchForks skip newBlock
      else pure false
    else applyPushed skip b
  else applyPushed skip b

/-- The local variables of a call are gone when it ends. -/
def releaseItems (m : DbM α) : DbM α := do
  let a ← tryCatch m fun e => do
    modifyForkDb (·.hold [])
    throw e
  modifyForkDb (·.hold [])
  pure a

/-- `push_block`. -/
def pushBlock (skip : SkipFlags) (b : SignedBlock) : DbM Bool :=
  withoutPendingTransactions skip (releaseItems (pushBlockImpl skip b))

/-! ## Generating a block -/

/-- The loop of `_generate_block`: the transactions that still apply, as long as they fit. -/
def collectTransactions (skip : SkipFlags) (now : TimePointSec) :
    List SignedTransaction → Nat → Nat → List SignedTransaction → DbM (List SignedTransaction)
  | [], _, _, taken => pure taken
  | tx :: rest, size, count, taken => do
    if tx.expiration < now then collectTransactions skip now rest size count taken
    else if count = 0 then pure taken
    else if maxBlockSize ≤ size + tx.packSize then pure taken
    else
      let num := (← get).currentBlockNum
      let applies ← tryCatch
        (do
          withSession (objects (applyTransactionImpl skip num tx))
          modifyStore .squash
          pure true)
        fun _ => pure false
      if applies then
        collectTransactions skip now rest (size + tx.packSize) (count - 1) (taken ++ [tx])
      else collectTransactions skip now rest size count taken

/-- `_generate_block`, up to its `push_block`. -/
def composeBlock (skip : SkipFlags) (now : TimePointSec) (producer : AccountName)
    (key : PrivateKey) : DbM SignedBlock := do
  resetPendingSession
  modifyStore .start
  modify fun d => { d with pendingSession := true }
  let transactions ←
    collectTransactions skip now (← get).pendingTrx (headerPackSize + 4) 3000 []
  resetPendingSession
  let header : BlockHeader :=
    { timestamp := now
      producer
      transactionMerkleRoot := merkleRoot transactions
      previous := (← get).headBlockId
      version := 1 }
  let producerSignature :=
    if skip.has skipProducerSignature then 0 else Env.signCompact key (Env.headerDigest header)
  let block : SignedBlock := { header with producerSignature, transactions }
  onlyIf (!skip.has skipBlockSizeCheck) do
    fcAssert (block.packSize ≤ maxBlockSize)
      "fc::raw::pack_size(pengding_block) <= NEWS_MAX_BLOCK_SIZE"
  pure block

/-- `_generate_block`. -/
def generateBlockImpl (skip : SkipFlags) (now : TimePointSec) (producer : AccountName)
    (key : PrivateKey) : DbM SignedBlock := do
  let block ← composeBlock skip now producer key
  let _ ← pushBlock skip block
  pure block

/-- `generate_block`. -/
def generateBlock (skip : SkipFlags) (now : TimePointSec) (producer : AccountName)
    (key : PrivateKey) : DbM SignedBlock :=
  generateBlockImpl skip now producer key

/-! ## Opening -/

/-- What `open` does to a database another process has left: nothing that is kept in memory
survives, the undo stack is unwound, and the fork database starts from the head block. -/
def reopen : DbM Unit := do
  modify fun d => { store := d.store.undoAll, blockLog := d.blockLog, applied := d.applied }
  let d ← get
  fcAssert (d.store.revision = d.headBlockNum) "Chainbase revision does not match head block num"
  onlyIf (d.headBlockNum ≠ 0) do
    match d.blockLog.readBlockByNum d.headBlockNum with
    | none => throw (.assertion "Chain state does not match block log. Please reindex blockchain.")
    | some headBlock => do
      fcAssert (d.headBlockId = headBlock.id)
        "Chain state does not match block log. Please reindex blockchain."
      modifyForkDb (·.startBlock headBlock)

/-! ## Reindexing -/

/-- The skip flags of `reindex`. -/
def reindexFlags : SkipFlags :=
  skipProducerSignature ||| skipTransactionSignatures ||| skipTaposCheck ||| skipMerkleCheck |||
    skipProducerScheduleCheck ||| skipAuthorityCheck ||| skipValidate ||| skipValidateInvariants |||
    skipBlockLog

/-- What a member function of the block log returns. -/
def readLog (f : BlockLog → Except Exc α) : DbM α := do
  match f (← get).blockLog with
  | .ok a => pure a
  | .error e => throw e

/-- `set_revision`. -/
def setRevision (revision : Int) : DbM Unit := do
  onlyIf ((← get).store.frames ≠ []) do
    throw (.logicError "cannot set revision while there is an existing undo stack")
  modifyStore (.setRevision revision)

end NewsChain
