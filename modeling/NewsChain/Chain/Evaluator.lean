import NewsChain.Chain.Objects

/-!
# Applying transactions and the object side of a block

The evaluators, `_apply_transaction`, and the parts of `_apply_block` that only touch objects.
`Objects.applyBlock` runs those parts in their order and leaves the rest of `_apply_block` out:
it is the state transition a block stands for, and what a chain of blocks is replayed with.

`_current_block_num` is a parameter. `_current_trx_id` and `_current_op_in_trx` are set afresh by
every transaction and are passed down instead of stored.
-/

namespace NewsChain

/-- What a handler of `_post_apply_operation_signal` is given. -/
structure OperationNotification where
  op : Operation
  trxId : TransactionId
  block : Nat
  trxInBlock : Nat

/-- A row a handler creates. -/
inductive HistoryRow
  | operation (v : OperationObject)
  | accountHistory (v : AccountHistoryObject)

/-- A node: the outside code, and the handlers its plugins have connected, as the history rows
they create for an operation. -/
class Node extends Env where
  postApply : OperationNotification → Objects → List HistoryRow

/-! ## Assets -/

section Assets

variable {σ : Type}

/-- `asset::operator+=`. -/
def Asset.add (a b : Asset) : EStateM Exc σ Asset := do
  fcAssert (a.symbol = b.symbol) "symbol == a.symbol"
  pure { a with amount := a.amount + b.amount }

/-- `asset::operator-=`. -/
def Asset.sub (a b : Asset) : EStateM Exc σ Asset := do
  fcAssert (a.symbol = b.symbol) "symbol == a.symbol"
  pure { a with amount := a.amount - b.amount }

/-- `operator>=` on assets. -/
def Asset.ge (a b : Asset) : EStateM Exc σ Bool := do
  fcAssert (a.symbol = b.symbol) "a.symbol == b.symbol"
  pure (b.amount ≤ a.amount)

end Assets

/-- A modifier that writes a balance. -/
def setBalance (f : Asset → Asset) : Modifier AccountObject where
  apply v := { v with balance := f v.balance }
  keeps v := fun k hk => by
    obtain rfl := List.mem_singleton.mp hk
    rfl

/-! ## Evaluators -/

/-- `create_account_evaluator::do_apply`. -/
def CreateAccountOperation.doApply (o : CreateAccountOperation) : ObjM Unit := do
  let names := (← get).accounts.table
  fcAssert ((names.findBy (·.name == o.creator)).isSome) "not find creator"
  fcAssert ((names.findBy (·.name == o.name)).isNone) "user is existed."
  create .accounts { name := o.name, creator := o.creator, createTime := (← get).gpo.time }
  create .authorities { name := o.name, posting := o.posting, owner := o.owner }

/-- `transfer_evaluator::do_apply`. The amounts are compared and moved without their symbols. -/
def TransferOperation.doApply (o : TransferOperation) : ObjM Unit := do
  let sender ← getAccount o.fromName
  let recipient ← getAccount o.toName
  fcAssert (o.amount.amount ≤ sender.2.balance.amount) "not enough balance"
  modifyRow .accounts sender.1 (setBalance fun b => { b with amount := b.amount - o.amount.amount })
  modifyRow .accounts recipient.1 (setBalance fun b => { b with amount := b.amount + o.amount.amount })

/-- The first loop of `transfers_evaluator::do_apply`: every recipient exists, the amounts are
added up. -/
def sumTransfers : List (AccountName × Asset) → Asset → ObjM Asset
  | [], sum => pure sum
  | (name, amount) :: rest, sum => do
    let _ ← getAccount name
    sumTransfers rest (← sum.add amount)

/-- The second loop of `transfers_evaluator::do_apply`: every recipient is credited. -/
def creditTransfers : List (AccountName × Asset) → ObjM Unit
  | [] => pure ()
  | (name, amount) :: rest => do
    let recipient ← getAccount name
    let balance ← recipient.2.balance.add amount
    modifyRow .accounts recipient.1 (setBalance fun _ => balance)
    creditTransfers rest

/-- `transfers_evaluator::do_apply`. -/
def TransfersOperation.doApply (o : TransfersOperation) : ObjM Unit := do
  let sender ← getAccount o.fromName
  let sum ← sumTransfers o.toNames.entries { amount := 0 }
  fcAssert (← sender.2.balance.ge sum) "has not enough balance."
  let balance ← sender.2.balance.sub sum
  modifyRow .accounts sender.1 (setBalance fun _ => balance)
  creditTransfers o.toNames.entries

/-- `_eveluator_registry.get_evaluator( op ).apply( op )`. -/
def Operation.evaluate : Operation → ObjM Unit
  | .createAccount o => o.doApply
  | .transfer o => o.doApply
  | .transfers o => o.doApply

/-! ## Validation and authority -/

/-- `create_account_operation::validate`, `transfer_operation::validate` and
`transfers_operation::validate`; `validate_account_name` accepts every name. -/
def Operation.validate : Operation → ObjM Unit
  | .createAccount _ => pure ()
  | .transfer o => do
    fcAssert (o.fromName ≠ o.toName) "dont allow transfer to yourself."
    fcAssert (0 < o.amount.amount) "transfer amount must > 0."
  | .transfers o => do
    fcAssert (0 < o.toNames.entries.length) "to_names.size() > 0"
    forM o.toNames.entries fun b => do
      fcAssert (o.fromName ≠ b.1) "dont allow tranfer to yourself."
      fcAssert (0 < b.2.amount) "transfer balance must > 0."

/-- `transaction::validate`. -/
def Transaction.validate (t : Transaction) : ObjM Unit := do
  fcAssert (0 < t.operations.length) "A transaction must have at least one operation"
  forM t.operations Operation.validate

/-- `get_sign_name`. No operation asks for an owner signature. -/
def Operation.signName : Operation → AccountName
  | .createAccount o => o.creator
  | .transfer o => o.fromName
  | .transfers o => o.fromName

/-- `flat_set::insert`. -/
def flatInsert (n : AccountName) : List AccountName → List AccountName
  | [] => [n]
  | m :: ms => if n < m then n :: m :: ms else if n = m then m :: ms else m :: flatInsert n ms

variable [Node]

/-- `get_signature_keys`. -/
def SignedTransaction.signatureKeys (t : SignedTransaction) : ObjM (List PublicKey) :=
  t.signatures.mapM fun s =>
    match Env.recover s (Env.digest t.toTransaction) with
    | some k => pure k
    | none => throw (.assertion "unable to reconstruct public key from signature")

/-- One name of the loop of `verify_authority`. -/
def usePosting (pubs : List PublicKey) (name : AccountName) : ObjM PublicKey := do
  match (← get).authorityOf name with
  | none => throw (.assertion "in verify_authority, cant find account")
  | some a => do
    fcAssert (a.2.posting.key ∈ pubs) "posting signed error"
    pure a.2.posting.key

/-- `verify_authority`: every signing name's posting key is among the signatures, and every
signature is some signing name's. -/
def SignedTransaction.verifyAuthority (t : SignedTransaction) : ObjM Unit := do
  let pubs ← t.signatureKeys
  let names := t.operations.foldl (fun ns op => flatInsert op.signName ns) []
  let used ← names.mapM (usePosting pubs)
  forM pubs fun k => fcAssert (k ∈ used) "check unnecessary sign."

/-! ## Transactions -/

/-- The rows the handlers create, up to the first one that is refused: `NEWS_TRY_NOTIFY` catches
what they throw. -/
def writeHistory : List HistoryRow → ObjM Unit
  | [] => pure ()
  | .operation v :: rest => do create .operations v; writeHistory rest
  | .accountHistory v :: rest => do create .accountHistory v; writeHistory rest

/-- `notify_post_apply_operation`. -/
def notifyPostApplyOperation (note : OperationNotification) : ObjM Unit := do
  tryCatch (writeHistory (Node.postApply note (← get))) fun _ => pure ()

/-- `apply_operation`. -/
def applyOperation (currentBlockNum : Nat) (trxId : TransactionId) (opInTrx : UInt16)
    (op : Operation) : ObjM Unit := do
  op.evaluate
  notifyPostApplyOperation
    { op, trxId, block := currentBlockNum, trxInBlock := opInTrx.toNat }

/-- The loop of `_apply_transaction` over the operations. -/
def applyOperations (currentBlockNum : Nat) (trxId : TransactionId) :
    UInt16 → List Operation → ObjM Unit
  | _, [] => pure ()
  | i, op :: ops => do
    applyOperation currentBlockNum trxId i op
    applyOperations currentBlockNum trxId (i + 1) ops

/-- The checks of `_apply_transaction`, in order. The duplicate check joins its flags with `|` and
so never fails. -/
def checkTransaction (skip : SkipFlags) (trx : SignedTransaction) : ObjM Unit := do
  onlyIf (!skip.has skipValidate) trx.validate
  fcAssert ((skip ||| skipTransactionDupeCheck) ≠ 0 ∨ (← get).isKnowTransaction trx.id = false)
    "Duplicate transaction check failed"
  onlyIf (0 < (← get).gpo.headBlockNum) do
    onlyIf (!skip.has skipTaposCheck) do
      fcAssert (trx.refBlockPrefix = ((← get).blockSummary trx.refBlockNum).hash1)
        "transaction tapos exception"
    fcAssert ((← get).gpo.time ≤ trx.expiration) "transacion expiration"
  onlyIf (!skip.has (skipTransactionSignatures ||| skipAuthorityCheck)) trx.verifyAuthority

/-- `_apply_transaction` before the operations: the checks, then the `transaction_object`. -/
def enterTransaction (skip : SkipFlags) (trx : SignedTransaction) : ObjM Unit := do
  checkTransaction skip trx
  onlyIf (!skip.has skipTransactionDupeCheck) do
    create .transactions
      { trxId := trx.id, expiration := trx.expiration, packedTrx := Env.pack trx }

/-- `_apply_transaction`. -/
def applyTransactionImpl (skip : SkipFlags) (currentBlockNum : Nat) (trx : SignedTransaction) :
    ObjM Unit := do
  enterTransaction skip trx
  applyOperations currentBlockNum trx.id 0 trx.operations

/-! ## Hardforks -/

/-- `_apply_hardfork`. -/
def applyHardforkImpl (hardfork : Nat) : ObjM Unit := do
  fcAssert (hardfork = (← get).hardfork.lastHardfork + 1) "Hardfork being applied out of"
  fcAssert ((← get).hardfork.processedHardfork.length = hardfork) "Hardfork being applied out of"
  modifyHardfork fun hpo =>
    { hpo with
      processedHardfork := hpo.processedHardfork ++ [hardforkTimes hardfork]
      lastHardfork := hardfork
      currentHardforkVersion := hardforkVersions hardfork }
  fcAssert ((← get).hardfork.processedHardfork[hardfork]? = some (hardforkTimes hardfork))
    "Hardfork processing failed sanity check..."

/-- `set_hardfork( hardfork, true )`, as the loop over the `count` numbers from `i` on. -/
def setHardfork (hardfork : Nat) : Nat → Nat → ObjM Unit
  | 0, _ => pure ()
  | count + 1, i => do
    if i ≤ hardfork ∧ i ≤ hardforkNum then
      let now := (← get).gpo.time
      modifyHardfork fun hpo =>
        { hpo with nextHardforkVersion := hardforkVersions i, nextHardforkTime := now }
      applyHardforkImpl i
      setHardfork hardfork count (i + 1)

/-- `process_hardforks`; every round raises `last_hardfork`, which is below `NEWS_HARDFORK_NUM`. -/
def processHardforks : Nat → ObjM Unit
  | 0 => pure ()
  | rounds + 1 => do
    let last := (← get).hardfork.lastHardfork
    if last < hardforkNum ∧ hardforkTimes (last + 1) ≤ (← get).gpo.time then
      applyHardforkImpl (last + 1)
      processHardforks rounds

/-- `has_harfork`. -/
def Objects.hasHarfork (o : Objects) (hardfork : Nat) : Bool :=
  hardfork < o.hardfork.processedHardfork.length

/-- The hardforks a first block is already past. -/
def genesisHardforks (timestamp : TimePointSec) : Nat :=
  ((List.range hardforkNum).takeWhile fun n => hardforkTimes (n + 1) ≤ timestamp).length

/-! ## The object side of a block -/

/-- `update_global_property_object`. -/
def updateGlobalPropertyObject (b : SignedBlock) : ObjM Unit :=
  modifyGpo fun gpo =>
    { gpo with
      time := b.timestamp
      headBlockNum := b.blockNum
      headBlockId := b.id
      currentAslot := gpo.currentAslot + gpo.slotAtTime b.timestamp }

/-- The write of `update_last_irreversible_block`. -/
def raiseLastIrreversible : ObjM Unit :=
  modifyGpo fun gpo =>
    if irreversibleBlockNum ≤ gpo.headBlockNum then
      { gpo with lastIrreversibleBlockNum := gpo.headBlockNum - irreversibleBlockNum }
    else gpo

/-- `create_block_summary`. -/
def createBlockSummary (b : SignedBlock) : ObjM Unit :=
  modify fun o =>
    { o with blockSummary := Function.update o.blockSummary (UInt16.ofNat b.blockNum) b.id }

/-- The row that stands first when rows are ordered by expiration. -/
def earliestOf : List (Nat × TransactionObject) → Option (Nat × TransactionObject)
  | [] => none
  | r :: rest =>
    match earliestOf rest with
    | none => some r
    | some l => if l.2.expiration < r.2.expiration then some l else some r

/-- The first row of the `by_expiration` index. -/
def earliestExpiring (t : Table TransactionObject) : Option (Nat × TransactionObject) :=
  earliestOf t.rows

/-- `clear_expired_transactions`; every round removes a row. -/
def clearExpired : Nat → ObjM Unit
  | 0 => pure ()
  | rounds + 1 => do
    match earliestExpiring (← get).transactions.table with
    | none => pure ()
    | some r =>
      if r.2.expiration < (← get).gpo.time then
        removeRow .transactions r.1
        clearExpired rounds

/-- `clear_expired_transactions`, with as many rounds as there are rows. -/
def clearExpiredTransactions : ObjM Unit := do
  clearExpired (← get).transactions.table.rows.length

/-- `_apply_block` up to `update_last_irreversible_block`: what can reject a block. -/
def Objects.enterBlock (skip : SkipFlags) (b : SignedBlock) : ObjM Unit := do
  onlyIf (b.blockNum = 1) do
    setHardfork (genesisHardforks b.timestamp) hardforkNum ((← get).hardfork.lastHardfork + 1)
  onlyIf (!skip.has skipMerkleCheck) do
    fcAssert (merkleRoot b.transactions = b.transactionMerkleRoot) "merkle check failed"
  forM b.transactions (applyTransactionImpl skip b.blockNum)
  updateGlobalPropertyObject b

/-- `_apply_block` from the block summary on. -/
def Objects.leaveBlock (b : SignedBlock) : ObjM Unit := do
  createBlockSummary b
  clearExpiredTransactions
  processHardforks hardforkNum

/-- What a block does to the objects. -/
def Objects.applyBlock (skip : SkipFlags) (b : SignedBlock) : ObjM Unit := do
  Objects.enterBlock skip b
  raiseLastIrreversible
  Objects.leaveBlock b

/-! ## A small node -/

/-- What tells two operations apart. -/
def Operation.code : Operation → Nat
  | .createAccount o => o.name.toNat
  | .transfer o => o.fromName.toNat + 2 ^ 8 * o.toName.toNat + 2 ^ 16 * o.amount.amount.toInt.toNat
  | .transfers o => o.fromName.toNat + 2 ^ 8 * o.toNames.entries.length

/-- Stand-ins for the outside code that can be computed by hand: hashes that keep the inputs below
apart, signatures that are the signing key, one byte for a packed transaction, no plugin. -/
@[reducible] def smallNode : Node where
  sha224 h :=
    { hash0 := 0
      hash1 := h.timestamp.toBitVec
      hash2 := BitVec.ofNat 32 h.producer.toNat
      hash3 := h.previous.hash1 + h.previous.hash2 * 3 + h.previous.hash3 * 5
      hash4 := h.transactionMerkleRoot.setWidth 32
      hash5 := 0
      hash6 := 0 }
  headerDigest h := BitVec.ofNat 256 h.timestamp.toNat
  digest t := BitVec.ofNat 256
    (t.expiration.toNat + 2 ^ 32 * (t.operations.map Operation.code).sum)
  merkleDigest t := BitVec.ofNat 256
    (t.expiration.toNat + 2 ^ 32 * (t.operations.map Operation.code).sum)
  hashPair a b := a * 3 + b * 5 + 1
  hashDigest d := d + 1
  recover s _ := some (s.setWidth 264)
  signCompact k _ := k.setWidth 520
  pack _ := [0]
  initKey := 1
  acceptKey := 2
  postApply _ _ := []

/-- One unit of account 1 for another account, signed with the key of genesis. -/
def unitTransfer (recipient : AccountName) : SignedTransaction where
  refBlockNum := 0
  refBlockPrefix := 0
  expiration := genesisTime
  operations :=
    [.transfer { fromName := 1, toName := recipient, amount := { amount := 1 }, memo := [] }]
  signatures := [1]

/-- A block with the root of its transactions. -/
def blockOn (previous : BlockId) (timestamp : TimePointSec)
    (transactions : List SignedTransaction) : SignedBlock where
  timestamp
  producer := 0
  transactionMerkleRoot := merkleRoot transactions
  previous
  version := 1
  producerSignature := 0
  transactions

end NewsChain
