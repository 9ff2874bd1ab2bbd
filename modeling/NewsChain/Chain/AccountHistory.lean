import NewsChain.Base.Raw
import NewsChain.Chain.Database
import NewsChain.Lib.Ordered

/-!
# Account history

The handler of `account_history_plugin`, and the two calls of `account_history_api` that read what
it has written. `on_pre_apply_operation` is connected to the post-apply signal: `historyNode` is a
node whose only handler it is.
-/

namespace NewsChain

/-! ## The handler -/

/-- `get_operation_names_visitor`, over an empty `flat_set`. -/
def Operation.names : Operation → List AccountName
  | .createAccount o => flatInsert o.creator (flatInsert o.name [])
  | .transfer o => flatInsert o.toName (flatInsert o.fromName [])
  | .transfers o =>
    o.toNames.entries.foldl (fun names n => flatInsert n.1 names) (flatInsert o.fromName [])

/-- The comparison of `by_account`: names up, sequence numbers down. -/
def historyBefore (a b : AccountName × UInt32) : Prop := a.1 < b.1 ∨ a.1 = b.1 ∧ b.2 < a.2

instance (a b : AccountName × UInt32) : Decidable (historyBefore a b) :=
  inferInstanceAs (Decidable (_ ∨ _))

/-- The key of `by_account`. -/
def AccountHistoryObject.place (h : AccountHistoryObject) : AccountName × UInt32 :=
  (h.name, h.sequence)

/-- `history_index.lower_bound`, and the rest of the index from there on. -/
def lowerBound (t : Table AccountHistoryObject) (bound : AccountName × UInt32) :
    List (Nat × AccountHistoryObject) :=
  (inOrder (fun r s => historyBefore r.2.place s.2.place) t.rows).dropWhile fun r =>
    historyBefore r.2.place bound

/-- `seq` for a name. -/
def nextSequence (o : Objects) (name : AccountName) : UInt32 :=
  match lowerBound o.accountHistory.table (name, 4294967295) with
  | [] => 1
  | itr :: _ => if itr.2.name = name then itr.2.sequence + 1 else 1

/-- The `operation_object` of a notification. -/
def OperationNotification.toObject (note : OperationNotification) (time : TimePointSec) :
    OperationObject where
  trxId := note.trxId
  block := note.block
  trxInBlock := note.trxInBlock
  timestamp := time
  opPacked := Raw.pack note.op

/-- `on_pre_apply_operation`. -/
def onPreApplyOperation (note : OperationNotification) : ObjM Unit := do
  let opId := (← get).operations.nextId
  create .operations (note.toObject (← get).gpo.time)
  forM note.op.names fun name => do
    create .accountHistory { name, sequence := nextSequence (← get) name, opId }

/-- The rows it creates. The names of an operation differ, so no sequence number depends on a row
of the same notification (`run_onPreApplyOperation`). -/
def historyRows (note : OperationNotification) (o : Objects) : List HistoryRow :=
  .operation (note.toObject o.gpo.time) :: note.op.names.map fun name =>
    .accountHistory { name, sequence := nextSequence o name, opId := o.operations.nextId }

/-- A node with the account-history handler. -/
@[reducible] def historyNode (outside : Env) : Node := { outside with postApply := historyRows }

/-! ## The calls -/

/-- `operation_obj_api`. -/
structure OperationObjApi where
  trxId : TransactionId
  block : Nat
  trxInBlock : Nat
  opInTrx : Nat
  timestamp : TimePointSec
  op : Operation
deriving DecidableEq

/-- The constructor of `operation_obj_api`: `op_in_trx` is the object's `trx_in_block`. -/
def OperationObject.toApi (obj : OperationObject) : Except Exc OperationObjApi :=
  match (Raw.unpack : Decoder Exc Operation).run obj.opPacked with
  | .ok op _ => .ok
      { trxId := obj.trxId
        block := obj.block
        trxInBlock := obj.trxInBlock
        opInTrx := obj.trxInBlock
        timestamp := obj.timestamp
        op }
  | .error e _ => .error e

/-- `deatil_signed_transaction`. -/
structure DeatilSignedTransaction extends SignedTransaction where
  trxId : TransactionId
  blockNum : Nat
  transactionNum : Nat
deriving DecidableEq

/-- `API_LIMIT`. -/
def apiLimit : UInt32 := 1000

/-- `std::map::operator[]`, assigned to. -/
def assignEntry (k : UInt32) (v : OperationObjApi) :
    List (UInt32 × OperationObjApi) → List (UInt32 × OperationObjApi)
  | [] => [(k, v)]
  | e :: es => if k < e.1 then (k, v) :: e :: es else if k = e.1 then (k, v) :: es
    else e :: assignEntry k v es

variable [Node]

namespace Database

variable (d : Database)

/-- `get_transaction`. In `by_op_trx_id`, where rows with one transaction id stand in the order of
their own ids, `find` stops at the first. -/
def getTransaction (trxId : TransactionId) : Except Exc DeatilSignedTransaction :=
  match d.store.content.operations.table.findBy (·.trxId == trxId) with
  | none => .error (.assertion "unkown transaction")
  | some itr =>
    match d.fetchBlockByNumber itr.2.block with
    | none => .error (.assertion "block.valid()")
    | some block =>
      match block.transactions[itr.2.trxInBlock]? with
      | none => .error (.assertion "block->transactions.size() > itr->trx_in_block")
      | some trx => .ok
          { trx with
            trxId := trx.id
            blockNum := itr.2.block
            transactionNum := itr.2.trxInBlock }

/-- `_db.get( itr->op_id )`, as the map's value. -/
def getOperation (opId : Nat) : Except Exc OperationObjApi :=
  match d.store.content.operations.table.get? opId with
  | some obj => obj.toApi
  | none => .error (.outOfRange "unknown key")

/-- The loop of `get_account_history` over the index from `itr` on. -/
def collectHistory (name : AccountName) (limit : Nat) :
    List (Nat × AccountHistoryObject) → Nat → List (UInt32 × OperationObjApi) →
      Except Exc (List (UInt32 × OperationObjApi))
  | [], _, trxs => .ok trxs
  | itr :: rest, num, trxs =>
    if limit ≤ num then .ok trxs
    else if itr.2.name ≠ name then .ok trxs
    else
      match d.getOperation itr.2.opId with
      | .ok obj => collectHistory name limit rest (num + 1) (assignEntry itr.2.sequence obj trxs)
      | .error e => .error e

/-- `get_account_history`. -/
def getAccountHistory (name : AccountName) (start limit : UInt32) :
    Except Exc (List (UInt32 × OperationObjApi)) :=
  if limit ≤ apiLimit then
    if limit ≤ start then
      d.collectHistory name limit.toNat (lowerBound d.store.content.accountHistory.table (name, start))
        0 []
    else .error (.assertion "start must be greater than limit")
  else .error (.assertion "limit <= API_LIMIT")

end Database

end NewsChain
