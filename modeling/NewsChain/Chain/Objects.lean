import NewsChain.Base.Exception
import NewsChain.Base.Types
import NewsChain.Chainbase.Table

/-!
# The objects of the chain state

The eight indexes `initialize_indexes` adds, as one record. The five indexes that gain rows while
blocks are applied are contents with their next free id. The global properties and the hardfork
properties are single rows, and the block summaries are 65536 rows that are only overwritten, so
each is held as what its rows say.

`ObjM` is the monad of the code that writes objects. A throw leaves its writes in place: taking
them back is the business of the undo session around it.
-/

namespace NewsChain

/-! ## Object types -/

/-- `dynamic_global_property_object`. -/
structure DynamicGlobalProperty where
  headBlockNum : Nat := 0
  headBlockId : BlockId := .null
  time : TimePointSec
  lastIrreversibleBlockNum : Nat := 0
  currentAslot : UInt32 := 0
deriving DecidableEq

/-- `transaction_object`. -/
structure TransactionObject where
  expiration : TimePointSec
  trxId : TransactionId
  packedTrx : List UInt8
deriving DecidableEq

instance : Indexed TransactionObject where
  Key := TransactionId
  keys := [(·.trxId)]

/-- `account_object`. -/
structure AccountObject where
  name : AccountName
  creator : AccountName := 0
  balance : Asset := {}
  createTime : TimePointSec := 0
deriving DecidableEq

instance : Indexed AccountObject where
  Key := AccountName
  keys := [(·.name)]

/-- `account_authority_object`. -/
structure AccountAuthorityObject where
  name : AccountName
  posting : SharedAuthority
  owner : SharedAuthority
deriving DecidableEq

instance : Indexed AccountAuthorityObject where
  Key := AccountName
  keys := [(·.name)]

/-- `operation_object`. Its second unique key contains the id, so it never collides. -/
structure OperationObject where
  trxId : TransactionId
  block : Nat
  trxInBlock : Nat
  timestamp : TimePointSec
  opPacked : List UInt8
deriving DecidableEq

instance : Indexed OperationObject where
  Key := Unit
  keys := []

/-- `account_history_object`. -/
structure AccountHistoryObject where
  name : AccountName
  sequence : UInt32
  opId : Nat
deriving DecidableEq

instance : Indexed AccountHistoryObject where
  Key := AccountName × UInt32
  keys := [fun h => (h.name, h.sequence)]

/-- `hardfork_property_object`. -/
structure HardforkProperty where
  processedHardfork : List TimePointSec
  lastHardfork : Nat := 0
  currentHardforkVersion : Version := 1
  nextHardforkVersion : Version := 1
  nextHardforkTime : TimePointSec := 0
deriving DecidableEq

/-- Everything a block can change. -/
@[ext] structure Objects where
  gpo : DynamicGlobalProperty
  blockSummary : UInt16 → BlockId
  transactions : Content TransactionObject
  accounts : Content AccountObject
  authorities : Content AccountAuthorityObject
  operations : Content OperationObject
  accountHistory : Content AccountHistoryObject
  hardfork : HardforkProperty

/-- One of the growing indexes, as a place in the record. -/
structure Column (V : Type) [Indexed V] where
  get : Objects → Content V
  set : Content V → Objects → Objects

namespace Column

def transactions : Column TransactionObject := ⟨(·.transactions), fun c o => { o with transactions := c }⟩
def accounts : Column AccountObject := ⟨(·.accounts), fun c o => { o with accounts := c }⟩
def authorities : Column AccountAuthorityObject :=
  ⟨(·.authorities), fun c o => { o with authorities := c }⟩
def operations : Column OperationObject := ⟨(·.operations), fun c o => { o with operations := c }⟩
def accountHistory : Column AccountHistoryObject :=
  ⟨(·.accountHistory), fun c o => { o with accountHistory := c }⟩

end Column

/-! ## Writing objects -/

/-- Code over the objects: it throws, and its writes survive the throw. -/
abbrev ObjM := EStateM Exc Objects

variable {V : Type} [Indexed V]

/-- `create<T>`. -/
def create (col : Column V) (v : V) : ObjM Unit := do
  match (col.get (← get)).emplace v with
  | some c => modify (col.set c)
  | none => throw (.logicError
      "could not insert object, most likely a uniqueness constraint was violated")

/-- `modify` of the row at `i`. -/
def modifyRow (col : Column V) (i : Nat) (m : Modifier V) : ObjM Unit :=
  modify fun o => col.set ((col.get o).modify i m) o

/-- `remove` of the row at `i`. -/
def removeRow (col : Column V) (i : Nat) : ObjM Unit :=
  modify fun o => col.set ((col.get o).erase i) o

/-- `modify` of the global properties. -/
def modifyGpo (f : DynamicGlobalProperty → DynamicGlobalProperty) : ObjM Unit :=
  modify fun o => { o with gpo := f o.gpo }

/-- `modify` of the hardfork properties. -/
def modifyHardfork (f : HardforkProperty → HardforkProperty) : ObjM Unit :=
  modify fun o => { o with hardfork := f o.hardfork }

section Runs

variable (o : Objects)

theorem run_create (col : Column V) (v : V) :
    (create col v).run o =
      match (col.get o).emplace v with
      | some c => .ok () (col.set c o)
      | none => .error (.logicError
          "could not insert object, most likely a uniqueness constraint was violated") o := by
  simp only [create, EStateM.run_bind, EStateM.run_get]
  split <;> rfl

@[simp] theorem run_modifyRow (col : Column V) (i : Nat) (m : Modifier V) :
    (modifyRow col i m).run o = .ok () (col.set ((col.get o).modify i m) o) := rfl

@[simp] theorem run_removeRow (col : Column V) (i : Nat) :
    (removeRow col i).run o = .ok () (col.set ((col.get o).erase i) o) := rfl

@[simp] theorem run_modifyGpo (f : DynamicGlobalProperty → DynamicGlobalProperty) :
    (modifyGpo f).run o = .ok () { o with gpo := f o.gpo } := rfl

@[simp] theorem run_modifyHardfork (f : HardforkProperty → HardforkProperty) :
    (modifyHardfork f).run o = .ok () { o with hardfork := f o.hardfork } := rfl

end Runs

/-! ## Reading objects -/

/-- `get_account`. -/
def getAccount (name : AccountName) : ObjM (Nat × AccountObject) := do
  match (← get).accounts.table.findBy (·.name == name) with
  | some r => pure r
  | none => throw (.outOfRange "unknown key")

/-- The row of `account_authority_index` under a name. -/
def Objects.authorityOf (o : Objects) (name : AccountName) : Option (Nat × AccountAuthorityObject) :=
  o.authorities.table.findBy (·.name == name)

/-- `is_know_transaction`. -/
def Objects.isKnowTransaction (o : Objects) (id : TransactionId) : Bool :=
  (o.transactions.table.findBy (·.trxId == id)).isSome

/-- `get_slot_time`. -/
def DynamicGlobalProperty.slotTime (gpo : DynamicGlobalProperty) (slotNum : UInt32) : TimePointSec :=
  if slotNum = 0 then 0
  else if gpo.headBlockNum = 0 then gpo.time + slotNum * 3
  else gpo.time / 3 * 3 + slotNum * 3

/-- `get_slot_at_time`. -/
def DynamicGlobalProperty.slotAtTime (gpo : DynamicGlobalProperty) (when_ : TimePointSec) : UInt32 :=
  if when_ < gpo.slotTime 1 then 0 else (when_ - gpo.slotTime 1) / 3 + 1

/-- The `producers` of `get_scheduled_producer`. -/
def producers : List AccountName := [systemAccountName, systemAccountName + 1]

/-- `get_scheduled_producer`. The slots are added in 32 bits. -/
def DynamicGlobalProperty.scheduledProducer (gpo : DynamicGlobalProperty) (num : UInt32) :
    AccountName :=
  producers.get ⟨(gpo.currentAslot + num).toNat % producers.length, Nat.mod_lt _ (by decide)⟩

/-! ## Genesis -/

/-- The freshly added indexes. -/
def Objects.empty : Objects where
  gpo := { time := 0 }
  blockSummary := fun _ => .null
  transactions := .empty
  accounts := .empty
  authorities := .empty
  operations := .empty
  accountHistory := .empty
  hardfork := { processedHardfork := [] }

/-- The start of `init_genesis`: the global properties and the system accounts. -/
def initSystemAccounts : ObjM Unit := do
  modifyGpo fun gpo => { gpo with time := genesisTime }
  forM [0, 1, 2] fun i =>
    create .accounts { name := systemAccountName + i, balance := { amount := int64Max } }

variable [Env]

/-- `init_genesis`. The 65536 block summaries it creates are all blank. -/
def initGenesis : ObjM Unit := do
  initSystemAccounts
  forM [0, 1, 2] fun i =>
    create .authorities
      { name := systemAccountName + i, posting := ⟨Env.initKey, 1⟩, owner := ⟨Env.initKey, 1⟩ }
  create .accounts { name := systemAcceptName }
  create .authorities
    { name := systemAcceptName, posting := ⟨Env.acceptKey, 1⟩, owner := ⟨Env.acceptKey, 1⟩ }
  modifyHardfork fun hpo => { hpo with processedHardfork := [genesisTime] }

/-- The state after `init_genesis`. -/
def genesis : Objects := finalState (initGenesis.run .empty)

end NewsChain
