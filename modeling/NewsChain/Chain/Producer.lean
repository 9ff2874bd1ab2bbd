import NewsChain.Chain.Database

/-!
# The producer plugin

`producer_plugin`: about once a second the production loop reads the clock and lets
`maybe_produce_block` decide whether a block is due. The clock is the argument; the write queue of
the chain plugin, which hands the request to the database, is run through at once.
-/

namespace NewsChain

/-- `block_production_condition_enum`, what `maybe_produce_block` returns of it. -/
inductive BlockProductionCondition
  | produced
  | notSynced
  | notMyTurn
  | notTimeYet
  | noPrivateKey
  | lag
deriving DecidableEq, Repr

variable [Node]

/-- The members of `producer_plugin_impl`, with the database behind `_db`. -/
structure ProducerPlugin where
  productionEnabled : Bool
  /-- `_private_keys`, in the order of its keys. -/
  privateKeys : List (PublicKey × PrivateKey)
  producers : List AccountName
  db : Database
  /-- What `broadcast_block` has been called with, newest first. -/
  broadcast : List SignedBlock := []

/-- Code over the plugin. -/
abbrev ProducerM := EStateM Exc ProducerPlugin

/-- A call of the database. -/
def onDb {α : Type} (m : DbM α) : ProducerM α := fun p =>
  match m.run p.db with
  | .ok a d => .ok a { p with db := d }
  | .error e d => .error e { p with db := d }

/-- `time_point_sec( now_fine + fc::microseconds( 500000l ) )`, of a time in microseconds. -/
def roundedNow (nowFine : Int) : TimePointSec :=
  UInt32.ofInt ((nowFine + 500000).tdiv 1000000)

/-- `llabs( ( scheduled_time - now ).count() )`, in microseconds. -/
def microsecondsApart (scheduledTime now : TimePointSec) : Nat :=
  ((scheduledTime.toNat : Int) * 1000000 - (now.toNat : Int) * 1000000).natAbs

/-- `maybe_produce_block`, from the slot on. `begin()` of an empty map must not be read; it stands
for a key that is not found. -/
def produceInSlot (now : TimePointSec) (slot : UInt32) : ProducerM BlockProductionCondition := do
  let p ← get
  let producer := p.db.gpo.scheduledProducer slot
  if producer ∉ p.producers then pure .notMyTurn
  else
    let scheduledTime := p.db.gpo.slotTime slot
    match p.privateKeys with
    | [] => pure .noPrivateKey
    | (_, privateKey) :: _ =>
      if 500 < microsecondsApart scheduledTime now then pure .lag
      else
        let block ← onDb (generateBlock skipNothing now producer privateKey)
        modify fun p => { p with broadcast := block :: p.broadcast }
        pure .produced

/-- `maybe_produce_block`. -/
def maybeProduceBlock (nowFine : Int) : ProducerM BlockProductionCondition := do
  let now := roundedNow nowFine
  let gpo := (← get).db.gpo
  if (← get).productionEnabled = false ∧ gpo.slotTime 1 < now then pure .notSynced
  else
    modify fun p => { p with productionEnabled := true }
    let slot := gpo.slotAtTime now
    if slot = 0 then pure .notTimeYet
    else produceInSlot now slot

end NewsChain
