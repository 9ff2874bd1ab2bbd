import NewsChain.Chain.Database

/-!
# Synchronising with peers

The two calls by which `p2p_plugin` tells the network code what is on its chain. `get_block_ids`
answers a peer's synopsis with the ids that come next, and `get_blockchain_synopsis` makes one, of
the main chain or of a fork. Both run under a read lock, so the database is an argument.

`uint32_t` sums that the source takes of block numbers wrap; a comparison is of natural numbers.
-/

namespace NewsChain

/-- What these calls throw. -/
inductive SyncExc
  /-- What the database throws. -/
  | database (e : Exc)
  /-- `peer_is_on_an_unreachable_fork`. -/
  | peerIsOnAnUnreachableFork
  /-- `block_older_than_undo_history`. -/
  | blockOlderThanUndoHistory
deriving DecidableEq

variable [Node]

namespace Database

variable (d : Database)

/-- `last_non_undoable_block_num`. -/
def lastNonUndoableBlockNum : Nat := d.gpo.lastIrreversibleBlockNum

/-- `is_know_block`. -/
def isKnowBlock (id : BlockId) : Bool := (d.fetchBlockById id).isSome

/-- `get_block_id_for_num`. -/
def getBlockIdForNum (blockNum : Nat) : Except Exc BlockId :=
  if d.findBlockIdForNum blockNum ≠ .null then .ok (d.findBlockIdForNum blockNum)
  else .error (.assertion "bid != block_id_type()")

/-- `is_included_block`. -/
def isIncludedBlock (id : BlockId) : Except Exc Bool :=
  match d.getBlockIdForNum (numFromId id) with
  | .ok blockIdInPreferredChain => .ok (id == blockIdInPreferredChain)
  | .error e => .error e

/-- `get_block_ids_on_fork`: the fork from its head down, and the block it leaves the chain at. -/
def getBlockIdsOnFork (headOfFork : BlockId) : Except Exc (List BlockId) :=
  match d.forkDb.fetchBranchFrom d.headBlockId headOfFork with
  | .ok (first, second) => .ok (second.items.reverse.map (·.id) ++ [first.back.data.previous])
  | .error e => .error e

/-! ## `get_block_ids` -/

/-- The loop of `get_block_ids` over the synopsis, from its end on. -/
def lastKnownBlockId : List BlockId → Except SyncExc BlockId
  | [] => .error .peerIsOnAnUnreachableFork
  | id :: rest =>
    if id = .null then .ok id
    else if d.isKnowBlock id then
      match d.isIncludedBlock id with
      | .ok true => .ok id
      | .ok false => lastKnownBlockId rest
      | .error e => .error (.database e)
    else lastKnownBlockId rest

/-- The loop of `get_block_ids` over the numbers. Of two rounds one adds an id, unless they pass
`head_block_num`; so the rounds it gets are enough. -/
def collectBlockIds (limit : Nat) : Nat → Nat → List BlockId → Except SyncExc (List BlockId)
  | 0, _, _ => .error (.database (.undefinedBehavior "get_block_ids does not end"))
  | rounds + 1, num, result =>
    if num ≤ d.headBlockNum ∧ result.length < limit then
      if 0 < num then
        match d.getBlockIdForNum num with
        | .ok id => collectBlockIds limit rounds ((num + 1) % 2 ^ 32) (result ++ [id])
        | .error e => .error (.database e)
      else collectBlockIds limit rounds ((num + 1) % 2 ^ 32) result
    else .ok result

/-- `remaining_item_count` for a result. -/
def remainingItemCount (result : List BlockId) : Nat :=
  match result.getLast? with
  | none => 0
  | some id => if numFromId id < d.headBlockNum then d.headBlockNum - numFromId id else 0

/-- `get_block_ids`: the ids, and `remaining_item_count`. -/
def getBlockIds (blockchainSynopsis : List BlockId) (limit : Nat) :
    Except SyncExc (List BlockId × Nat) :=
  if d.headBlockNum = 0 then .ok ([], 0)
  else
    let lastKnown :=
      if blockchainSynopsis = [] ∨ blockchainSynopsis = [.null] then .ok .null
      else d.lastKnownBlockId blockchainSynopsis.reverse
    match lastKnown with
    | .error e => .error e
    | .ok id =>
      match d.collectBlockIds limit (d.headBlockNum + 2 * limit + 2) (numFromId id) [] with
      | .error e => .error e
      | .ok result => .ok (result, d.remainingItemCount result)

/-! ## `get_blockchain_synopsis` -/

end Database

/-- The local variables of `get_blockchain_synopsis` before its loop. -/
structure SynopsisRange where
  lowBlockNum : Nat
  nonForkHighBlockNum : Nat
  highBlockNum : Nat
  forkHistory : List BlockId

/-- `low_block_num += (true_high_block_num - low_block_num + 2) / 2`, in 32 bits. -/
def nextLow (trueHighBlockNum lowBlockNum : Nat) : Nat :=
  (lowBlockNum + (trueHighBlockNum + 2 ^ 32 - lowBlockNum + 2) % 2 ^ 32 / 2) % 2 ^ 32

namespace Database

variable (d : Database)

/-- What `get_blockchain_synopsis` does with a block on a fork. -/
def forkRange (referencePoint : BlockId) : Except SyncExc SynopsisRange :=
  match d.getBlockIdsOnFork referencePoint with
  | .error e => .error (.database e)
  | .ok history =>
    let lastNonForkBlock := history.getLastD .null
    let forkHistory := history.dropLast.reverse
    let nonForkHighBlockNum := if lastNonForkBlock = .null then 0 else numFromId lastNonForkBlock
    if nonForkHighBlockNum < d.lastNonUndoableBlockNum then .error .blockOlderThanUndoHistory
    else .ok
      { lowBlockNum := d.lastNonUndoableBlockNum
        nonForkHighBlockNum
        highBlockNum := nonForkHighBlockNum + forkHistory.length
        forkHistory }

/-- The start of `get_blockchain_synopsis`; `none` where there are no blocks. -/
def synopsisRange (referencePoint : BlockId) : Except SyncExc (Option SynopsisRange) :=
  if referencePoint ≠ .null then
    match d.isIncludedBlock referencePoint with
    | .error e => .error (.database e)
    | .ok true =>
      let num := numFromId referencePoint
      .ok (some
        { lowBlockNum := if num < d.lastNonUndoableBlockNum then num else d.lastNonUndoableBlockNum
          nonForkHighBlockNum := num
          highBlockNum := num
          forkHistory := [] })
    | .ok false => (d.forkRange referencePoint).map some
  else if d.headBlockNum = 0 then .ok none
  else .ok (some
    { lowBlockNum := d.lastNonUndoableBlockNum
      nonForkHighBlockNum := d.headBlockNum
      highBlockNum := d.headBlockNum
      forkHistory := [] })

/-- The id `get_blockchain_synopsis` puts in for a number. -/
def synopsisId (r : SynopsisRange) (lowBlockNum : Nat) : Except SyncExc BlockId :=
  if lowBlockNum ≤ r.nonForkHighBlockNum then
    match d.getBlockIdForNum lowBlockNum with
    | .ok id => .ok id
    | .error e => .error (.database e)
  else
    match r.forkHistory[lowBlockNum - r.nonForkHighBlockNum - 1]? with
    | some id => .ok id
    | none => .error (.database (.undefinedBehavior "fork_history[]"))

/-- The loop of `get_blockchain_synopsis`. A round in which nothing wraps raises `low_block_num`, so
`high_block_num` rounds are enough. -/
def synopsisLoop (r : SynopsisRange) (trueHighBlockNum : Nat) :
    Nat → Nat → Except SyncExc (List BlockId)
  | 0, _ => .error (.database (.undefinedBehavior "get_blockchain_synopsis does not end"))
  | rounds + 1, lowBlockNum =>
    match d.synopsisId r lowBlockNum with
    | .error e => .error e
    | .ok id =>
      if nextLow trueHighBlockNum lowBlockNum ≤ r.highBlockNum then
        match synopsisLoop r trueHighBlockNum rounds (nextLow trueHighBlockNum lowBlockNum) with
        | .ok synopsis => .ok (id :: synopsis)
        | .error e => .error e
      else .ok [id]

/-- `get_blockchain_synopsis`. -/
def getBlockchainSynopsis (referencePoint : BlockId) (numberOfBlocksAfterReferencePoint : Nat) :
    Except SyncExc (List BlockId) :=
  match d.synopsisRange referencePoint with
  | .error e => .error e
  | .ok none => .ok []
  | .ok (some r) =>
    let lowBlockNum := if r.lowBlockNum = 0 then 1 else r.lowBlockNum
    d.synopsisLoop r ((r.highBlockNum + numberOfBlocksAfterReferencePoint) % 2 ^ 32)
      (r.highBlockNum + 1) lowBlockNum

end Database

end NewsChain
