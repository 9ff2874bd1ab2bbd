import Mathlib.Data.List.DropRight
import NewsChain.Chain.Sync

/-!
# A synchronisation

The part of the network code that brings a node to the chain of a peer, with one peer connected: the
node sends a synopsis, the peer answers it with the ids that come next, the node asks for their blocks
and hands them to the chain in the order of the ids, in whatever order they come in.

Handlers run one at a time. A request stands in the connection until its answer comes, so a message on
its way is not kept besides. What the scheduler may do next is a step of `SyncRun`.
-/

namespace NewsChain

/-- `GRAPHENE_NET_MIN_BLOCK_IDS_TO_PREFETCH`. -/
def minBlockIdsToPrefetch : Nat := 10000

/-- `GRAPHENE_NET_MAX_BLOCKS_PER_PEER_DURING_SYNCING`. -/
def maxBlocksPerPeerDuringSyncing : Nat := 200

/-- `GRAPHENE_NET_FUTURE_SYNC_BLOCKS_GRACE_PERIOD_SEC`. -/
def futureSyncBlocksGracePeriodSec : UInt32 := 3600

/-- `GRAPHENE_NET_DEFAULT_MAX_CONNECTIONS`, the capacity of `_most_recent_blocks_accepted`. -/
def defaultMaxConnections : Nat := 200

/-- The `limit` that `get_block_ids` is called with. -/
def blockIdsLimit : Nat := 2000

/-- What a `peer_connection` keeps of the synchronisation with its peer. -/
structure PeerConnection where
  lastBlockDelegateHasSeen : BlockId := .null
  lastBlockTimeDelegateHasSeen : TimePointSec := 0
  idsOfItemsToGet : List BlockId := []
  numberOfUnfetchedItemIds : Nat := 0
  itemIdsRequestedFromPeer : Option (List BlockId) := none
  syncItemsRequestedFromPeer : List BlockId := []
  weNeedSyncItemsFromPeer : Bool := true

/-- `idle`. -/
def PeerConnection.idle (p : PeerConnection) : Bool :=
  p.syncItemsRequestedFromPeer.isEmpty && p.itemIdsRequestedFromPeer.isNone

/-- What `disconnect_from_peer` is called for. -/
inductive DisconnectReason
  /-- "You are on a fork I'm unable to switch to" -/
  | unableToSwitch
  /-- "You gave an invalid response to my request for sync blocks" -/
  | invalidResponse
  /-- "You offered me a list of more sync blocks than could possibly exist" -/
  | moreThanCouldExist
  /-- "You offered us a block that we reject as invalid" -/
  | rejectedAsInvalid
  /-- "You sent me a block that I didn't ask for" -/
  | notAskedFor
deriving DecidableEq

variable [Node]

/-- What a node keeps of a synchronisation: `_received_sync_items` and `_new_received_sync_items` are
one list. -/
structure SyncNode where
  database : Database
  peer : PeerConnection := {}
  receivedSyncItems : List SignedBlock := []
  mostRecentBlocksAccepted : List BlockId := []
  disconnected : Option DisconnectReason := none

/-- `get_block_time`. -/
def Database.getBlockTime (d : Database) (id : BlockId) : TimePointSec :=
  match d.fetchBlockById id with
  | some b => b.timestamp
  | none => 0

/-! ## Asking for ids -/

/-- The loop of `create_blockchain_synopsis_for_peer`. A round in which nothing wraps raises
`low_block_num`, so `true_high_block_num` rounds are enough. -/
def missingElements (ids : List BlockId) (first trueHigh : Nat) :
    Nat → Nat → Except SyncExc (List BlockId)
  | 0, _ => .error (.database (.undefinedBehavior "create_blockchain_synopsis_for_peer does not end"))
  | rounds + 1, low =>
    let more : Except SyncExc (List BlockId) :=
      if nextLow trueHigh low ≤ trueHigh then
        missingElements ids first trueHigh rounds (nextLow trueHigh low)
      else .ok []
    if first ≤ low then
      match ids[low - first]? with
      | none => .error (.database (.assertion "idx < original_ids_of_items_to_get.size()"))
      | some id => more.map (id :: ·)
    else more

/-- `create_blockchain_synopsis_for_peer`. -/
def createBlockchainSynopsisForPeer (d : Database) (p : PeerConnection) :
    Except SyncExc (List BlockId) :=
  let numberOfBlocksAfterReferencePoint := p.idsOfItemsToGet.length % 2 ^ 32
  match d.getBlockchainSynopsis p.lastBlockDelegateHasSeen numberOfBlocksAfterReferencePoint with
  | .error e => .error e
  | .ok synopsis =>
    if numberOfBlocksAfterReferencePoint = 0 then .ok synopsis
    else
      let first := numFromId (p.idsOfItemsToGet.headD .null)
      let trueHigh := (first + p.idsOfItemsToGet.length - 1) % 2 ^ 32
      let low := (synopsis.head?.map numFromId).getD 1
      (missingElements p.idsOfItemsToGet first trueHigh (trueHigh + 1) low).map (synopsis ++ ·)

namespace SyncNode

variable (n : SyncNode)

/-- `disconnect_from_peer`. -/
def disconnectFromPeer (reason : DisconnectReason) : SyncNode := { n with disconnected := some reason }

/-- `fetch_next_batch_of_item_ids_from_peer`. Another exception goes to a caller that logs it. -/
def fetchNextBatchOfItemIdsFromPeer : SyncNode :=
  match createBlockchainSynopsisForPeer n.database n.peer with
  | .ok synopsis => { n with peer := { n.peer with itemIdsRequestedFromPeer := some synopsis } }
  | .error .blockOlderThanUndoHistory => n.disconnectFromPeer .unableToSwitch
  | .error _ => n

/-- `start_synchronizing_with_peer`. -/
def startSynchronizingWithPeer : SyncNode :=
  fetchNextBatchOfItemIdsFromPeer
    { n with
      peer :=
        { n.peer with
          idsOfItemsToGet := []
          numberOfUnfetchedItemIds := 0
          weNeedSyncItemsFromPeer := true
          lastBlockDelegateHasSeen := .null
          lastBlockTimeDelegateHasSeen := n.database.getBlockTime .null } }

end SyncNode

/-- `on_fetch_blockchain_item_ids_message`: the reply, where one is sent. -/
def onFetchBlockchainItemIdsMessage (server : Database) (synopsis : List BlockId) :
    Option (List BlockId × Nat) :=
  match server.getBlockIds synopsis blockIdsLimit with
  | .ok reply => some reply
  | .error .peerIsOnAnUnreachableFork => some ([], 0)
  | .error _ => none

/-! ## Taking in ids -/

/-- The ids are numbered one after the other. -/
def Sequential : List BlockId → Prop
  | [] => True
  | first :: rest => ∀ i id, rest[i]? = some id → numFromId id = (numFromId first + (i + 1)) % 2 ^ 32

/-- The first id of an answer builds off the synopsis. -/
def BuildsOff (synopsis : List BlockId) (first : BlockId) : Prop :=
  if synopsis = [] then numFromId first = 1 else first ∈ synopsis

/-- Items at the front that the node has are passed over. -/
def flushKnown (d : Database) : List BlockId → PeerConnection → List BlockId × PeerConnection
  | [], p => ([], p)
  | id :: rest, p =>
    if d.isKnowBlock id then
      flushKnown d rest
        { p with lastBlockDelegateHasSeen := id, lastBlockTimeDelegateHasSeen := d.getBlockTime id }
    else (id :: rest, p)

/-- What is appended of an answer, and the connection it is appended to. -/
def spliceIds (d : Database) (p : PeerConnection) :
    List BlockId → List BlockId × PeerConnection
  | [] => ([], p)
  | front :: rest =>
    if p.idsOfItemsToGet = [] then flushKnown d (front :: rest) p
    else
      match p.idsOfItemsToGet.rdropWhile (· ≠ front) with
      | [] =>
        (rest,
          { p with
            idsOfItemsToGet := []
            lastBlockDelegateHasSeen := front
            lastBlockTimeDelegateHasSeen := d.getBlockTime front })
      | ids => (front :: rest, { p with idsOfItemsToGet := ids.dropLast })

/-- The last of the offered blocks would be in the future. -/
def PeerConnection.Implausible (p : PeerConnection) (now : TimePointSec) : Prop :=
  now + futureSyncBlocksGracePeriodSec <
    p.lastBlockTimeDelegateHasSeen + UInt32.ofNat p.numberOfUnfetchedItemIds * 3

instance (ids : List BlockId) : Decidable (Sequential ids) :=
  match ids with
  | [] => .isTrue trivial
  | first :: rest =>
    decidable_of_iff (∀ i : Fin rest.length,
        numFromId rest[i] = (numFromId first + (i + 1)) % 2 ^ 32)
      ⟨fun h i id hid => by
        obtain ⟨hlt, rfl⟩ := List.getElem?_eq_some_iff.mp hid
        exact h ⟨i, hlt⟩,
      fun h i => h i _ (List.getElem?_eq_getElem i.isLt)⟩

instance (synopsis : List BlockId) (first : BlockId) : Decidable (BuildsOff synopsis first) :=
  inferInstanceAs (Decidable (if synopsis = [] then numFromId first = 1 else first ∈ synopsis))

instance (p : PeerConnection) (now : TimePointSec) : Decidable (p.Implausible now) :=
  inferInstanceAs (Decidable (_ < _))

namespace SyncNode

variable (n : SyncNode)

/-- The peer has no items after those the node has. -/
def UpToDate (ids : List BlockId) (remaining : Nat) : Prop :=
  remaining = 0 ∧ (ids = [] ∨ ∃ id, ids = [id] ∧ n.database.isKnowBlock id = true) ∧
    n.peer.idsOfItemsToGet = [] ∧ n.peer.numberOfUnfetchedItemIds = 0

instance (ids : List BlockId) (remaining : Nat) : Decidable (n.UpToDate ids remaining) :=
  match ids with
  | [] => decidable_of_iff (remaining = 0 ∧ n.peer.idsOfItemsToGet = [] ∧
      n.peer.numberOfUnfetchedItemIds = 0) (by simp [UpToDate])
  | [id] => decidable_of_iff (remaining = 0 ∧ n.database.isKnowBlock id = true ∧
      n.peer.idsOfItemsToGet = [] ∧ n.peer.numberOfUnfetchedItemIds = 0) (by simp [UpToDate])
  | _ :: _ :: _ => .isFalse (by simp [UpToDate])

/-- `on_blockchain_item_ids_inventory_message`, from where the answer was checked on. -/
def takeIds (now : TimePointSec) (ids : List BlockId) (remaining : Nat) : SyncNode :=
  let spliced := spliceIds n.database n.peer ids
  let n' : SyncNode :=
    { n with
      peer :=
        { spliced.2 with
          idsOfItemsToGet := spliced.2.idsOfItemsToGet ++ spliced.1
          numberOfUnfetchedItemIds := remaining } }
  if n'.peer.Implausible now then n'.disconnectFromPeer .moreThanCouldExist
  else if remaining ≠ 0 then
    if minBlockIdsToPrefetch < n'.peer.idsOfItemsToGet.length then n'
    else n'.fetchNextBatchOfItemIdsFromPeer
  else if n'.peer.idsOfItemsToGet ≠ [] then n'
  else n'.fetchNextBatchOfItemIdsFromPeer

/-- `on_blockchain_item_ids_inventory_message`. -/
def onBlockchainItemIdsInventoryMessage (now : TimePointSec) (ids : List BlockId)
    (remaining : Nat) : SyncNode :=
  match n.peer.itemIdsRequestedFromPeer with
  | none => n
  | some synopsis =>
    if ¬ Sequential ids then n.disconnectFromPeer .invalidResponse
    else if ∃ id ∈ ids.head?, ¬ BuildsOff synopsis id then n.disconnectFromPeer .invalidResponse
    else
      let n' : SyncNode := { n with peer := { n.peer with itemIdsRequestedFromPeer := none } }
      if n'.UpToDate ids remaining then
        { n' with peer := { n'.peer with weNeedSyncItemsFromPeer := false } }
      else n'.takeIds now ids remaining

/-! ## Fetching blocks -/

/-- One round of `fetch_sync_items_loop`. -/
def fetchSyncItems : SyncNode :=
  if n.peer.weNeedSyncItemsFromPeer ∧ n.peer.idle then
    let missing := n.peer.idsOfItemsToGet.filter (· ∉ n.receivedSyncItems.map (·.id))
    { n with
      peer :=
        { n.peer with
          syncItemsRequestedFromPeer := missing.eraseDups.take maxBlocksPerPeerDuringSyncing } }
  else n

/-- `process_block_message`, for a block of the synchronisation. -/
def processBlockMessage (b : SignedBlock) : SyncNode :=
  if b.id ∈ n.peer.syncItemsRequestedFromPeer then
    let n' : SyncNode :=
      { n with
        receivedSyncItems := b :: n.receivedSyncItems
        peer :=
          { n.peer with
            syncItemsRequestedFromPeer := n.peer.syncItemsRequestedFromPeer.erase b.id } }
    if n'.peer.idle ∧ 0 < n'.peer.numberOfUnfetchedItemIds ∧
        n'.peer.idsOfItemsToGet.length < minBlockIdsToPrefetch then
      n'.fetchNextBatchOfItemIdsFromPeer
    else n'
  else n.disconnectFromPeer .notAskedFor

/-- Where the last item of the list was processed, the node asks if it is in sync. -/
def askAgain : SyncNode :=
  if n.peer.idsOfItemsToGet = [] ∧ n.peer.numberOfUnfetchedItemIds = 0 then
    n.fetchNextBatchOfItemIdsFromPeer
  else n

/-- `send_sync_block_to_node_delegate`. -/
def sendSyncBlockToNodeDelegate (b : SignedBlock) : SyncNode :=
  match (pushBlock skipNothing b).run n.database with
  | .ok _ d =>
    askAgain
      { n with
        database := d
        mostRecentBlocksAccepted := (n.mostRecentBlocksAccepted ++ [b.id]).rtake defaultMaxConnections
        peer :=
          { n.peer with
            lastBlockDelegateHasSeen := b.id
            lastBlockTimeDelegateHasSeen := b.timestamp } }
  | .error _ d => disconnectFromPeer { n with database := d } .rejectedAsInvalid

/-- One block of `process_backlog_of_sync_blocks`: the next one, if it has come in. -/
def processBacklogOfSyncBlocks : SyncNode :=
  match n.peer.idsOfItemsToGet with
  | [] => n
  | id :: rest =>
    match n.receivedSyncItems.find? (·.id = id) with
    | none => n
    | some b =>
      let n' : SyncNode := { n with peer := { n.peer with idsOfItemsToGet := rest } }
      if id ∈ n.mostRecentBlocksAccepted then n'.askAgain
      else
        sendSyncBlockToNodeDelegate
          { n' with receivedSyncItems := n.receivedSyncItems.eraseP (·.id = id) } b

end SyncNode

/-- The states of a node that synchronises with a peer whose database stays as it is. Answers come when
they come, blocks in any order; the node fetches and processes when it is scheduled, and takes in
transactions besides. -/
inductive SyncRun (server : Database) (start : SyncNode) : SyncNode → Prop
  | start : SyncRun server start start.startSynchronizingWithPeer
  | inventory {n : SyncNode} (now : TimePointSec) {synopsis ids : List BlockId} {remaining : Nat} :
      SyncRun server start n → n.disconnected = none →
      n.peer.itemIdsRequestedFromPeer = some synopsis →
      onFetchBlockchainItemIdsMessage server synopsis = some (ids, remaining) →
      SyncRun server start (n.onBlockchainItemIdsInventoryMessage now ids remaining)
  | fetch {n : SyncNode} : SyncRun server start n → n.disconnected = none →
      SyncRun server start n.fetchSyncItems
  | block {n : SyncNode} {id : BlockId} {b : SignedBlock} : SyncRun server start n →
      n.disconnected = none → id ∈ n.peer.syncItemsRequestedFromPeer →
      server.fetchBlockById id = some b → SyncRun server start (n.processBlockMessage b)
  | backlog {n : SyncNode} : SyncRun server start n → n.disconnected = none →
      SyncRun server start n.processBacklogOfSyncBlocks
  | transaction {n : SyncNode} (t : SignedTransaction) : SyncRun server start n →
      SyncRun server start
        { n with database := finalState ((pushTransaction skipNothing t).run n.database) }

end NewsChain
