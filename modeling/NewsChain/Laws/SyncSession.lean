import NewsChain.Laws.Following

/-!
# A synchronisation brings a node to its peer's chain

`syncRun_agrees`: whatever the order in which answers and blocks arrive and in which the node gets to
fetch and to process, it is never given a block it rejects, never takes an honest peer's answer for an
invalid one, and when it takes itself to be in sync it has the peer's chain.

The invariant is that the node has the blocks of the peer's chain up to some number, and that the ids
it still has to get are those from there up to another (`Tracking`).
-/

namespace NewsChain

open EStateM (Result)

section Sessions

variable [Node] {all start peers : List SignedBlock} {n p m : Nat} {d d' server : Database}
  {b : SignedBlock} {id : BlockId} {synopsis : List BlockId}

/-! ## Ranges of ids -/

/-- The ids of the peer's chain above one number up to another. -/
def range (peers : List SignedBlock) (p m : Nat) : List BlockId := ((mainIds peers).take m).drop p

theorem length_range (hm : m ≤ peers.length) : (range peers p m).length = m - p := by
  rw [range, List.length_drop, List.length_take, length_mainIds, Nat.min_eq_left hm]

theorem range_self (peers : List SignedBlock) (p : Nat) : range peers p p = [] :=
  List.drop_eq_nil_of_le (List.length_take_le _ _)

theorem getElem_range {k : Nat} (hk : p + k < m) :
    (range peers p m)[k]? = (mainIds peers)[p + k]? := by
  rw [range, List.getElem?_drop, List.getElem?_take_of_lt hk]

theorem range_eq_cons (hp : p < m) (hm : m ≤ peers.length) :
    ∃ id, (mainIds peers)[p]? = some id ∧ range peers p m = id :: range peers (p + 1) m := by
  have hlt : p < (mainIds peers).length := by
    rw [length_mainIds]
    omega
  have hlt' : p < ((mainIds peers).take m).length := by
    rw [List.length_take]
    omega
  refine ⟨_, List.getElem?_eq_getElem hlt, ?_⟩
  rw [range, List.drop_eq_getElem_cons hlt', List.getElem_take]
  rfl

theorem getLast_range (hp : p < m) (hm : m ≤ peers.length) :
    (range peers p m).getLast? = (mainIds peers)[m - 1]? := by
  have hsum : p + (m - p - 1) = m - 1 := by omega
  rw [List.getLast?_eq_getElem?, length_range hm, getElem_range (by omega), hsum]

theorem dropLast_range (hm : m ≤ peers.length) :
    (range peers p m).dropLast = range peers p (m - 1) := by
  rw [List.dropLast_eq_take, length_range hm, range, range, List.take_drop, List.take_take]
  by_cases hp : p < m
  · have hmin : min (p + (m - p - 1)) m = m - 1 := by omega
    rw [hmin]
  · rw [List.drop_eq_nil_of_le (by rw [List.length_take]; omega),
      List.drop_eq_nil_of_le (by rw [List.length_take]; omega)]

theorem range_append {k : Nat} (hp : p ≤ m) (hk : m ≤ k) (hm : m ≤ peers.length) :
    range peers p m ++ range peers m k = range peers p k := by
  have htake : (mainIds peers).take m = ((mainIds peers).take k).take m := by
    rw [List.take_take, Nat.min_eq_left hk]
  have hle : p ≤ ((mainIds peers).take m).length := by
    rw [List.length_take, length_mainIds]
    omega
  rw [range, range, range, ← List.drop_append_of_le_length hle, htake, List.take_append_drop]

theorem mem_of_mem_range (hid : id ∈ range peers p m) : id ∈ mainIds peers :=
  List.mem_of_mem_take (List.mem_of_mem_drop hid)

/-- What is served from a number on is a range. -/
theorem served_eq_range (peers : List SignedBlock) (p : Nat) (limit : Nat) :
    ((mainIds peers).drop p).take limit = range peers p (min peers.length (p + limit)) := by
  rw [range, List.take_drop, List.take_eq_take_min, length_mainIds, Nat.min_comm]

/-! ## Asking -/

/-- A node without blocks has no synopsis to give. -/
theorem Following.synopsis_zero (hs : Setting all start peers n)
    (h : Following all start peers n 0 d) (after : Nat) :
    d.getBlockchainSynopsis .null after = .ok [] := by
  have hzero : d.headBlockNum = 0 := by
    obtain ⟨pushed, -, hcaught⟩ := h.caught
    cases hcaught with
    | behind front hkept _ _ _ _ =>
      have hnil : start = [] := by
        by_contra hne
        have hlow := h.low
        have hshared := hs.shared hne
        omega
      rw [(hkept.mainChain h.pending).headBlockNum, hnil, List.length_nil]
    | ahead hkept _ =>
      rw [(hkept.mainChain h.pending).headBlockNum, upTo_zero, List.length_nil]
  simp only [Database.getBlockchainSynopsis, Database.synopsisRange, ne_eq, not_true_eq_false,
    if_false, hzero, if_true]

/-- **What a node asks**, with the ids of the next blocks in hand, is answered from their end on. -/
theorem Following.asks (hs : Setting all start peers n) (hserver : MainLookups peers server)
    (h : Following all start peers n p d) (hpm : p ≤ m) (hm : m ≤ peers.length)
    {peer : PeerConnection} (hlast : peer.lastBlockDelegateHasSeen = headIdOf (upTo peers p))
    (hitems : peer.idsOfItemsToGet = range peers p m) :
    ∃ synopsis, createBlockchainSynopsisForPeer d peer = .ok synopsis ∧
      Answered server peers synopsis m := by
  have hroom := hs.room
  have hne : peers ≠ [] := List.length_pos_iff.mp (Nat.lt_of_le_of_lt (Nat.zero_le _) hs.longer)
  have hlength : peer.idsOfItemsToGet.length = m - p := by rw [hitems, length_range hm]
  have hafter : peer.idsOfItemsToGet.length % 2 ^ 32 = m - p := by
    rw [hlength, Nat.mod_eq_of_lt (by omega)]
  -- What comes of the node's own synopsis.
  have hown : ∃ synopsis, d.getBlockchainSynopsis (headIdOf (upTo peers p)) (m - p) = .ok synopsis ∧
      (p = m → Answered server peers synopsis m) ∧
      (p < m → 1 ≤ (synopsis.head?.map numFromId).getD 1 ∧
        (synopsis.head?.map numFromId).getD 1 ≤ m) := by
    cases p with
    | zero =>
      refine ⟨[], ?_, ?_, fun hlt => ⟨Nat.le_refl 1, hlt⟩⟩
      · rw [upTo_zero]
        exact h.synopsis_zero hs (m - 0)
      · rintro rfl
        exact answered_nil hserver hne
    | succ q =>
      have hid := headIdOf_upTo (show q < peers.length by omega)
      obtain ⟨first, rest, hsynopsis, hpos, hle, hend⟩ := h.synopsis hs hid (m - (q + 1))
        (by omega)
      refine ⟨first :: rest, hsynopsis, ?_, fun hlt => ⟨hpos, Nat.le_trans hle hpm⟩⟩
      rintro rfl
      exact answered_of_last hserver (hend (Nat.sub_self _)) hid
  obtain ⟨synopsis, hsynopsis, hdone, hlow⟩ := hown
  simp only [createBlockchainSynopsisForPeer, hlast, hafter, hsynopsis]
  by_cases heq : p = m
  · rw [if_pos (by omega)]
    exact ⟨synopsis, rfl, hdone heq⟩
  · have hlt : p < m := by omega
    obtain ⟨id, hid, hcons⟩ := range_eq_cons hlt hm
    obtain ⟨hpos, hle⟩ := hlow hlt
    have hfirst : numFromId (peer.idsOfItemsToGet.headD .null) = p + 1 := by
      rw [hitems, hcons, List.headD_cons, (hserver.numFromId_mainIds hid).1]
    have hhigh : (p + 1 + (m - p) - 1) % 2 ^ 32 = m := by
      rw [Nat.mod_eq_of_lt (by omega)]
      omega
    rw [if_neg (by omega), hfirst, hlength, hhigh]
    have hmissing : ∃ rest, missingElements peer.idsOfItemsToGet (p + 1) m (m + 1)
        ((synopsis.head?.map numFromId).getD 1) = .ok rest ∧
        rest.getLast? = peer.idsOfItemsToGet.getLast? := by
      apply missingElements_returns _ (by omega) (by omega) hpos hle (by omega)
      rw [hitems, hcons]
      exact List.cons_ne_nil _ _
    obtain ⟨rest, hrest, hend⟩ := hmissing
    rw [hrest]
    refine ⟨synopsis ++ rest, rfl, ?_⟩
    rw [hitems, getLast_range hlt hm] at hend
    have hm1 : m - 1 + 1 = m := by omega
    have hget := headIdOf_upTo (show m - 1 < peers.length by omega)
    rw [hget] at hend
    have hsynopsisLast : (synopsis ++ rest).getLast? = some (headIdOf (upTo peers (m - 1 + 1))) := by
      rw [List.getLast?_append, hend, Option.some_or]
    have hanswered := answered_of_last hserver hsynopsisLast hget
    rwa [hm1] at hanswered

/-! ## Taking in ids -/

/-- **Known items** at the front are passed over; the node has them of the peer's chain. -/
theorem Following.flushes (hs : Setting all start peers n) (h : Following all start peers n p d)
    {c : Nat} (hc : c ≤ p) (hpm : p ≤ m) (hm : m ≤ peers.length) (peer : PeerConnection)
    (hlast : c = p → peer.lastBlockDelegateHasSeen = headIdOf (upTo peers p)) :
    ∃ q time, p ≤ q ∧ q ≤ m ∧ Following all start peers n q d ∧
      flushKnown d (range peers c m) peer =
        (range peers q m,
          { peer with
            lastBlockDelegateHasSeen := headIdOf (upTo peers q)
            lastBlockTimeDelegateHasSeen := time }) := by
  induction hk : m - c generalizing c p peer with
  | zero =>
    obtain rfl : c = m := by omega
    obtain rfl : p = c := by omega
    refine ⟨p, peer.lastBlockTimeDelegateHasSeen, Nat.le_refl p, Nat.le_refl p, h, ?_⟩
    rw [← hlast rfl, range_self, flushKnown]
  | succ k ih =>
    have hlt : c < m := by omega
    obtain ⟨id, hid, hcons⟩ := range_eq_cons hlt hm
    have hhead := headIdOf_upTo (show c < peers.length by omega)
    rw [hid, Option.some.injEq] at hhead
    rw [hcons, flushKnown]
    by_cases hknown : d.isKnowBlock id = true
    · rw [if_pos hknown]
      rcases Nat.lt_or_ge c p with hbelow | hat
      · obtain ⟨q, time, hpq, hqm, hfollowing, hflush⟩ := ih h hbelow hpm
          { peer with
            lastBlockDelegateHasSeen := id, lastBlockTimeDelegateHasSeen := d.getBlockTime id }
          (fun heq => heq ▸ hhead) (by omega)
        exact ⟨q, time, hpq, hqm, hfollowing, hflush⟩
      · obtain rfl : c = p := Nat.le_antisymm hc hat
        obtain ⟨q, time, hpq, hqm, hfollowing, hflush⟩ :=
          ih (h.knows hs (by omega) hid hknown) (Nat.le_refl _) hlt
            { peer with
              lastBlockDelegateHasSeen := id, lastBlockTimeDelegateHasSeen := d.getBlockTime id }
            (fun _ => hhead) (by omega)
        exact ⟨q, time, Nat.le_of_succ_le hpq, hqm, hfollowing, hflush⟩
    · have hat : c = p := by
        by_contra hne
        exact hknown (h.known hs (by omega) hid)
      subst hat
      rw [if_neg hknown]
      refine ⟨c, peer.lastBlockTimeDelegateHasSeen, Nat.le_refl c, hpm, h, ?_⟩
      rw [← hlast rfl, hcons]

/-- **An answer** goes on where the items end. -/
theorem Following.splices (hs : Setting all start peers n) (h : Following all start peers n p d)
    (hpm : p ≤ m) (hm : m ≤ peers.length) (peer : PeerConnection)
    (hitems : peer.idsOfItemsToGet = range peers p m) {c k : Nat} (hck : c < k)
    (hk : k ≤ peers.length) (hnext : p < m → c = m - 1) (hfirst : p = m → c ≤ p ∧ p ≤ k)
    (hlast : p < m ∨ c = p → peer.lastBlockDelegateHasSeen = headIdOf (upTo peers p)) :
    ∃ q time added items, p ≤ q ∧ q ≤ k ∧ Following all start peers n q d ∧
      items ++ added = range peers q k ∧
      spliceIds d peer (range peers c k) =
        (added,
          { peer with
            idsOfItemsToGet := items
            lastBlockDelegateHasSeen := headIdOf (upTo peers q)
            lastBlockTimeDelegateHasSeen := time }) := by
  obtain ⟨id, hid, hcons⟩ := range_eq_cons hck hk
  rw [hcons, spliceIds, ← hcons]
  rcases Nat.lt_or_ge p m with hlt | hge
  · obtain rfl := hnext hlt
    have hend := getLast_range hlt hm
    rw [← hitems, hid] at hend
    have hne : peer.idsOfItemsToGet ≠ [] := by
      intro hnil
      rw [hnil] at hend
      cases hend
    have hkeep : peer.idsOfItemsToGet.rdropWhile (· ≠ id) = peer.idsOfItemsToGet := by
      apply List.rdropWhile_eq_self_iff.mpr
      intro hne'
      rw [List.getLast?_eq_some_getLast hne', Option.some.injEq] at hend
      simp [hend]
    rw [if_neg hne, hkeep]
    refine ⟨p, peer.lastBlockTimeDelegateHasSeen, range peers (m - 1) k,
      peer.idsOfItemsToGet.dropLast, Nat.le_refl p, by omega, h, ?_, ?_⟩
    · rw [hitems, dropLast_range hm, range_append (by omega) (by omega) (by omega)]
    · cases hcase : peer.idsOfItemsToGet with
      | nil => exact absurd hcase hne
      | cons front rest =>
        dsimp only
        rw [← hlast (.inl hlt), hcons]
  · obtain rfl : p = m := Nat.le_antisymm hpm hge
    rw [range_self] at hitems
    rw [if_pos hitems]
    obtain ⟨hcp, hpk⟩ := hfirst rfl
    obtain ⟨q, time, hpq, hqk, hfollowing, hflush⟩ :=
      h.flushes hs hcp hpk hk peer (fun heq => hlast (.inr heq))
    refine ⟨q, time, range peers q k, [], hpq, hqk, hfollowing, rfl, ?_⟩
    rw [hflush, hitems]

/-! ## The invariant -/

/-- The node has the blocks of the peer's chain up to `p`, and is to get those up to `m`. -/
structure Gathered (all start peers : List SignedBlock) (n p m : Nat) (x : SyncNode) : Prop where
  following : Following all start peers n p x.database
  le : p ≤ m
  top : m ≤ peers.length
  items : x.peer.idsOfItemsToGet = range peers p m
  requested : ∀ id ∈ x.peer.syncItemsRequestedFromPeer, id ∈ mainIds peers
  received : ∀ b ∈ x.receivedSyncItems, b ∈ peers
  accepted : ∀ id ∈ x.mostRecentBlocksAccepted, numFromId id ≤ p
  synced : x.peer.weNeedSyncItemsFromPeer = false → p = peers.length
  connected : x.disconnected = none ∨ x.disconnected = some .moreThanCouldExist

/-- Nothing has come in yet. -/
structure Fresh (start : List SignedBlock) (p m : Nat) (x : SyncNode) : Prop where
  asked : x.peer.itemIdsRequestedFromPeer ≠ none
  last : x.peer.lastBlockDelegateHasSeen = .null
  requested : x.peer.syncItemsRequestedFromPeer = []
  eq : p = m
  low : p ≤ start.length

/-- A question that stands is answered from where the items end, or from a block that the node has, and
not far below its last one. -/
structure Asked (server : Database) (peers : List SignedBlock) (p m unfetched : Nat)
    (synopsis : List BlockId) (s : Nat) : Prop where
  answered : Answered server peers synopsis s
  next : p < m → s = m
  first : p = m → s ≤ p ∧ p ≤ s + irreversibleBlockNum
  more : p < m → unfetched ≠ 0

/-- The invariant of a synchronisation. -/
structure Tracking (server : Database) (all start peers : List SignedBlock) (n p m : Nat)
    (x : SyncNode) : Prop where
  gathered : Gathered all start peers n p m x
  last : x.peer.lastBlockDelegateHasSeen = headIdOf (upTo peers p) ∨ Fresh start p m x
  asked : ∀ synopsis, x.peer.itemIdsRequestedFromPeer = some synopsis →
    ∃ s, Asked server peers p m x.peer.numberOfUnfetchedItemIds synopsis s

variable {x : SyncNode}

/-- The next item. -/
theorem Gathered.next (h : Gathered all start peers n p m x) {rest : List BlockId}
    (hcons : x.peer.idsOfItemsToGet = id :: rest) :
    p < m ∧ (mainIds peers)[p]? = some id ∧ rest = range peers (p + 1) m := by
  have hlt : p < m := by
    have hlength := congrArg List.length hcons
    rw [h.items, length_range h.top, List.length_cons] at hlength
    omega
  obtain ⟨id', hid, hrange⟩ := range_eq_cons hlt h.top
  rw [h.items, hrange] at hcons
  obtain ⟨rfl, rfl⟩ := List.cons.inj hcons
  exact ⟨hlt, hid, rfl⟩

/-- No question stands. -/
theorem Gathered.idle (h : Gathered all start peers n p m x)
    (hlast : x.peer.lastBlockDelegateHasSeen = headIdOf (upTo peers p))
    (hidle : x.peer.itemIdsRequestedFromPeer = none) : Tracking server all start peers n p m x where
  gathered := h
  last := .inl hlast
  asked synopsis hasked := by
    rw [hidle] at hasked
    cases hasked

/-- A question is put. -/
theorem Gathered.asks (hs : Setting all start peers n) (hserver : MainLookups peers server)
    (h : Gathered all start peers n p m x)
    (hlast : x.peer.lastBlockDelegateHasSeen = headIdOf (upTo peers p))
    (hmore : p < m → x.peer.numberOfUnfetchedItemIds ≠ 0) :
    Tracking server all start peers n p m x.fetchNextBatchOfItemIdsFromPeer := by
  obtain ⟨synopsis, hsynopsis, hanswered⟩ := h.following.asks hs hserver h.le h.top hlast h.items
  rw [SyncNode.fetchNextBatchOfItemIdsFromPeer, hsynopsis]
  refine ⟨{ h with }, .inl hlast, fun synopsis' hsome => ?_⟩
  obtain rfl := Option.some.inj hsome
  exact ⟨m, hanswered, fun _ => rfl, fun heq => ⟨by omega, by omega⟩, hmore⟩

/-! ## The steps -/

/-- What the node knows is no higher than its chain or the peer's blocks that it has. -/
theorem Following.num_le_of_known (h : Following all start peers n p d)
    (hknown : d.isKnowBlock id = true) : numFromId id ≤ max start.length p := by
  obtain ⟨pushed, -, hcaught⟩ := h.caught
  cases hcaught with
  | behind front hkept _ _ _ _ =>
    have hle := hkept.num_le_of_known hknown
    omega
  | ahead hkept _ =>
    have hle := hkept.num_le_of_known hknown
    rw [length_upTo h.le] at hle
    omega

theorem sequential_range (hserver : MainLookups peers server) {c k : Nat} (hk : k ≤ peers.length) :
    Sequential (range peers c k) := by
  rcases Nat.lt_or_ge c k with hlt | hge
  · obtain ⟨first, hfirst, hcons⟩ := range_eq_cons hlt hk
    rw [hcons]
    intro i id hid
    have hi : i < (range peers (c + 1) k).length := (List.getElem?_eq_some_iff.mp hid).1
    rw [length_range hk] at hi
    rw [getElem_range (by omega)] at hid
    have hroom := hserver.below
    rw [(hserver.numFromId_mainIds hid).1, (hserver.numFromId_mainIds hfirst).1,
      Nat.mod_eq_of_lt (by omega)]
    omega
  · rw [range, List.drop_eq_nil_of_le (Nat.le_trans (List.length_take_le _ _) hge)]
    trivial

/-- A node that takes itself to be in sync has all blocks of the peer. -/
theorem Tracking.eq_of_upToDate (hs : Setting all start peers n) (hserver : MainLookups peers server)
    (h : Tracking server all start peers n p m x) {s : Nat}
    (hasked : Asked server peers p m x.peer.numberOfUnfetchedItemIds synopsis s)
    (hdone : x.UpToDate (range peers (s - 1) (min peers.length (s - 1 + blockIdsLimit)))
      (peers.length - (s - 1 + blockIdsLimit))) : p = peers.length := by
  obtain ⟨hremaining, hids, hitems, -⟩ := hdone
  have hlonger := hs.longer
  have hle := h.gathered.following.le
  have htop := h.gathered.top
  have hmin : min peers.length (s - 1 + blockIdsLimit) = peers.length := by omega
  have hpm : p = m := by
    have hlength := congrArg List.length hitems
    rw [h.gathered.items, length_range htop, List.length_nil] at hlength
    exact Nat.le_antisymm h.gathered.le (by omega)
  obtain ⟨hsp, -⟩ := hasked.first hpm
  rw [hmin] at hids
  have hlength : (range peers (s - 1) peers.length).length ≤ 1 := by
    rcases hids with hnil | ⟨id, hone, -⟩
    · rw [hnil]
      exact Nat.zero_le 1
    · rw [hone]
      exact Nat.le_refl 1
  rw [length_range (Nat.le_refl _)] at hlength
  by_contra hne
  -- The peer has one block, and the node has none.
  obtain rfl : s = 0 := by omega
  obtain ⟨id, hid, hcons⟩ := range_eq_cons (show 0 < peers.length by omega) (Nat.le_refl _)
  rcases hids with hnil | ⟨id', hone, hknown⟩
  · rw [Nat.zero_sub, hcons] at hnil
    cases hnil
  · rw [Nat.zero_sub, hcons] at hone
    obtain ⟨rfl, -⟩ := List.cons.inj hone
    have hnum := h.gathered.following.num_le_of_known hknown
    rw [(hserver.numFromId_mainIds hid).1] at hnum
    omega

/-- **An answer** is taken. -/
theorem Tracking.inventory (hs : Setting all start peers n) (hserver : MainLookups peers server)
    (h : Tracking server all start peers n p m x)
    (hstands : x.peer.itemIdsRequestedFromPeer = some synopsis) {ids : List BlockId} {remaining : Nat}
    (hreply : onFetchBlockchainItemIdsMessage server synopsis = some (ids, remaining))
    (now : TimePointSec) :
    ∃ q k, Tracking server all start peers n q k
      (x.onBlockchainItemIdsInventoryMessage now ids remaining) := by
  obtain ⟨s, hasked⟩ := h.asked synopsis hstands
  rw [hasked.answered.reply, Option.some.injEq, Prod.mk.injEq] at hreply
  obtain ⟨rfl, rfl⟩ := hreply
  rw [served_eq_range]
  have hgathered := h.gathered
  have hpm := hgathered.le
  have htop := hgathered.top
  have hlonger := hs.longer
  have hfirst := hasked.first
  have hnext := hasked.next
  simp only [irreversibleBlockNum] at hfirst
  have hck : s - 1 < min peers.length (s - 1 + blockIdsLimit) := by
    simp only [blockIdsLimit]
    omega
  have hk : min peers.length (s - 1 + blockIdsLimit) ≤ peers.length := Nat.min_le_left _ _
  obtain ⟨id, hid, hcons⟩ := range_eq_cons hck hk
  have hbuilds : ¬ ∃ id ∈ (range peers (s - 1) (min peers.length (s - 1 + blockIdsLimit))).head?,
      ¬ BuildsOff synopsis id := by
    rw [hcons]
    rintro ⟨i, hi, hnot⟩
    obtain rfl : id = i := Option.some.inj hi
    exact hnot (hasked.answered.buildsOff _ hid)
  rw [SyncNode.onBlockchainItemIdsInventoryMessage, hstands]
  dsimp only
  rw [if_neg (not_not.mpr (sequential_range hserver hk)), if_neg hbuilds]
  by_cases hdone : SyncNode.UpToDate
      { x with peer := { x.peer with itemIdsRequestedFromPeer := none } }
      (range peers (s - 1) (min peers.length (s - 1 + blockIdsLimit)))
      (peers.length - (s - 1 + blockIdsLimit))
  · rw [if_pos hdone]
    have hp := h.eq_of_upToDate hs hserver hasked hdone
    have hlast := h.last.resolve_right fun hfresh => by
      have hlow := hfresh.low
      omega
    exact ⟨p, m, Gathered.idle { hgathered with synced := fun _ => hp } hlast rfl⟩
  · rw [if_neg hdone]
    have hlast : p < m ∨ s - 1 = p → x.peer.lastBlockDelegateHasSeen = headIdOf (upTo peers p) := by
      intro hcase
      rcases h.last with hlast | hfresh
      · exact hlast
      · have heq := hfresh.eq
        obtain rfl : p = 0 := by
          have := hfirst heq
          omega
        rw [hfresh.last, upTo_zero]
        rfl
    obtain ⟨q, time, added, items, hpq, hqk, hfollowing, hrange, hsplice⟩ :=
      hgathered.following.splices hs hpm htop
        { x.peer with itemIdsRequestedFromPeer := none } hgathered.items hck hk
        (fun hlt => by rw [hnext hlt]) (fun heq => by
          have := hfirst heq
          simp only [blockIdsLimit]
          omega) hlast
    refine ⟨q, min peers.length (s - 1 + blockIdsLimit), ?_⟩
    rw [SyncNode.takeIds, hsplice]
    dsimp only
    rw [hrange]
    have hgot := fun disconnected hconnected => ({
      following := hfollowing
      le := hqk
      top := hk
      items := rfl
      requested := hgathered.requested
      received := hgathered.received
      accepted := fun id hid => Nat.le_trans (hgathered.accepted id hid) hpq
      synced := fun hweNeed => by
        have := hgathered.synced hweNeed
        omega
      connected := hconnected } : Gathered all start peers n q
        (min peers.length (s - 1 + blockIdsLimit))
        { x with
          disconnected := disconnected
          peer :=
            { x.peer with
              itemIdsRequestedFromPeer := none
              idsOfItemsToGet := range peers q (min peers.length (s - 1 + blockIdsLimit))
              lastBlockDelegateHasSeen := headIdOf (upTo peers q)
              lastBlockTimeDelegateHasSeen := time
              numberOfUnfetchedItemIds := peers.length - (s - 1 + blockIdsLimit) } })
    split
    · exact (hgot _ (.inr rfl)).idle rfl rfl
    · split
      · split
        · exact (hgot _ hgathered.connected).idle rfl rfl
        · rename_i hmore _
          exact (hgot _ hgathered.connected).asks hs hserver rfl fun _ => hmore
      · split
        · exact (hgot _ hgathered.connected).idle rfl rfl
        · rename_i hnone
          refine (hgot _ hgathered.connected).asks hs hserver rfl fun hlt => absurd ?_ hnone
          obtain ⟨id, -, hcons⟩ := range_eq_cons hlt hk
          rw [hcons]
          exact List.cons_ne_nil _ _

/-- Blocks are asked for by ids of the peer's chain. -/
theorem Tracking.fetch (h : Tracking server all start peers n p m x) :
    Tracking server all start peers n p m x.fetchSyncItems := by
  rw [SyncNode.fetchSyncItems]
  split
  · rename_i hidle
    have hnone : x.peer.itemIdsRequestedFromPeer = none := by
      have hboth := hidle.2
      rw [PeerConnection.idle, Bool.and_eq_true] at hboth
      exact Option.isNone_iff_eq_none.mp hboth.2
    have hlast := h.last.resolve_right fun hfresh => hfresh.asked hnone
    refine Gathered.idle { h.gathered with requested := fun id hid => ?_ } hlast hnone
    have hmissing := (List.mem_filter.mp (List.mem_eraseDups.mp (List.mem_of_mem_take hid))).1
    rw [h.gathered.items] at hmissing
    exact mem_of_mem_range hmissing
  · exact h

/-- A block that was asked for comes in. -/
theorem Tracking.block (hs : Setting all start peers n) (hserver : MainLookups peers server)
    (h : Tracking server all start peers n p m x) (hb : b ∈ peers)
    (hrequested : b.id ∈ x.peer.syncItemsRequestedFromPeer) :
    Tracking server all start peers n p m (x.processBlockMessage b) := by
  have hlast := h.last.resolve_right fun hfresh => by
    rw [hfresh.requested] at hrequested
    cases hrequested
  have hgathered : Gathered all start peers n p m
      { x with
        receivedSyncItems := b :: x.receivedSyncItems
        peer :=
          { x.peer with
            syncItemsRequestedFromPeer := x.peer.syncItemsRequestedFromPeer.erase b.id } } :=
    { h.gathered with
      requested := fun id hid => h.gathered.requested id (List.mem_of_mem_erase hid)
      received := fun c hc => by
        rcases List.mem_cons.mp hc with rfl | hc
        · exact hb
        · exact h.gathered.received c hc }
  rw [SyncNode.processBlockMessage, if_pos hrequested]
  dsimp only
  split
  · rename_i hmore
    exact hgathered.asks hs hserver hlast fun _ => Nat.ne_of_gt hmore.2.1
  · exact ⟨hgathered, .inl hlast, h.asked⟩

/-- After a block the node asks on, or has more to do. -/
theorem Gathered.askAgain (hs : Setting all start peers n) (hserver : MainLookups peers server)
    (h : Gathered all start peers n p m x)
    (hlast : x.peer.lastBlockDelegateHasSeen = headIdOf (upTo peers p))
    (hasked : ∀ synopsis, x.peer.itemIdsRequestedFromPeer = some synopsis →
      ∃ s, Asked server peers p m x.peer.numberOfUnfetchedItemIds synopsis s) :
    Tracking server all start peers n p m x.askAgain := by
  rw [SyncNode.askAgain]
  split
  · rename_i hnone
    refine h.asks hs hserver hlast fun hlt => ?_
    have hlength := congrArg List.length hnone.1
    rw [h.items, length_range h.top, List.length_nil] at hlength
    omega
  · exact ⟨h, .inl hlast, hasked⟩

/-- **The next block** is handed to the chain, which takes it. -/
theorem Tracking.backlog (hs : Setting all start peers n) (hserver : MainLookups peers server)
    (h : Tracking server all start peers n p m x) :
    ∃ q, Tracking server all start peers n q m x.processBacklogOfSyncBlocks := by
  have hgathered := h.gathered
  rw [SyncNode.processBacklogOfSyncBlocks]
  split
  · exact ⟨p, h⟩
  · rename_i id rest hcons
    obtain ⟨hlt, hid, rfl⟩ := hgathered.next hcons
    have htop := hgathered.top
    split
    · exact ⟨p, h⟩
    · rename_i b hfind
      have hbid : b.id = id := by simpa using List.find?_some hfind
      subst hbid
      have hb : b ∈ peers := hgathered.received b (List.mem_of_find?_eq_some hfind)
      have hnum := (hserver.numFromId_mainIds hid).1
      have hnew : b.id ∉ x.mostRecentBlocksAccepted := fun hmem => by
        have hle := hgathered.accepted _ hmem
        omega
      obtain ⟨answer, d', hrun, hfollowing⟩ := hgathered.following.push hs (by omega) hb hid
      rw [if_neg hnew, SyncNode.sendSyncBlockToNodeDelegate, hrun]
      dsimp only
      have hlast := h.last.resolve_right fun hfresh => by
        have heq := hfresh.eq
        omega
      have hhead := headIdOf_upTo (show p < peers.length by omega)
      rw [hid, Option.some.injEq] at hhead
      refine ⟨p + 1, Gathered.askAgain hs hserver
        { following := hfollowing
          le := hlt
          top := htop
          items := rfl
          requested := hgathered.requested
          received := fun c hc => hgathered.received c (List.mem_of_mem_eraseP hc)
          accepted := fun id hid => ?_
          synced := fun hsynced => ?_
          connected := hgathered.connected } hhead fun synopsis hstands => ?_⟩
      · simp only [List.rtake] at hid
        rcases List.mem_append.mp (List.mem_of_mem_drop hid) with hold | hnew
        · exact Nat.le_succ_of_le (hgathered.accepted id hold)
        · rw [List.mem_singleton.mp hnew, hnum]
      · have hp := hgathered.synced hsynced
        omega
      · obtain ⟨s, hasked⟩ := h.asked synopsis hstands
        obtain rfl := hasked.next hlt
        exact ⟨s, hasked.answered, fun _ => rfl, fun heq => ⟨by omega, by omega⟩,
          fun _ => hasked.more hlt⟩

/-- A question that stands is not put again. -/
theorem Tracking.stands (h : Tracking server all start peers n p m x)
    (hstands : x.peer.itemIdsRequestedFromPeer = some synopsis) :
    x.processBacklogOfSyncBlocks.peer.itemIdsRequestedFromPeer = some synopsis := by
  obtain ⟨s, hasked⟩ := h.asked synopsis hstands
  rw [SyncNode.processBacklogOfSyncBlocks]
  split
  · exact hstands
  · rename_i id rest hcons
    have hmore := hasked.more (h.gathered.next hcons).1
    split
    · exact hstands
    · split
      · rw [SyncNode.askAgain, if_neg fun hnone => hmore hnone.2]
        exact hstands
      · rw [SyncNode.sendSyncBlockToNodeDelegate]
        split
        · rw [SyncNode.askAgain, if_neg fun hnone => hmore hnone.2]
          exact hstands
        · exact hstands

/-- Transactions do not count. -/
theorem Tracking.transaction (h : Tracking server all start peers n p m x) (t : SignedTransaction) :
    Tracking server all start peers n p m
      { x with database := finalState ((pushTransaction skipNothing t).run x.database) } where
  gathered := { h.gathered with following := h.gathered.following.transaction t }
  last := h.last.imp id fun hfresh => { hfresh with }
  asked := h.asked

/-! ## The start -/

/-- The two chains agree up to a block that is on both. -/
theorem Setting.upTo_eq (hs : Setting all start peers n) (hlinked : LinkedChain start)
    (hstart : ∀ b ∈ start, b ∈ all) {k : Nat} (hk : k < start.length)
    (hid : (mainIds start)[k]? = some id) (hid' : (mainIds peers)[k]? = some id) :
    upTo start (k + 1) = upTo peers (k + 1) := by
  have hk' := Nat.lt_trans hk hs.longer
  have hlinked' : LinkedChain (upTo start (k + 1)) := hlinked.drop _
  apply hlinked'.eq_of_headIdOf (hs.upTo_linked (k + 1))
  · intro b hb c hc
    exact hs.ids b (hstart b (mem_of_mem_upTo hb)) c (mem_of_mem_upTo hc)
  · rw [length_upTo hk, length_upTo hk']
  · rw [headIdOf_upTo hk, Option.some.injEq] at hid
    rw [headIdOf_upTo hk', Option.some.injEq] at hid'
    rw [hid, hid']

/-- A block that the two chains share may be taken for the one where they part. -/
theorem Setting.raise (hs : Setting all start peers n) {k : Nat} (hk : k ≤ start.length)
    (hpos : start ≠ [] → 0 < max (start.length - n) k) (hsame : upTo start k = upTo peers k) :
    Setting all start peers (start.length - max (start.length - n) k) where
  known := hs.known
  ids := hs.ids
  linked := hs.linked
  plays := hs.plays
  room := hs.room
  longer := hs.longer
  depth := Nat.sub_le _ _
  undoable := by
    have := hs.undoable
    omega
  meets := by
    have hdepth := hs.depth
    rcases Nat.le_total k (start.length - n) with hle | hle
    · rw [Nat.max_eq_left hle, Nat.sub_sub_self hdepth]
      exact hs.meets
    · rw [Nat.max_eq_right hle, Nat.sub_sub_self hk]
      exact hsame
  shared hne := by
    have hpos' := hpos hne
    have := List.length_pos_iff.mpr hne
    omega

/-- Where the chains part the node has the peer's blocks. -/
theorem Setting.following (hs : Setting all start peers n) {pushed : List SignedBlock}
    (hpushed : ∀ b ∈ pushed, b ∈ all) (hpending : Pending d) (hkept : Kept pushed start d.settled)
    (hwide : Wide d.settled) : Following all start peers n (start.length - n) d := by
  have hdepth := hs.depth
  have hundoable := hs.undoable
  have hlonger := hs.longer
  refine ⟨hpending, by omega, Nat.le_refl _, pushed, hpushed, ?_⟩
  rw [← hs.meets]
  refine .behind [] hkept hwide ?_ (List.nil_append _).symm (by rw [List.length_drop]; omega)
  apply hkept.hasLine_below hkept.hasLine
  simp only [ForkDatabase.cacheDepth, irreversibleBlockNum] at hundoable ⊢
  omega

/-- **The first question** is answered from a block that the node has, not far below where the chains
part. -/
theorem Setting.first (hs : Setting all start peers n) (hserver : MainLookups peers server)
    {pushed : List SignedBlock} (hpushed : ∀ b ∈ pushed, b ∈ all) (hpending : Pending d)
    (hkept : Kept pushed start d.settled) (hwide : Wide d.settled)
    (hlast : d.lastNonUndoableBlockNum ≤ start.length - n) :
    ∃ n' synopsis s, Setting all start peers n' ∧
      Following all start peers n' (start.length - n') d ∧
      d.getBlockchainSynopsis .null 0 = .ok synopsis ∧ Answered server peers synopsis s ∧
      s ≤ start.length - n' ∧ start.length - n' ≤ s + irreversibleBlockNum := by
  have hne : peers ≠ [] := List.length_pos_iff.mp (Nat.lt_of_le_of_lt (Nat.zero_le _) hs.longer)
  have hlonger := hs.longer
  have hroom := hs.room
  have hfinal : d.lastNonUndoableBlockNum = start.length - irreversibleBlockNum := by
    rw [Database.lastNonUndoableBlockNum, (hkept.final hpending).lastIrreversible,
      (hkept.mainChain hpending).headBlockNum]
  by_cases hnil : start = []
  · subst hnil
    have hfollowing := hs.following hpushed hpending hkept hwide
    have hsynopsis := Following.synopsis_zero hs (by simpa using hfollowing) 0
    exact ⟨n, [], 0, hs, hfollowing, hsynopsis, answered_nil hserver hne, by simp, by simp⟩
  · have hlookups := hkept.mainLookups hpending (by omega)
    have hshared := hs.shared hnil
    have hwell : WellFormed d (mainIds start) 0 (d.getBlockchainSynopsis .null 0) :=
      hlookups.wellFormed_null (by omega) (by rw [length_mainIds]; omega)
    obtain ⟨synopsis, hsynopsis, hon, hsorted, hhead, -⟩ := hwell
    have hfirst := hhead (List.length_pos_iff.mp (by rw [length_mainIds]; omega))
    rw [length_mainIds] at hfirst
    cases synopsis with
    | nil => cases hfirst
    | cons first rest =>
      rw [List.head?_cons, Option.map_some, Option.some.injEq] at hfirst
      have hlow : ∀ id ∈ first :: rest, numFromId first ≤ numFromId id := by
        intro id hid
        rcases List.mem_cons.mp hid with rfl | hrest
        · exact Nat.le_refl _
        · exact Nat.le_of_lt (List.rel_of_pairwise_cons hsorted hrest)
      have hnum : ∀ id ∈ first :: rest, numFromId id ≤ start.length ∧ id ∈ mainIds start := by
        intro id hid
        have hmem := List.mem_of_getElem? (hon id hid)
        exact ⟨(hlookups.findBlockIdForNum_of_mem hmem).2.1, hmem⟩
      -- The first id is on both chains.
      have hcommon : first ∈ mainIds peers := by
        have hget := hon first List.mem_cons_self
        have htake : (mainIds (start.drop n))[numFromId first - 1]? = some first := by
          have hsame : start.drop n = upTo start (start.length - n) := by
            rw [upTo, Nat.sub_sub_self hs.depth]
          rw [hsame, mainIds_upTo, List.getElem?_take_of_lt (by omega), hget]
        rw [hs.meets, mainIds_upTo] at htake
        exact List.mem_of_mem_take (List.mem_of_getElem? htake)
      obtain ⟨id, hstart⟩ : ∃ id, startOf peers (first :: rest) = some id := by
        rw [startOf, if_neg (List.cons_ne_nil _ _)]
        apply Option.isSome_iff_exists.mp
        apply List.find?_isSome.mpr
        exact ⟨first, List.mem_reverse.mpr List.mem_cons_self, startable_iff.mpr (.inr hcommon)⟩
      have hmem : id ∈ first :: rest := by
        rw [startOf, if_neg (List.cons_ne_nil _ _)] at hstart
        exact List.mem_reverse.mp (List.mem_of_find?_eq_some hstart)
      obtain ⟨hidle, hidmem⟩ := hnum id hmem
      have hpeer : id ∈ mainIds peers := by
        rcases startable_iff.mp (startable_of_startOf hstart) with hnull | hpeer
        · exact absurd hnull (hlookups.ne_null hidmem)
        · exact hpeer
      obtain ⟨k, hk⟩ := List.mem_iff_getElem?.mp hpeer
      have hknum := (hserver.numFromId_mainIds hk).1
      have hget := hon id hmem
      rw [hknum, Nat.add_sub_cancel] at hget
      have hanswered := answered_of_mem hserver hmem hk hstart fun x hx => by
        -- What is passed over is numbered like blocks of the peer.
        rw [passedOver] at hx
        have hxmem := List.mem_reverse.mp ((List.takeWhile_sublist _).subset hx)
        have hxstart : ¬ startable peers x = true := by
          simpa using List.mem_takeWhile_imp hx
        obtain ⟨hxle, hxmain⟩ := hnum x hxmem
        have hxpos := (hlookups.findBlockIdForNum_of_mem hxmain).1
        have hfound := (hserver.getBlockIdForNum hxpos (by omega)).2
        rintro ⟨-, hmisread | hmisread⟩
        · rw [hmisread] at hfound
          exact hserver.ne_null hfound rfl
        · rw [hmisread] at hfound
          exact hxstart (startable_iff.mpr (.inr hfound))
      have hfirstle := hlow id hmem
      have hstartMem : ∀ b ∈ start, b ∈ all := fun b hb => hpushed b (hkept.known b hb)
      have hs' := hs.raise (k := k + 1) (by omega) (fun _ => by omega)
        (hs.upTo_eq hkept.main.onChain.linked hstartMem (by omega) hget hk)
      refine ⟨_, first :: rest, k + 1, hs', hs'.following hpushed hpending hkept hwide, hsynopsis,
        hanswered, by omega, by omega⟩

/-- The question that a synchronisation starts with. -/
theorem Setting.begins (hs : Setting all start peers n) (hserver : MainLookups peers server)
    {pushed : List SignedBlock} (hpushed : ∀ b ∈ pushed, b ∈ all) (hpending : Pending d)
    (hkept : Kept pushed start d.settled) (hwide : Wide d.settled)
    (hlast : d.lastNonUndoableBlockNum ≤ start.length - n) :
    ∃ n' p, Setting all start peers n' ∧ Tracking server all start peers n' p p
      (SyncNode.startSynchronizingWithPeer { database := d }) := by
  obtain ⟨n', synopsis, s, hs', hfollowing, hsynopsis, hanswered, hle, hdeep⟩ :=
    hs.first hserver hpushed hpending hkept hwide hlast
  refine ⟨n', start.length - n', hs', ?_⟩
  have hcreate : ∀ peer : PeerConnection, peer.lastBlockDelegateHasSeen = .null →
      peer.idsOfItemsToGet = [] → createBlockchainSynopsisForPeer d peer = .ok synopsis := by
    intro peer hnull hitems
    simp only [createBlockchainSynopsisForPeer, hnull, hitems, List.length_nil, Nat.zero_mod,
      hsynopsis, if_true]
  rw [SyncNode.startSynchronizingWithPeer, SyncNode.fetchNextBatchOfItemIdsFromPeer]
  rw [hcreate _ rfl rfl]
  refine ⟨?_, .inr ⟨Option.some_ne_none _, rfl, rfl, rfl, Nat.sub_le _ _⟩, fun synopsis' hsome => ?_⟩
  · exact {
      following := hfollowing
      le := Nat.le_refl _
      top := hfollowing.le
      items := (range_self peers _).symm
      requested := fun _ hid => absurd hid List.not_mem_nil
      received := fun _ hb => absurd hb List.not_mem_nil
      accepted := fun _ hid => absurd hid List.not_mem_nil
      synced := fun hsynced => absurd hsynced Bool.noConfusion
      connected := .inl rfl }
  · obtain rfl := Option.some.inj hsome
    exact ⟨s, hanswered, fun hlt => absurd hlt (Nat.lt_irrefl _), fun _ => ⟨hle, hdeep⟩,
      fun hlt => absurd hlt (Nat.lt_irrefl _)⟩

/-- **The invariant** holds throughout. -/
theorem SyncRun.tracking (hs : Setting all start peers n) (hserver : MainLookups peers server)
    {pushed' : List SignedBlock} (hpushed' : ∀ b ∈ pushed', b ∈ all)
    (hkept' : Kept pushed' peers server.settled) {x₀ : SyncNode}
    (hstart : ∃ p, Tracking server all start peers n p p x₀.startSynchronizingWithPeer)
    (hrun : SyncRun server x₀ x) : ∃ p m, Tracking server all start peers n p m x := by
  induction hrun with
  | start =>
    obtain ⟨p, hp⟩ := hstart
    exact ⟨p, p, hp⟩
  | inventory now _ _ hstands hreply ih =>
    obtain ⟨p, m, h⟩ := ih
    exact h.inventory hs hserver hstands hreply now
  | fetch _ _ ih =>
    obtain ⟨p, m, h⟩ := ih
    exact ⟨p, m, h.fetch⟩
  | block _ _ hrequested hfetched ih =>
    obtain ⟨p, m, h⟩ := ih
    obtain ⟨hb, rfl, -⟩ := hkept'.fetched hfetched
    obtain ⟨c, hc, hcid⟩ := List.mem_map.mp (h.gathered.requested _ hrequested)
    have hcpeer := List.mem_reverse.mp hc
    obtain rfl := hs.ids _ (hpushed' _ hb) c hcpeer hcid.symm
    exact ⟨p, m, h.block hs hserver hcpeer hrequested⟩
  | backlog _ _ ih =>
    obtain ⟨p, m, h⟩ := ih
    obtain ⟨q, hq⟩ := h.backlog hs hserver
    exact ⟨q, m, hq⟩
  | transaction t _ ih =>
    obtain ⟨p, m, h⟩ := ih
    exact ⟨p, m, h.transaction t⟩

end Sessions

end NewsChain
