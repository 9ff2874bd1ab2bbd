import NewsChain.Laws.CatchUp
import NewsChain.Laws.Synopsis
import NewsChain.Net.SyncSession

/-!
# Following a peer's chain

A node that has the blocks of a peer's chain up to some number, as a fork or as its main chain
(`Following`), takes the next one (`Following.push`); its synopsis for the last one it has ends in it
(`Following.synopsis`), and the peer goes on from there (`Answered`).
-/

namespace NewsChain

open EStateM (Result)

section Lookups

variable [Node] {pushed chain : List SignedBlock} {d : Database} {id : BlockId} {b : SignedBlock}

/-! ## What a lookup finds -/

/-- A block that is found by its id is in the fork database or in the log. -/
theorem fetchBlockById_cases (h : d.fetchBlockById id = some b) :
    (∃ i ∈ d.forkDb.index, i.id = id ∧ i.data = b) ∨ b ∈ d.blockLog.blocks ∧ b.id = id := by
  rw [Database.fetchBlockById] at h
  cases hfork : d.forkDb.fetchBlock id with
  | some i =>
    simp only [hfork] at h
    obtain ⟨hmem, hid⟩ := ForkDatabase.fetchBlock_eq_some.mp hfork
    exact .inl ⟨i, hmem, hid, Option.some.inj h⟩
  | none =>
    simp only [hfork] at h
    obtain ⟨hread, hid⟩ := Option.filter_eq_some_iff.mp h
    rw [BlockLog.readBlockByNum_eq] at hread
    split at hread
    · exact .inr ⟨List.mem_of_getElem? hread, beq_iff_eq.mp hid⟩
    · cases hread

/-- A block that is found was pushed, and is no higher than the chain. -/
theorem Kept.fetched (h : Kept pushed chain d.settled) (hb : d.fetchBlockById id = some b) :
    b ∈ pushed ∧ b.id = id ∧ b.blockNum ≤ chain.length := by
  rcases fetchBlockById_cases hb with ⟨i, hi, hid, rfl⟩ | ⟨hmem, hid⟩
  · exact ⟨h.forest.known i hi _ List.mem_cons_self, hid, h.forest.low i hi⟩
  · obtain ⟨k, hk⟩ := List.mem_iff_getElem?.mp hmem
    have hchain := h.main.logged.getElem hk
    have hlt := (List.getElem?_eq_some_iff.mp hchain).1
    refine ⟨h.known b (List.mem_of_getElem? hchain), hid, ?_⟩
    rw [h.main.onChain.blockNum hchain]
    omega

/-- A known block is no higher than the chain. -/
theorem Kept.num_le_of_known (h : Kept pushed chain d.settled) (hknown : d.isKnowBlock id = true) :
    numFromId id ≤ chain.length := by
  obtain ⟨b, hb⟩ := Option.isSome_iff_exists.mp hknown
  obtain ⟨-, hid, hle⟩ := h.fetched hb
  rw [← hid, numFromId_id]
  exact hle

/-- An item makes its block known. -/
theorem isKnowBlock_of_mem {i : ForkItem} (hi : i ∈ d.forkDb.index) :
    d.isKnowBlock i.id = true := by
  rw [Database.isKnowBlock, fetchBlockById_of_mem hi, Option.isSome_some]

/-! ## The chain up to a number -/

/-- The oldest blocks of a chain, newest first. -/
def upTo (chain : List SignedBlock) (p : Nat) : List SignedBlock := chain.drop (chain.length - p)

omit [Node] in
theorem length_upTo {p : Nat} (hp : p ≤ chain.length) : (upTo chain p).length = p := by
  rw [upTo, List.length_drop]
  omega

omit [Node] in
theorem upTo_zero (chain : List SignedBlock) : upTo chain 0 = [] :=
  List.drop_eq_nil_of_le (Nat.le_refl _)

omit [Node] in
theorem upTo_length (chain : List SignedBlock) : upTo chain chain.length = chain := by
  rw [upTo, Nat.sub_self, List.drop_zero]

/-- The next block, with its id. -/
theorem upTo_succ {p : Nat} (hp : p < chain.length) :
    ∃ b ∈ chain, upTo chain (p + 1) = b :: upTo chain p ∧ (mainIds chain)[p]? = some b.id := by
  have hlt : chain.length - (p + 1) < chain.length := by omega
  refine ⟨_, List.getElem_mem hlt, ?_, ?_⟩
  · have hnext : chain.length - (p + 1) + 1 = chain.length - p := by omega
    rw [upTo, upTo, List.drop_eq_getElem_cons hlt, hnext]
  · rw [mainIds, List.getElem?_map, List.getElem?_reverse hp, Nat.sub_sub, Nat.add_comm 1,
      List.getElem?_eq_getElem hlt, Option.map_some]

/-- The head of the chain up to a number. -/
theorem headIdOf_upTo {p : Nat} (hp : p < chain.length) :
    (mainIds chain)[p]? = some (headIdOf (upTo chain (p + 1))) := by
  obtain ⟨b, -, hline, hid⟩ := upTo_succ hp
  rw [hid, hline]
  rfl

theorem mainIds_upTo (chain : List SignedBlock) (p : Nat) :
    mainIds (upTo chain p) = (mainIds chain).take p := by
  rw [mainIds, mainIds, upTo, ← List.map_take, List.reverse_drop]
  by_cases hp : p ≤ chain.length
  · have hsub : chain.length - (chain.length - p) = p := by omega
    rw [hsub]
  · have hsub : chain.length - (chain.length - p) = chain.length := by omega
    rw [hsub, List.take_of_length_le (by simp), List.take_of_length_le (by simp; omega)]

end Lookups

section Sessions

variable [Node] {all start peers : List SignedBlock} {n p : Nat} {d d' : Database} {b : SignedBlock}
  {id : BlockId}

/-! ## Following the peer's chain -/

/-- A node's chain and the longer one of its peer, which part no lower than the undo states of the node
reach, and not below the first block. No two different blocks that either has ever seen carry one
id. -/
structure Setting (all start peers : List SignedBlock) (n : Nat) : Prop where
  known : ∀ b ∈ peers, b ∈ all
  ids : Unmistakable all peers
  linked : LinkedChain peers
  plays : Plays peers
  room : peers.length + 1 < 2 ^ 32
  longer : start.length < peers.length
  depth : n ≤ start.length
  undoable : n ≤ irreversibleBlockNum
  meets : start.drop n = upTo peers (start.length - n)
  shared : start ≠ [] → n < start.length

/-- The node has the blocks of the peer's chain up to a number. -/
structure Following (all start peers : List SignedBlock) (n p : Nat) (d : Database) : Prop where
  pending : Pending d
  le : p ≤ peers.length
  low : start.length - n ≤ p
  caught : ∃ pushed, (∀ b ∈ pushed, b ∈ all) ∧ CatchingUp start n pushed (upTo peers p) d.settled

theorem Setting.upTo_linked (hs : Setting all start peers n) (p : Nat) :
    LinkedChain (upTo peers p) := hs.linked.drop _

theorem Setting.upTo_plays (hs : Setting all start peers n) (p : Nat) : Plays (upTo peers p) := by
  have hplays := hs.plays
  rw [← List.take_append_drop (peers.length - p) peers] at hplays
  exact hplays.tail

omit [Node] in
theorem mem_of_mem_upTo (hb : b ∈ upTo peers p) : b ∈ peers := List.mem_of_mem_drop hb

/-- The next block of the peer's chain. -/
theorem Setting.next (hs : Setting all start peers n) (hp : p < peers.length) :
    ∃ b ∈ peers, upTo peers (p + 1) = b :: upTo peers p ∧ (mainIds peers)[p]? = some b.id ∧
      b.previous = headIdOf (upTo peers p) ∧ b.blockNum = p + 1 := by
  obtain ⟨b, hb, hline, hid⟩ := upTo_succ hp
  have hlinked := hs.upTo_linked (p + 1)
  rw [hline] at hlinked
  have hlength : (b :: upTo peers p).length = p + 1 := by rw [← hline, length_upTo hp]
  have hroom := hs.room
  refine ⟨b, hb, hline, hid, hlinked.1, ?_⟩
  rw [hlinked.blockNum (k := 0) rfl, hlength, Nat.sub_zero, Nat.mod_eq_of_lt (by omega)]

/-- **A known block** of the peer's chain, above what the node has of it, is one more that it has. -/
theorem Following.knows (hs : Setting all start peers n) (h : Following all start peers n p d)
    (hp : p < peers.length) (hid : (mainIds peers)[p]? = some id) (hknown : d.isKnowBlock id = true) :
    Following all start peers n (p + 1) d := by
  obtain ⟨b, hb, hline, hbid, hprev, hnum⟩ := hs.next hp
  rw [hid, Option.some.injEq] at hbid
  subst hbid
  obtain ⟨pushed, hpushed, hcaught⟩ := h.caught
  have hlength := length_upTo h.le
  have hlow := h.low
  have hundoable := hs.undoable
  refine ⟨h.pending, hp, Nat.le_succ_of_le hlow, pushed, hpushed, ?_⟩
  rw [hline]
  cases hcaught with
  | behind front hkept hwide hhas hfront hle =>
    have hids : ∀ c ∈ pushed, c.id = b.id → c = b := fun c hc => hs.ids c (hpushed c hc) b hb
    obtain ⟨c, hc⟩ := Option.isSome_iff_exists.mp hknown
    rcases fetchBlockById_cases hc with ⟨i, hi, hiid, -⟩ | ⟨hmem, hcid⟩
    · have hiblocks := hkept.blocks_of_known hhas hprev (by rw [hnum, hlength])
        (by rw [hlength]; omega) hids hi hiid
      have hinum : i.num = p + 1 := by rw [ForkItem.num, (List.cons.inj hiblocks).1, hnum]
      have hilow := hkept.forest.low i hi
      refine .behind (b :: front) hkept hwide (.inr ⟨i, hi, hiblocks, ?_⟩) ?_ ?_
      · rw [List.length_cons, hlength, hinum]
      · rw [hfront, List.cons_append]
      · rw [List.length_cons, hlength]
        omega
    · -- The log ends at the last irreversible block.
      exfalso
      obtain ⟨k, hk⟩ := List.mem_iff_getElem?.mp hmem
      have hchain := hkept.main.logged.getElem hk
      have hklt := (List.getElem?_eq_some_iff.mp hk).1
      have hcnum := hkept.main.onChain.blockNum hchain
      have hlogs : d.blockLog.blocks.length = start.length - irreversibleBlockNum := hkept.logs
      have hsame := blockNum_eq_of_id_eq hcid
      omega
  | ahead hkept hwide =>
    have hle := hkept.num_le_of_known hknown
    rw [numFromId_id, hnum, hlength] at hle
    omega

/-- **The next block** of the peer's chain is not refused. -/
theorem Following.push (hs : Setting all start peers n) (h : Following all start peers n p d)
    (hp : p < peers.length) (hb : b ∈ peers) (hid : (mainIds peers)[p]? = some b.id) :
    ∃ answer d', (pushBlock skipNothing b).run d = .ok answer d' ∧
      Following all start peers n (p + 1) d' := by
  obtain ⟨c, hc, hline, hcid, -, -⟩ := hs.next hp
  rw [hid, Option.some.injEq] at hcid
  obtain rfl : b = c := hs.ids b (hs.known b hb) c hc hcid
  obtain ⟨pushed, hpushed, hcaught⟩ := h.caught
  have hlinked := hs.upTo_linked (p + 1)
  have hplays := hs.upTo_plays (p + 1)
  have hlength : (upTo peers (p + 1)).length = p + 1 := length_upTo hp
  have hroom := hs.room
  rw [hline] at hlinked hplays hlength
  have hall : ∀ x ∈ pushed ++ [b], x ∈ all := by
    intro x hx
    rcases List.mem_append.mp hx with hx | hx
    · exact hpushed x hx
    · exact hs.known x (List.mem_singleton.mp hx ▸ hb)
  have hids : Unmistakable (pushed ++ [b]) (b :: upTo peers p) := by
    intro x hx y hy
    exact hs.ids x (hall x hx) y (mem_of_mem_upTo (p := p + 1) (hline ▸ hy))
  obtain ⟨answer, d', hrun, hpending, hcaught'⟩ := hcaught.pushBlock hs.depth hs.undoable hlinked
    (by omega) hids hplays
  refine ⟨answer, d', hrun, hpending, hp, Nat.le_succ_of_le h.low, pushed ++ [b], hall, ?_⟩
  rw [hline]
  exact hcaught'

/-- Transactions do not count. -/
theorem Following.transaction (h : Following all start peers n p d) (t : SignedTransaction) :
    Following all start peers n p (finalState ((pushTransaction skipNothing t).run d)) := by
  obtain ⟨hpending, hsettled⟩ := pushTransactionImpl_keeps_over t d ⟨h.pending, rfl⟩
  refine ⟨hpending, h.le, h.low, ?_⟩
  obtain ⟨pushed, hpushed, hcaught⟩ := h.caught
  exact ⟨pushed, hpushed, hsettled ▸ hcaught⟩

/-- With all blocks of the peer the node agrees with it. -/
theorem Following.agree (hs : Setting all start peers n)
    (h : Following all start peers n peers.length d) {pushed' : List SignedBlock}
    (hpending' : Pending d') (hkept' : Kept pushed' peers d'.settled) : Agree d d' := by
  obtain ⟨pushed, -, hcaught⟩ := h.caught
  rw [upTo_length] at hcaught
  cases hcaught with
  | behind front _ _ _ _ hle =>
    have hlonger := hs.longer
    omega
  | ahead hkept _ => exact .of_kept h.pending hpending' hkept hkept'

/-- **The blocks** that the node has of the peer's chain are known. -/
theorem Following.known (hs : Setting all start peers n) (h : Following all start peers n p d)
    {k : Nat} (hk : k < p) (hid : (mainIds peers)[k]? = some id) : d.isKnowBlock id = true := by
  have hroom := hs.room
  have hlonger := hs.longer
  have hundoable := hs.undoable
  have hle := h.le
  obtain ⟨pushed, -, hcaught⟩ := h.caught
  have hbelow : (upTo peers p).drop (p - (k + 1)) = upTo peers (k + 1) := by
    rw [upTo, upTo, List.drop_drop]
    congr 1
    omega
  have hlength := length_upTo hle
  have hkid := headIdOf_upTo (show k < peers.length by omega)
  rw [hid, Option.some.injEq] at hkid
  have hmain : ∀ chain, chain.length + 1 < 2 ^ 32 → Kept pushed chain d.settled →
      id ∈ mainIds chain → d.isKnowBlock id = true := fun chain hlt hkept hmem =>
    (hkept.mainLookups h.pending hlt).known id hmem
  cases hcaught with
  | behind front hkept _ hhas hfront hshort =>
    by_cases hlow : k < start.length - n
    · -- On the node's own chain.
      apply hmain start (by omega) hkept
      have hmem : id ∈ mainIds (upTo peers (start.length - n)) := by
        rw [mainIds_upTo]
        exact List.mem_of_getElem? (by rwa [List.getElem?_take_of_lt hlow])
      rw [← hs.meets] at hmem
      obtain ⟨c, hc, rfl⟩ := List.mem_map.mp hmem
      exact List.mem_map_of_mem (List.mem_reverse.mpr (List.mem_of_mem_drop (List.mem_reverse.mp hc)))
    · have hline := hkept.hasLine_below hhas (n := p - (k + 1)) (by
        simp only [ForkDatabase.cacheDepth, irreversibleBlockNum] at hundoable ⊢
        omega)
      rw [hbelow] at hline
      obtain ⟨b, -, hnext, -⟩ := upTo_succ (show k < peers.length by omega)
      obtain ⟨t, ht, hblocks, -⟩ := hline.resolve_left (by rw [hnext]; exact List.cons_ne_nil _ _)
      have htid : t.id = id := by
        rw [hkid, ← hblocks]
        rfl
      rw [← htid]
      exact isKnowBlock_of_mem ht
  | ahead hkept _ =>
    apply hmain _ (by omega) hkept
    rw [mainIds_upTo]
    exact List.mem_of_getElem? (by rwa [List.getElem?_take_of_lt hk])

/-! ## The synopsis -/

/-- What is used of a synopsis: its first id is numbered, and if nothing comes after the reference
point it ends in it. -/
def Synopsis (p : Nat) (id : BlockId) (after : Nat) (answer : Except SyncExc (List BlockId)) : Prop :=
  ∃ first rest, answer = .ok (first :: rest) ∧ 1 ≤ numFromId first ∧ numFromId first ≤ p ∧
    (after = 0 → (first :: rest).getLast? = some id)

theorem WellFormed.synopsis {path : List BlockId} {after : Nat}
    {answer : Except SyncExc (List BlockId)} (h : WellFormed d path after answer) (hpos : 0 < p)
    (hlength : path.length = p) (hlast : path.getLast? = some id) : Synopsis p id after answer := by
  obtain ⟨ids, rfl, -, -, hfirst, hend⟩ := h
  have hne : path ≠ [] := List.length_pos_iff.mp (by omega)
  have hnum := hfirst hne
  cases ids with
  | nil => cases hnum
  | cons first rest =>
    rw [List.head?_cons, Option.map_some, Option.some.injEq] at hnum
    refine ⟨first, rest, rfl, by omega, by omega, fun hafter => ?_⟩
    rw [hend hafter, hlast]

/-- A block of the peer's chain that is on a fork of the node's chain. -/
theorem Following.forkBlock (hs : Setting all start peers n) {pushed front : List SignedBlock}
    (hpending : Pending d) (hkept : Kept pushed start d.settled)
    (hhas : HasLine d.settled.forkDb (upTo peers (p + 1)))
    (hfront : upTo peers (p + 1) = front ++ start.drop n) (hle : p + 1 ≤ start.length)
    (hp : p < peers.length) (hid : (mainIds peers)[p]? = some id) (hother : id ∉ mainIds start) :
    ∃ a fork, ForkBlock start d id a fork := by
  have hlength : (upTo peers (p + 1)).length = p + 1 := length_upTo hp
  have hundoable := hs.undoable
  have hdepth := hs.depth
  have hlengths := congrArg List.length hfront
  rw [hlength, List.length_append, List.length_drop] at hlengths
  have hidhead : id = headIdOf (upTo peers (p + 1)) :=
    Option.some.inj (hid.symm.trans (headIdOf_upTo hp))
  -- The block is above where the chains part.
  have hfrontpos : 0 < front.length := by
    by_contra hzero
    have hnil := List.length_eq_zero_iff.mp (Nat.eq_zero_of_not_pos hzero)
    rw [hnil, List.nil_append] at hfront
    refine hother ?_
    have hlt : n < start.length := by omega
    rw [hidhead, hfront, List.drop_eq_getElem_cons hlt]
    exact List.mem_map.mpr ⟨_, List.mem_reverse.mpr (List.getElem_mem hlt), rfl⟩
  have hnpos : 0 < n := by omega
  obtain ⟨m, hm, hmblocks, hmnum⟩ := hkept.forest.top (List.length_pos_iff.mp (by omega))
  obtain ⟨t, ht, htblocks, htnum⟩ := hhas.resolve_left (List.length_pos_iff.mp (by omega))
  rw [hlength] at htnum
  have hlinked := hkept.main.onChain.linked
  obtain ⟨x, hx, hxnum, hxprev⟩ := lineage_of_line d.settled.forkDb m (n := n - 1)
    (hmblocks ▸ hlinked) (by rw [hmblocks]; omega) fun a ha hlow => hkept.forest.closed m hm a ha
      (by simp only [ForkDatabase.cacheDepth, irreversibleBlockNum] at hundoable ⊢; omega)
  obtain ⟨y, hy, hynum, hyprev⟩ := lineage_of_line d.settled.forkDb t
    (n := front.length - 1) (htblocks ▸ hs.upTo_linked (p + 1)) (by rw [htblocks, hlength]; omega)
    fun a ha hlow => hkept.forest.closed t ht a ha
      (by simp only [ForkDatabase.cacheDepth, irreversibleBlockNum] at hundoable ⊢; omega)
  have hsame : x.data.previous = y.data.previous := by
    have hn : n - 1 + 1 = n := by omega
    have hlast : front.length - 1 + 1 = front.length := by omega
    rw [hxprev, hyprev, hmblocks, htblocks, hfront, hn, hlast, List.drop_left]
  have hhead : d.headBlockId = headIdOf start := (hkept.mainChain hpending).headBlockId
  have hfetchHead : d.forkDb.fetchBlock d.headBlockId = some m := by
    refine ForkDatabase.fetchBlock_eq_some.mpr ⟨hm, ?_⟩
    rw [hhead, ← hmblocks]
    rfl
  have hfetchId : d.forkDb.fetchBlock id = some t := by
    refine ForkDatabase.fetchBlock_eq_some.mpr ⟨ht, ?_⟩
    rw [hidhead, ← htblocks]
    rfl
  obtain ⟨first, second, hfetch⟩ := ForkDatabase.fetchBranchFrom_returns hfetchHead hfetchId hx hy
    (by omega) hsame
  obtain ⟨f, s, hf, hs', hmeeting⟩ := ForkDatabase.meeting_of_fetchBranchFrom hfetch
  rw [hfetchHead] at hf
  rw [hfetchId] at hs'
  cases hf
  cases hs'
  have hback := hmeeting.num_le hx hy (by omega) hsame
  refine ⟨first.back.num - 1, second.items.map (·.id), ⟨m, t, first, second, hfetchHead, hfetchId,
    mainItem_of_blocks hlinked hmblocks hmnum, hmeeting, by omega, rfl⟩, hother, ?_⟩
  rw [Database.lastNonUndoableBlockNum, (hkept.final hpending).lastIrreversible,
    (hkept.mainChain hpending).headBlockNum]
  omega

/-- **The synopsis** for the last block that the node has of the peer's chain. -/
theorem Following.synopsis (hs : Setting all start peers n)
    (h : Following all start peers n (p + 1) d) (hid : (mainIds peers)[p]? = some id) (after : Nat)
    (hafter : p + 1 + after ≤ peers.length) :
    Synopsis (p + 1) id after (d.getBlockchainSynopsis id after) := by
  have hp : p < peers.length := h.le
  have hroom := hs.room
  have hlonger := hs.longer
  have hlength : (upTo peers (p + 1)).length = p + 1 := length_upTo hp
  obtain ⟨pushed, -, hcaught⟩ := h.caught
  cases hcaught with
  | behind front hkept hwide hhas hfront hle =>
    rw [hlength] at hle
    have hlookups := hkept.mainLookups h.pending (by omega)
    by_cases hmain : id ∈ mainIds start
    · obtain ⟨k, hk⟩ := List.mem_iff_getElem?.mp hmain
      obtain ⟨hknum, hklt⟩ := hlookups.numFromId_mainIds hk
      obtain ⟨b, -, -, hbid, -, hbnum⟩ := hs.next hp
      rw [hid, Option.some.injEq] at hbid
      rw [hbid, numFromId_id, hbnum] at hknum
      obtain rfl : k = p := by omega
      have htake : ((mainIds start).take (k + 1)).length = k + 1 := by
        rw [List.length_take, length_mainIds]
        omega
      refine (hlookups.wellFormed_main hk (by omega)).synopsis (Nat.succ_pos k) htake ?_
      exact (RefLine.main (d := d) hk).getLast (hlookups.ne_null hmain)
    · obtain ⟨a, fork, hfork⟩ := Following.forkBlock hs h.pending hkept hhas hfront hle hp hid hmain
      obtain ⟨b, -, -, hbid, -, hbnum⟩ := hs.next hp
      rw [hid, Option.some.injEq] at hbid
      have hnum := hfork.numFromId_ref
      rw [hbid, numFromId_id, hbnum] at hnum
      obtain ⟨halt, -⟩ := hfork.leaves
      have hpath : ((mainIds start).take a ++ fork).length = p + 1 := by
        rw [List.length_append, List.length_take, length_mainIds]
        omega
      have hidle : numFromId id ≤ start.length := by
        rw [hbid, numFromId_id, hbnum]
        exact hle
      refine (hlookups.wellFormed_fork hfork hidle (by omega)).synopsis (Nat.succ_pos p) hpath ?_
      exact (RefLine.fork hfork).getLast hfork.ref_ne_null
  | ahead hkept hwide =>
    have hlookups := hkept.mainLookups h.pending (by omega)
    have hk : (mainIds (upTo peers (p + 1)))[p]? = some id := by
      rw [mainIds_upTo, List.getElem?_take_of_lt (Nat.lt_succ_self p), hid]
    have htake : ((mainIds (upTo peers (p + 1))).take (p + 1)).length = p + 1 := by
      rw [List.length_take, length_mainIds]
      omega
    refine (hlookups.wellFormed_main hk (by omega)).synopsis (Nat.succ_pos p) htake ?_
    exact (RefLine.main (d := d) hk).getLast (hlookups.ne_null (List.mem_of_getElem? hk))

/-! ## The answer -/

/-- A synopsis that the peer answers with its ids from a number on, as the node expects. -/
structure Answered (server : Database) (peers : List SignedBlock) (synopsis : List BlockId)
    (s : Nat) : Prop where
  reply : onFetchBlockchainItemIdsMessage server synopsis =
    some (((mainIds peers).drop (s - 1)).take blockIdsLimit, peers.length - (s - 1 + blockIdsLimit))
  buildsOff : ∀ id, (mainIds peers)[s - 1]? = some id → BuildsOff synopsis id

variable {server : Database} {synopsis : List BlockId}

/-- What the peer serves from a start on. -/
theorem MainLookups.reply (hserver : MainLookups peers server) (hne : peers ≠ [])
    (hstart : startOf peers synopsis = some id)
    (hpassed : ∀ id ∈ passedOver peers synopsis, ¬ server.Heeded id) :
    onFetchBlockchainItemIdsMessage server synopsis =
      some (((mainIds peers).drop (numFromId id - 1)).take blockIdsLimit,
        peers.length - (numFromId id - 1 + blockIdsLimit)) := by
  have hlimit : blockIdsLimit < 2 ^ 32 := by decide
  have hserves := hserver.serves hne hpassed hlimit
  have hle := numFromId_le_of_startable hserver.toMainNumbers (startable_of_startOf hstart)
  have hpos := List.length_pos_iff.mpr hne
  simp only [Serves, hstart] at hserves
  obtain ⟨ids, remaining, hanswer, hids, hremaining⟩ := hserves
  have hlength : ids.length = min blockIdsLimit (peers.length - (numFromId id - 1)) := by
    rw [hids, List.length_take, List.length_drop, length_mainIds]
  have hnonempty : ids ≠ [] := by
    intro hnil
    rw [hnil, List.length_nil, blockIdsLimit] at hlength
    omega
  obtain ⟨last, hlast⟩ : ∃ last, ids.getLast? = some last :=
    ⟨_, List.getLast?_eq_some_getLast hnonempty⟩
  have hget : (mainIds peers)[numFromId id - 1 + (ids.length - 1)]? = some last := by
    have hlt : ids.length - 1 < blockIdsLimit := by
      rw [blockIdsLimit] at hlength ⊢
      omega
    rw [List.getLast?_eq_getElem?] at hlast
    generalize ids.length - 1 = k at hlast hlt ⊢
    rwa [hids, List.getElem?_take, if_pos hlt, List.getElem?_drop] at hlast
  have hnum := (hserver.numFromId_mainIds hget).1
  have hleft := hremaining last hlast
  rw [onFetchBlockchainItemIdsMessage, hanswer]
  simp only [Option.some.injEq, Prod.mk.injEq]
  refine ⟨hids, ?_⟩
  rw [blockIdsLimit] at hlength ⊢
  omega

/-- The empty synopsis asks for everything. -/
theorem answered_nil (hserver : MainLookups peers server) (hne : peers ≠ []) :
    Answered server peers [] 0 := by
  have hstart : startOf peers [] = some .null := rfl
  have hreply := hserver.reply hne hstart (fun id hid => absurd hid List.not_mem_nil)
  rw [numFromId_null] at hreply
  refine ⟨hreply, fun id hid => ?_⟩
  rw [BuildsOff, if_pos rfl, (hserver.numFromId_mainIds hid).1]

/-- A synopsis with a block of the peer's chain, behind which nothing is taken for one. -/
theorem answered_of_mem (hserver : MainLookups peers server) (hmem : id ∈ synopsis)
    (hid : (mainIds peers)[p]? = some id) (hstart : startOf peers synopsis = some id)
    (hpassed : ∀ id ∈ passedOver peers synopsis, ¬ server.Heeded id) :
    Answered server peers synopsis (p + 1) := by
  obtain ⟨hnum, hlt⟩ := hserver.numFromId_mainIds hid
  have hreply := hserver.reply (List.length_pos_iff.mp (by omega)) hstart hpassed
  rw [hnum] at hreply
  refine ⟨hreply, fun id' hid' => ?_⟩
  rw [Nat.add_sub_cancel, hid, Option.some.injEq] at hid'
  rw [BuildsOff, if_neg (List.ne_nil_of_mem hmem), ← hid']
  exact hmem

/-- A synopsis that ends in a block of the peer's chain. -/
theorem answered_of_last (hserver : MainLookups peers server) (hlast : synopsis.getLast? = some id)
    (hid : (mainIds peers)[p]? = some id) : Answered server peers synopsis (p + 1) := by
  have hmem := List.mem_of_getLast? hlast
  have hstartable : startable peers id = true :=
    startable_iff.mpr (.inr (List.mem_of_getElem? hid))
  obtain ⟨front, rfl⟩ : ∃ front, synopsis = front ++ [id] := by
    obtain ⟨front, hfront⟩ := List.getLast?_eq_some_iff.mp hlast
    exact ⟨front, hfront⟩
  have hstart : startOf peers (front ++ [id]) = some id := by
    rw [startOf, if_neg (by simp), List.reverse_append, List.reverse_singleton,
      List.singleton_append, List.find?_cons, hstartable]
  refine answered_of_mem hserver hmem hid hstart fun x hx => ?_
  rw [passedOver, List.reverse_append, List.reverse_singleton, List.singleton_append,
    List.takeWhile_cons, hstartable] at hx
  exact absurd hx List.not_mem_nil

omit [Node] in
/-- The missing elements of a synopsis end in the last of the items to get. -/
theorem missingElements_returns {ids : List BlockId} {first t rounds low : Nat} (hne : ids ≠ [])
    (ht : t + 1 = first + ids.length) (hfits : t + 1 < 2 ^ 32) (hpos : 1 ≤ low) (hle : low ≤ t)
    (hrounds : t < low + rounds) :
    ∃ rest, missingElements ids first t rounds low = .ok rest ∧ rest.getLast? = ids.getLast? := by
  induction rounds generalizing low with
  | zero => omega
  | succ rounds ih =>
    rw [missingElements]
    have hlengthpos := List.length_pos_iff.mpr hne
    by_cases hend : low = t
    · subst hend
      have hover : ¬ nextLow low low ≤ low := by
        have := lt_nextLow (Nat.le_refl low) hpos hfits
        omega
      have hidx : low - first = ids.length - 1 := by omega
      rw [if_neg hover, if_pos (by omega), hidx, ← List.getLast?_eq_getElem?]
      obtain ⟨last, hlast⟩ : ∃ last, ids.getLast? = some last :=
        ⟨_, List.getLast?_eq_some_getLast hne⟩
      exact ⟨[last], by rw [hlast]; rfl, by rw [hlast]; rfl⟩
    · have hlt : low < t := by omega
      have hup := lt_nextLow hle hpos hfits
      obtain ⟨rest, hrest, hlast⟩ := ih (by omega)
        (nextLow_le hlt hpos hfits) (by omega)
      rw [if_pos (nextLow_le hlt hpos hfits), hrest]
      by_cases hfirst : first ≤ low
      · have hidx : low - first < ids.length := by omega
        rw [if_pos hfirst, List.getElem?_eq_getElem hidx]
        refine ⟨ids[low - first] :: rest, rfl, ?_⟩
        cases rest with
        | nil =>
          exfalso
          rw [List.getLast?_nil, List.getLast?_eq_some_getLast hne] at hlast
          cases hlast
        | cons r rest => rw [List.getLast?_cons_cons, hlast]
      · rw [if_neg hfirst]
        exact ⟨rest, rfl, hlast⟩

end Sessions

end NewsChain
