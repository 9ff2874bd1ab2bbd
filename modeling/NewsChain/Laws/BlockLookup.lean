import NewsChain.Laws.ReturnedRun

/-!
# Looking blocks up by number

Three lookups answer for a number: the fork database alone, by walking down from its own head; the
fork database with the log behind it; and the block summaries with both behind them. The last one is
always right about the main chain. The other two are misled by competing blocks: the first where the
fork database's head is not on the main chain or below the competitor (`Aimed`), the second wherever
a competitor is above the last irreversible block (`Uncontested`).
-/

namespace NewsChain

open EStateM (Result)
open ForkDatabase (Linked Trimmed cacheDepth)

section Chains

variable [Node] {pushed chain chain' : List SignedBlock} {fdb fdb' : ForkDatabase} {b : SignedBlock}
  {answer : Bool} {d : Database}

/-! ## The main branch lookup -/

/-- The head of the fork database is the newest block of the main chain or the one before it, and
nothing competes with what is above. -/
structure Aimed (chain : List SignedBlock) (fdb : ForkDatabase) (head : ForkItem) : Prop where
  isHead : fdb.head = some head
  line : ∃ k ≤ 1, head.num + k = chain.length ∧ head.blocks = chain.drop k
  cached : ∀ a ∈ head.ancestors, chain.length - cacheDepth ≤ a.num → a ∈ fdb.index
  alone : ∀ i ∈ fdb.index, head.num < i.num → i.blocks = chain

/-- **What an aimed head finds.** -/
theorem Aimed.found {head : ForkItem} (h : Aimed chain fdb head) (hforest : Forest pushed chain fdb)
    {n : Nat} (hpos : 0 < n) (hle : n ≤ chain.length) (hrecent : chain.length - cacheDepth ≤ n) :
    ∃ i, fdb.fetchBlockOnMainBranchByNumber n = some i ∧ i.num = n ∧
      chain[chain.length - n]? = some i.data := by
  obtain ⟨a, ha, hanum, hadata⟩ := hforest.item_of_num hpos hle hrecent
  obtain ⟨k, hk, hnum, hblocks⟩ := h.line
  have hmem := ForkDatabase.mem_fetchBlockByNumber.mpr ⟨ha, hanum⟩
  by_cases hhigher : head.num < n
  · -- Above the head there is nothing else.
    have hsingle : fdb.fetchBlockByNumber n = [a] := by
      refine ForkDatabase.fetchBlockByNumber_eq_singleton ha hanum fun i hi hinum => ?_
      have hsame := (h.alone i hi (by omega)).trans (h.alone a ha (by omega)).symm
      rw [ForkItem.blocks, ForkItem.blocks, List.cons.injEq] at hsame
      rw [ForkItem.id, ForkItem.id, hsame.1]
    exact ⟨a, by rw [ForkDatabase.fetchBlockOnMainBranchByNumber, hsingle], hanum, hadata⟩
  · unfold ForkDatabase.fetchBlockOnMainBranchByNumber
    split
    · rename_i hnil
      rw [hnil] at hmem
      cases hmem
    · rename_i i hi
      rw [hi, List.mem_singleton] at hmem
      subst hmem
      exact ⟨a, rfl, hanum, hadata⟩
    · -- The walk starts on the main chain, no lower than the number.
      obtain ⟨c, hc, hcnum⟩ := head.ancestor_of_num (n := n) (by omega) (by
        rw [hblocks, List.length_drop]
        omega)
      have hline := ForkDatabase.lineage_getElem hc fun x hx hlow => h.cached x hx (by omega)
      have hwalk := ForkDatabase.walkTo_of_getElem (fdb.lineage_follows head) hline
      have hdata := ForkItem.data_getElem hc
      rw [hblocks, List.getElem?_drop] at hdata
      refine ⟨c, ?_, hcnum, ?_⟩
      · simp only [ForkDatabase.walkMainBranchToNum, h.isHead, if_neg hhigher]
        rw [← hcnum]
        exact hwalk
      · rw [← hdata]
        congr 1
        omega

/-- The push leaves the lookup on the main chain: the block builds on the head, or is no higher than
the fork database's head, or is stored already, or replaces a single block by two. -/
def KeepsLookup (d : Database) (b : SignedBlock) : Prop :=
  b.previous = d.headBlockId ∨
    (∀ head, d.forkDb.head = some head → b.blockNum ≤ head.num) ∨
    (∃ i, d.forkDb.fetchBlock b.id = some i ∧ i.data = b) ∨
    ∃ p q, d.forkDb.fetchBlock b.previous = some p ∧ d.forkDb.fetchBlock d.headBlockId = some q ∧
      p.data.previous = q.data.previous

omit [Node] in
/-- Two items with the same previous id part right there. -/
theorem fetchBranchFrom_siblings [Env] {fdb : ForkDatabase} {f p q : ForkItem} {x y : BlockId}
    (hf : fdb.fetchBlock x = some f) (hq : fdb.fetchBlock y = some q) (hfollows : f.Follows p)
    (hp : p ∈ fdb.index) (hprev : p.data.previous = q.data.previous) :
    fdb.fetchBranchFrom x y = .ok (⟨p, [f]⟩, ⟨q, []⟩) := by
  have hnum : q.num = p.num := by
    rw [ForkItem.num, ForkItem.num, BlockHeader.blockNum, BlockHeader.blockNum, hprev]
  have hfnum := hfollows.num
  have howns : fdb.owns p.ptr = true :=
    List.any_eq_true.mpr ⟨p, by simp [hp], by simp⟩
  have hfline : fdb.lineage f = f :: fdb.lineage p := by
    rw [ForkDatabase.lineage_of_follows hfollows, if_pos howns]
  have hpline : fdb.lineage p = p :: p.ancestors.takeWhile fun i => fdb.owns i.ptr := rfl
  have hqline : fdb.lineage q = q :: q.ancestors.takeWhile fun i => fdb.owns i.ptr := rfl
  simp only [ForkDatabase.fetchBranchFrom, hf, hq, hfline, ForkDatabase.descend,
    if_pos (show q.num < f.num by omega), hpline, if_neg (show ¬ q.num < p.num by omega), hqline,
    List.headD_cons, if_neg (show ¬ p.num < q.num by omega), ForkDatabase.meet, hprev, ne_eq,
    not_true_eq_false, if_false]

namespace Kept

variable {item p q : ForkItem}

/-- A child of a sibling of the head is one higher than the head. -/
theorem num_of_siblings (hd : Kept pushed chain d) (hne : chain ≠ [])
    (hitem : d.forkDb.Linked b item) (hp : d.forkDb.fetchBlock b.previous = some p)
    (hq : d.forkDb.fetchBlock d.headBlockId = some q) (hprev : p.data.previous = q.data.previous) :
    item.Follows p ∧ item.num = chain.length + 1 := by
  have hqnum : q.num = chain.length := by
    have hid := (ForkDatabase.fetchBlock_eq_some.mp hq).2
    rw [ForkItem.num, ← numFromId_id q.data.toSignedBlockHeader]
    change numFromId q.id = _
    rw [hid, Database.headBlockId, Database.gpo, ← hd.main.onChain.store.head.number]
    exact hd.headBlockNum
  have hpnum : p.num = chain.length := by
    rw [← hqnum, ForkItem.num, ForkItem.num, BlockHeader.blockNum, BlockHeader.blockNum, hprev]
  rcases hitem.line with ⟨-, hnone | hnull⟩ | ⟨p', hp', hfollows⟩
  · exact absurd (hd.forest.fresh hnone).2 hne
  · -- The parent of a first block would be numbered 0.
    have hid := (ForkDatabase.fetchBlock_eq_some.mp hp).2
    have hzero : p.num = 0 := by
      rw [ForkItem.num, ← numFromId_id p.data.toSignedBlockHeader]
      change numFromId p.id = _
      rw [hid, hnull, numFromId_null]
    exact absurd (List.length_eq_zero_iff.mp (hpnum.symm.trans hzero)) hne
  · rw [hp] at hp'
    cases hp'
    exact ⟨hfollows, by rw [hfollows.num, hpnum]⟩

/-- A block above the chain, or one on its head, was not ignored. -/
theorem not_on_head (hd : Kept pushed chain d) (hitem : d.forkDb.Linked b item)
    (hle : item.num ≤ chain.length) : b.previous ≠ d.headBlockId := by
  intro hprev
  have hnum := hd.blockNum_of_previous hprev fun hne => hd.blockNum_pos hitem hne
  rw [ForkItem.num, hitem.data] at hle
  omega

/-- A copy of the head block is the head block. -/
theorem copy_blocks (hd : Kept pushed chain d) (hne : chain ≠ []) (hitem : d.forkDb.Linked b item)
    {i : ForkItem} (hi : i.blocks = chain) (hdata : i.data = b) : item.blocks = chain := by
  obtain ⟨c, rest, rfl⟩ := List.exists_cons_of_ne_nil hne
  obtain ⟨rfl, -⟩ := List.cons.inj hi
  have hlinked := hd.main.onChain.linked
  have hprev : item.data.previous = headIdOf ((i.data :: rest).drop 1) := by
    rw [hitem.data, ← hdata]
    exact hlinked.1
  have hnum : item.num = ((i.data :: rest).drop 1).length + 1 := by
    have hblock := hd.main.onChain.blockNum (k := 0) (b := i.data) rfl
    rw [ForkItem.num, hitem.data, ← hdata, hblock]
    rfl
  have hblocks := hd.forest.blocks_eq hitem (j := 1) List.mem_cons_self (by decide) hprev hnum
  rw [hblocks, hitem.data, ← hdata]
  rfl

/-- A block that is ignored leaves the lookup on the chain. -/
theorem aimed_ignored (hd : Kept pushed chain d) (hb : KeepsLookup d b)
    (hitem : d.forkDb.Linked b item) (hle : item.num ≤ chain.length) {head : ForkItem}
    (h : Aimed chain d.forkDb head) (hne : chain ≠ []) :
    ∃ head', Aimed chain ((d.forkDb.pushed item).hold []) head' := by
  have hmem : ∀ i, i ∈ (d.forkDb.pushed item).index → i ∈ d.forkDb.index ∨ i = item := fun i hi =>
    (ForkDatabase.mem_insert.mp hi).imp_right And.left
  have hold : ∀ i ∈ d.forkDb.index, i ∈ (d.forkDb.pushed item).index := fun i hi =>
    ForkDatabase.mem_insert.mpr (.inl hi)
  obtain ⟨k, hk, hnum, hblocks⟩ := h.line
  by_cases hraised : item.num ≤ head.num
  · have hsame : d.forkDb.raisedHead item = head := by
      simp only [ForkDatabase.raisedHead, h.isHead]
      rw [if_neg (by omega)]
    refine ⟨head, congrArg some hsame, h.line,
      fun a ha hlow => hold a (h.cached a ha hlow), fun i hi hhigher => ?_⟩
    rcases hmem i hi with hi | rfl
    · exact h.alone i hi hhigher
    · exact absurd hraised (by omega)
  · -- The new item becomes the head: it is a copy of the head block.
    have hnew : d.forkDb.raisedHead item = item := by
      simp only [ForkDatabase.raisedHead, h.isHead]
      rw [if_pos (by omega)]
    have htop : item.num = chain.length := by omega
    have hcopy : item.blocks = chain := by
      rcases hb with hprev | hlow | ⟨i, hi, hdata⟩ | ⟨p, q, hp, hq, hprev⟩
      · exact absurd hprev (hd.not_on_head hitem hle)
      · have := hlow head h.isHead
        rw [ForkItem.num, hitem.data] at hraised
        exact absurd this hraised
      · have himem := (ForkDatabase.fetchBlock_eq_some.mp hi).1
        have hinum : i.num = item.num := by rw [ForkItem.num, ForkItem.num, hdata, hitem.data]
        exact hd.copy_blocks hne hitem (h.alone i himem (by omega)) hdata
      · have := (hd.num_of_siblings hne hitem hp hq hprev).2
        omega
    refine ⟨item, congrArg some hnew, ⟨0, by decide, htop, hcopy⟩, fun a ha hlow => ?_,
      fun i hi hhigher => ?_⟩
    · exact hold a (hd.forest.ancestor_mem hitem ha hlow)
    · rcases hmem i hi with hi | rfl
      · have := hd.forest.low i hi
        omega
      · omega

/-- So does a block that extends the chain. -/
theorem aimed_extended (hd : Kept pushed chain d) (hitem : d.forkDb.Linked b item)
    (hnew : d.forkDb.raisedHead item = item) (ht : Tops item chain) :
    Aimed item.blocks (((d.forkDb.pushed item).setMaxSize
      (min item.num irreversibleBlockNum + 1)).hold []) item := by
  have hnum := ht.num
  have hhead : (d.forkDb.pushed item).head = some item := congrArg some hnew
  have htrim := trimmed_setMaxSize hhead List.mem_cons_self
  have hmem : ∀ i, i ∈ (d.forkDb.pushed item).index ↔ i ∈ d.forkDb.index ∨ i = item := fun i =>
    hd.forest.mem_pushed (by omega)
  refine ⟨htrim.head.trans hhead, ⟨0, by decide, ht.length.symm, rfl⟩, fun a ha hlow => ?_,
    fun i hi hhigher => ?_⟩
  · rw [ht.length] at hlow
    exact htrim.kept a ((hmem a).mpr (.inl (hd.forest.ancestor_mem hitem ha (by omega)))) hlow
  · rcases (hmem i).mp (htrim.subset i hi) with hi | rfl
    · have := hd.forest.low i hi
      omega
    · rfl

/-- So does a switch that replaces one block. -/
theorem aimed_switched (hd : Kept pushed chain d) (hb : KeepsLookup d b)
    (hitem : d.forkDb.Linked b item) (hprev : b.previous ≠ headIdOf chain)
    (hnum : item.num = chain.length + 1) {first second : Branch} {depth : Nat}
    (hfetch : (d.forkDb.pushed item).fetchBranchFrom item.id (headIdOf chain) = .ok (first, second))
    (hback : (item :: item.ancestors)[depth]? = some first.back)
    (ht : Tops first.back (chain.drop depth))
    (htrim : Trimmed (item.num - cacheDepth) ((d.forkDb.pushed item).setHead first.back) fdb') :
    Aimed item.blocks fdb' first.back := by
  have hmem : ∀ i, i ∈ (d.forkDb.pushed item).index ↔ i ∈ d.forkDb.index ∨ i = item := fun i =>
    hd.forest.mem_pushed (by omega)
  have hne : chain ≠ [] := by
    rintro rfl
    have hzero := (ForkItem.ancestors_getElem hback).2
    have hbacknum := ht.num
    rw [List.drop_nil, List.length_nil] at hbacknum
    rw [List.length_nil] at hnum
    obtain rfl : depth = 0 := by omega
    have hsame := ht.previous
    rw [← Option.some.inj hback, hitem.data] at hsame
    exact hprev hsame
  obtain ⟨p, q, hp, hq, hsame⟩ : ∃ p q, d.forkDb.fetchBlock b.previous = some p ∧
      d.forkDb.fetchBlock d.headBlockId = some q ∧ p.data.previous = q.data.previous := by
    rcases hb with hhead | hlow | ⟨i, hi, hdata⟩ | hsiblings
    · exact absurd (hhead.trans hd.headBlockId) hprev
    · obtain ⟨head, hhead⟩ : ∃ head, d.forkDb.head = some head :=
        Option.ne_none_iff_exists'.mp fun hnone => hne (hd.forest.fresh hnone).2
      have hle := (hd.forest.head head hhead).1
      have hlow := hlow head hhead
      rw [ForkItem.num, hitem.data] at hnum
      omega
    · have hlow := hd.forest.low i (ForkDatabase.fetchBlock_eq_some.mp hi).1
      rw [ForkItem.num, hdata] at hlow
      rw [ForkItem.num, hitem.data] at hnum
      omega
    · exact hsiblings
  obtain ⟨hfollows, -⟩ := hd.num_of_siblings hne hitem hp hq hsame
  obtain ⟨hpmem, -⟩ := ForkDatabase.fetchBlock_eq_some.mp hp
  obtain ⟨hqmem, hqid⟩ := ForkDatabase.fetchBlock_eq_some.mp hq
  rw [fetchBranchFrom_siblings
    (ForkDatabase.fetchBlock_eq_some.mpr ⟨(hmem item).mpr (.inr rfl), rfl⟩)
    (ForkDatabase.fetchBlock_eq_some.mpr ⟨(hmem q).mpr (.inl hqmem), hqid.trans hd.headBlockId⟩)
    hfollows ((hmem p).mpr (.inl hpmem)) hsame] at hfetch
  cases hfetch
  have hlength := ht.length_above hback
  have hpnum : p.num + 1 = item.blocks.length := hfollows.num.symm.trans hlength.symm
  refine ⟨htrim.head, ⟨1, Nat.le_refl _, hpnum, ?_⟩, fun a ha hlow => ?_, fun i hi hhigher => ?_⟩
  · rw [ForkItem.blocks, ForkItem.blocks, hfollows]
    rfl
  · rw [hlength] at hlow
    have haitem : a ∈ item.ancestors := by
      rw [hfollows.ancestors]
      exact List.mem_cons_of_mem _ ha
    exact htrim.kept a ((hmem a).mpr (.inl (hd.forest.ancestor_mem hitem haitem (by omega)))) hlow
  · rcases (hmem i).mp (htrim.subset i hi) with hi | rfl
    · have := hd.forest.low i hi
      change p.num < i.num at hhigher
      omega
    · rfl

end Kept

/-- **One push.** A push under the condition keeps the lookup on the main chain. -/
theorem Step.aimed (hstep : Step chain d.forkDb b answer chain' fdb') (hd : Kept pushed chain d)
    (hb : KeepsLookup d b) (h : chain ≠ [] → ∃ head, Aimed chain d.forkDb head)
    (hne : chain' ≠ []) : ∃ head, Aimed chain' fdb' head := by
  cases hstep with
  | ignored hitem hle =>
    obtain ⟨head, hhead⟩ := h hne
    exact hd.aimed_ignored hb hitem hle hhead hne
  | extended hitem hnew ht => exact ⟨_, hd.aimed_extended hitem hnew ht⟩
  | switched hitem hprev hnum hfetch hback ht htrim =>
    exact ⟨_, hd.aimed_switched hb hitem hprev hnum hfetch hback ht htrim⟩

theorem ReturnedRun.aimed (h : ReturnedRun KeepsLookup pushed d) :
    ∃ chain, Kept pushed chain d.settled ∧ (chain ≠ [] → ∃ head, Aimed chain d.forkDb head) := by
  induction h with
  | genesis => exact ⟨[], kept_genesis, fun hne => absurd rfl hne⟩
  | @push _ d d' _ b _ hb hrun ih =>
    obtain ⟨chain, hkept, haimed⟩ := ih
    obtain ⟨chain', hstep, hkept'⟩ := hkept.push hrun
    have hstep' : Step chain d.settled.forkDb b _ chain' d'.forkDb := hstep
    exact ⟨chain', hkept', hstep'.aimed hkept hb haimed⟩

/-- **Main-branch lookup.** In every run in which no push throws and each keeps the lookup on the
main chain, a recent number is looked up in the fork database as the block of the main chain. -/
theorem lookupRun_mainBranch (h : ReturnedRun KeepsLookup pushed d) :
    ∃ chain, MainChain pushed chain d ∧
      ∀ n, max 1 (d.headBlockNum - 20) ≤ n → n ≤ d.headBlockNum →
        ∃ i, d.forkDb.fetchBlockOnMainBranchByNumber n = some i ∧ i.num = n ∧
          chain[d.headBlockNum - n]? = some i.data := by
  obtain ⟨chain, hkept, haimed⟩ := h.aimed
  have hmain := hkept.mainChain h.kept.1
  refine ⟨chain, hmain, fun n hmin hmax => ?_⟩
  rw [hmain.headBlockNum] at hmin hmax ⊢
  have hne : chain ≠ [] := by
    rintro rfl
    rw [List.length_nil] at hmax
    omega
  obtain ⟨head, hhead⟩ := haimed hne
  exact hhead.found hkept.forest (by omega) hmax (by
    simp only [cacheDepth, irreversibleBlockNum]
    omega)

/-! ## The summaries, the log and the fork database -/

namespace Kept

variable {n : Nat} {c : SignedBlock}

/-- An irreversible block is read from the log. -/
theorem readBlockByNum (hd : Kept pushed chain d) (hpos : 0 < n)
    (hle : n ≤ chain.length - irreversibleBlockNum) (hc : chain[chain.length - n]? = some c) :
    d.blockLog.readBlockByNum n = some c := by
  have hlt : n - 1 < d.blockLog.blocks.length := by
    rw [hd.logs]
    omega
  have hblock := hd.main.logged.getElem (List.getElem?_eq_getElem hlt)
  rw [BlockLog.readBlockByNum_eq, if_pos hpos, List.getElem?_eq_getElem hlt, ← hblock, ← hc]
  congr 1
  omega

/-- **The summaries are always right.** Every block of the main chain is found by its number. -/
theorem findBlockIdForNum (hd : Kept pushed chain d.settled) (hpending : Pending d) (hpos : 0 < n)
    (hle : n ≤ chain.length) (hc : chain[chain.length - n]? = some c) :
    d.findBlockIdForNum n = c.id := by
  obtain ⟨hhead, hring⟩ :=
    ring_of_applyBlocks hd.main.onChain.linked hd.main.onChain.tracks.content.run
  have hheight : d.settled.store.content.gpo.headBlockNum = chain.length := hd.headBlockNum
  have hcnum : c.blockNum = n := by
    rw [hd.main.onChain.blockNum hc]
    omega
  unfold Database.findBlockIdForNum
  rw [if_neg (Nat.pos_iff_ne_zero.mp hpos), ← hpending.settled_blockSummary]
  by_cases hrecent : chain.length - n < summaryCount
  · have hsummary := hring.holds _ c hrecent hc
    rw [hcnum] at hsummary
    simp only [hsummary, numFromId_id, hcnum, if_true]
  · have hlarger := hring.overwritten hhead (n := n) (by
      rw [hheight]
      simp only [summaryCount] at hrecent ⊢
      omega)
    have hread : d.blockLog.readBlockByNum n = some c := hd.readBlockByNum hpos (by
      simp only [summaryCount, irreversibleBlockNum] at hrecent ⊢
      omega) hc
    simp only [if_neg (Nat.ne_of_gt hlarger), hread]

end Kept

/-- The push leaves the blocks above the last irreversible one without a competitor: the block
builds on the head, or is no higher than that, or is stored already. -/
def Uncontested (d : Database) (b : SignedBlock) : Prop :=
  b.previous = d.headBlockId ∨ b.blockNum ≤ d.gpo.lastIrreversibleBlockNum ∨
    ∃ i, d.forkDb.fetchBlock b.id = some i

/-- The fork database follows the main chain: its head is as high, no item is older than the window,
and above the last irreversible block the items are those of the chain. -/
structure Straight (chain : List SignedBlock) (fdb : ForkDatabase) : Prop where
  head : ∀ head, fdb.head = some head → head.num = chain.length
  maxSize : chain ≠ [] → fdb.maxSize = min chain.length irreversibleBlockNum + 1
  recent : ∀ i ∈ fdb.index, chain.length - cacheDepth ≤ i.num
  alone : ∀ i ∈ fdb.index, chain.length - irreversibleBlockNum < i.num →
    chain[chain.length - i.num]? = some i.data

theorem straight_genesis : Straight [] {} where
  head _ hhead := nomatch hhead
  maxSize hne := absurd rfl hne
  recent _ hi := absurd hi List.not_mem_nil
  alone _ hi := absurd hi List.not_mem_nil

/-- A push without a competitor keeps the fork database on the main chain. -/
theorem Step.straight (hstep : Step chain d.forkDb b answer chain' fdb') (hd : Kept pushed chain d)
    (hb : Uncontested d b) (h : Straight chain d.forkDb) : Straight chain' fdb' := by
  have hlast : d.gpo.lastIrreversibleBlockNum = chain.length - irreversibleBlockNum := by
    rw [← hd.headBlockNum]
    exact hd.main.onChain.store.head.lastIrreversible
  cases hstep with
  | @ignored item hitem hle =>
    -- The new item, where it is stored at all, is at the last irreversible block.
    have hmem : ∀ i ∈ (d.forkDb.pushed item).index, i ∈ d.forkDb.index ∨
        i = item ∧ item.num ≤ chain.length - irreversibleBlockNum := by
      intro i hi
      rcases ForkDatabase.mem_insert.mp hi with hi | ⟨rfl, hnew⟩
      · exact .inl hi
      · refine .inr ⟨rfl, ?_⟩
        rcases hb with hprev | hlow | ⟨j, hj⟩
        · exact absurd hprev (hd.not_on_head hitem hle)
        · rw [ForkItem.num, hitem.data, ← hlast]
          exact hlow
        · obtain ⟨hjmem, hjid⟩ := ForkDatabase.fetchBlock_eq_some.mp hj
          refine absurd (List.mem_map.mpr ⟨j, hjmem, ?_⟩) hnew
          rw [hjid, ForkItem.id, hitem.data]
    refine ⟨fun head hhead => ?_, fun hne => ?_, fun i hi => ?_, fun i hi hhigher => ?_⟩
    · cases hhead
      rcases d.forkDb.raisedHead_cases item with ⟨heq, hraised⟩ | ⟨heq, -⟩
      · rw [heq]
        cases hold : d.forkDb.head with
        | none =>
          obtain ⟨-, rfl⟩ := hd.forest.fresh hold
          exact Nat.le_zero.mp hle
        | some old =>
          have := hraised old hold
          have := h.head old hold
          omega
      · exact h.head _ heq
    · exact (ForkDatabase.insert_maxSize _ _).trans (h.maxSize hne)
    · rcases hmem i hi with hi | ⟨rfl, hlow⟩
      · exact h.recent i hi
      · cases hold : d.forkDb.head with
        | none => rw [(hd.forest.fresh hold).2]; exact Nat.zero_le _
        | some old =>
          have hnum := h.head old hold
          have hrecent := hitem.recent old hold
          by_cases hne : chain = []
          · rw [hne]
            exact Nat.zero_le _
          · rw [h.maxSize hne, hnum] at hrecent
            rw [ForkItem.num, hitem.data]
            simp only [cacheDepth, irreversibleBlockNum] at hrecent ⊢
            omega
    · rcases hmem i hi with hi | ⟨rfl, hlow⟩
      · exact h.alone i hi hhigher
      · omega
  | @extended item hitem hnew ht =>
    have hnum := ht.num
    have hhead : (d.forkDb.pushed item).head = some item := congrArg some hnew
    have hmem : ∀ i ∈ ((d.forkDb.pushed item).setMaxSize
        (min item.num irreversibleBlockNum + 1)).index,
        (i ∈ d.forkDb.index ∨ i = item) ∧
          item.num - (min item.num irreversibleBlockNum + 1) ≤ i.num := fun i hi => by
      obtain ⟨hi, hrecent⟩ := ForkDatabase.mem_setMaxSize.mp hi
      exact ⟨(hd.forest.mem_pushed (by omega)).mp hi, hrecent item hhead⟩
    refine ⟨fun head hhead' => ?_, fun _ => ?_, fun i hi => ?_, fun i hi hhigher => ?_⟩
    · have hsame := hhead'
      rw [ForkDatabase.hold_head, ForkDatabase.setMaxSize_head, hhead] at hsame
      cases hsame
      exact ht.length.symm
    · rw [ht.length]
      exact ForkDatabase.setMaxSize_maxSize _ _
    · have hrecent := (hmem i hi).2
      rw [ht.length]
      simp only [cacheDepth, irreversibleBlockNum] at hrecent ⊢
      omega
    · rw [ht.length] at hhigher ⊢
      rcases (hmem i hi).1 with hi | rfl
      · have hlow := hd.forest.low i hi
        have hblock := h.alone i hi (by omega)
        rw [ht.blocks, show item.num - i.num = chain.length - i.num + 1 by omega]
        exact hblock
      · rw [ht.blocks, Nat.sub_self]
        rfl
  | @switched item _ _ _ _ hitem hprev hnum =>
    -- A block that makes the chain switch is a competitor.
    exfalso
    rw [ForkItem.num, hitem.data] at hnum
    rcases hb with hhead | hlow | ⟨i, hi⟩
    · exact hprev (hhead.trans hd.headBlockId)
    · omega
    · obtain ⟨hi, hid⟩ := ForkDatabase.fetchBlock_eq_some.mp hi
      have hlow := hd.forest.low i hi
      have hsame : i.num = b.blockNum := blockNum_eq_of_id_eq hid
      omega

theorem ReturnedRun.straight (h : ReturnedRun Uncontested pushed d) :
    ∃ chain, Kept pushed chain d.settled ∧ Straight chain d.forkDb := by
  induction h with
  | genesis => exact ⟨[], kept_genesis, straight_genesis⟩
  | @push _ d d' _ b _ hb hrun ih =>
    obtain ⟨chain, hkept, hstraight⟩ := ih
    obtain ⟨chain', hstep, hkept'⟩ := hkept.push hrun
    have hstep' : Step chain d.settled.forkDb b _ chain' d'.forkDb := hstep
    exact ⟨chain', hkept', hstep'.straight hkept hb hstraight⟩

/-- A block of the main chain is found by its number, in the fork database or in the log. -/
theorem Straight.fetchBlockByNumber (h : Straight chain d.forkDb) (hd : Kept pushed chain d)
    {n : Nat} {c : SignedBlock} (hpos : 0 < n) (hle : n ≤ chain.length)
    (hc : chain[chain.length - n]? = some c) : d.fetchBlockByNumber n = some c := by
  have hitem : chain.length - cacheDepth ≤ n →
      ∃ a ∈ d.forkDb.index, a.num = n ∧ a.data = c := fun hrecent => by
    obtain ⟨a, ha, hanum, hadata⟩ := hd.forest.item_of_num hpos hle hrecent
    rw [hc] at hadata
    exact ⟨a, ha, hanum, (Option.some.inj hadata).symm⟩
  unfold Database.fetchBlockByNumber
  by_cases hlast : n ≤ chain.length - irreversibleBlockNum
  · have hread := hd.readBlockByNum hpos hlast hc
    split
    · rename_i i hi
      obtain ⟨himem, hinum⟩ := ForkDatabase.mem_fetchBlockByNumber.mp
        (hi ▸ List.mem_singleton_self i : i ∈ d.forkDb.fetchBlockByNumber n)
      -- The only item of this number is the one of the main chain.
      obtain ⟨a, ha, hanum, rfl⟩ := hitem (hinum ▸ h.recent i himem)
      have hmem := ForkDatabase.mem_fetchBlockByNumber.mpr ⟨ha, hanum⟩
      rw [hi, List.mem_singleton] at hmem
      rw [hmem]
    · exact hread
  · obtain ⟨a, ha, hanum, rfl⟩ := hitem (by
      simp only [cacheDepth, irreversibleBlockNum] at hlast ⊢
      omega)
    have hsingle : d.forkDb.fetchBlockByNumber n = [a] := by
      refine ForkDatabase.fetchBlockByNumber_eq_singleton ha hanum fun i hi hinum => ?_
      have hblock := h.alone i hi (by omega)
      rw [hinum, hc] at hblock
      rw [ForkItem.id, ForkItem.id, Option.some.inj hblock]
    rw [hsingle]

/-- **Two lookups.** In every run in which no push throws and none brings a competitor for a block
above the last irreversible one, every number up to the head's is looked up as a block of that
number, by both lookups the same. -/
theorem lookupRun_agree (h : ReturnedRun Uncontested pushed d) {n : Nat} (hpos : 1 ≤ n)
    (hle : n ≤ d.headBlockNum) :
    ∃ c, d.fetchBlockByNumber n = some c ∧ c.blockNum = n ∧ c.id = d.findBlockIdForNum n := by
  obtain ⟨chain, hkept, hstraight⟩ := h.straight
  have hpending := h.kept.1
  rw [(hkept.mainChain hpending).headBlockNum] at hle
  obtain ⟨c, hc⟩ : ∃ c, chain[chain.length - n]? = some c :=
    ⟨_, List.getElem?_eq_getElem (by omega)⟩
  refine ⟨c, ?_, ?_, (hkept.findBlockIdForNum hpending hpos hle hc).symm⟩
  · exact Straight.fetchBlockByNumber (d := d.settled) hstraight hkept hpos hle hc
  · rw [hkept.main.onChain.blockNum hc]
    omega

end Chains

/-! ## Competing blocks -/

/-- A switch that replaces a single block by two: each number is looked up on the new chain. -/
theorem lookupRun_mainBranch_switch :
    let _ : Node := smallNode
    ∃ (d : Database) (pushed chain : List SignedBlock), pushed.length = 4 ∧
      MainChain pushed chain d ∧ d.headBlockNum = 3 ∧ ∀ n, 1 ≤ n → n ≤ 3 →
        ∃ i, d.forkDb.fetchBlockOnMainBranchByNumber n = some i ∧ i.num = n ∧
          chain[3 - n]? = some i.data := by
  intro node
  let x : SignedBlock := blockOn .null genesisTime []
  let x' : SignedBlock := blockOn x.id (genesisTime + 3) []
  let y : SignedBlock := blockOn x.id (genesisTime + 6) []
  let z : SignedBlock := blockOn y.id (genesisTime + 9) []
  let push (b : SignedBlock) (d : Database) : Database := finalState ((pushBlock skipNothing b).run d)
  let d₁ := push x .genesis
  let d₂ := push x' d₁
  let d₃ := push y d₂
  let d := push z d₃
  have hx : KeepsLookup (Database.genesis).settled x := .inl (by decide +kernel)
  have hx' : KeepsLookup d₁.settled x' := .inl (by decide +kernel)
  have hy : KeepsLookup d₂.settled y := by
    have hlow : ∀ head ∈ d₂.settled.forkDb.head, y.blockNum ≤ head.num := by decide +kernel
    exact .inr (.inl hlow)
  have hz : KeepsLookup d₃.settled z := by
    have hsiblings : ∃ p ∈ d₃.settled.forkDb.fetchBlock z.previous,
        ∃ q ∈ d₃.settled.forkDb.fetchBlock d₃.settled.headBlockId,
          p.data.previous = q.data.previous := by decide +kernel
    obtain ⟨p, hp, q, hq, hprev⟩ := hsiblings
    exact .inr (.inr (.inr ⟨p, q, hp, hq, hprev⟩))
  have hrun₁ := ReturnedRun.genesis.push_of_returned hx (by decide +kernel)
  have hrun₂ := hrun₁.push_of_returned hx' (by decide +kernel)
  have hrun₃ := hrun₂.push_of_returned hy (by decide +kernel)
  have hrun := hrun₃.push_of_returned hz (by decide +kernel)
  have hnum : d.headBlockNum = 3 := by decide +kernel
  obtain ⟨chain, hmain, hfound⟩ := lookupRun_mainBranch hrun
  rw [hnum] at hfound
  exact ⟨d, _, chain, rfl, hmain, hnum, hfound⟩

/-- Three blocks, of which the second comes twice: no competitor may come, so none is there to be
found. -/
theorem lookupRun_agree_repeated :
    let _ : Node := smallNode
    ∃ d : Database, d.headBlockNum = 3 ∧ ∀ n, 1 ≤ n → n ≤ 3 →
      ∃ c, d.fetchBlockByNumber n = some c ∧ c.blockNum = n ∧ c.id = d.findBlockIdForNum n := by
  intro node
  let x : SignedBlock := blockOn .null genesisTime []
  let y : SignedBlock := blockOn x.id (genesisTime + 3) []
  let z : SignedBlock := blockOn y.id (genesisTime + 6) []
  let push (b : SignedBlock) (d : Database) : Database := finalState ((pushBlock skipNothing b).run d)
  let d₁ := push x .genesis
  let d₂ := push y d₁
  let d₃ := push y d₂
  let d := push z d₃
  have hx : Uncontested (Database.genesis).settled x := .inl (by decide +kernel)
  have hy : Uncontested d₁.settled y := .inl (by decide +kernel)
  have hagain : Uncontested d₂.settled y := by
    have hthere : ∃ i ∈ d₂.settled.forkDb.fetchBlock y.id, i.data = y := by decide +kernel
    obtain ⟨i, hi, -⟩ := hthere
    exact .inr (.inr ⟨i, hi⟩)
  have hz : Uncontested d₃.settled z := .inl (by decide +kernel)
  have hrun₁ := ReturnedRun.genesis.push_of_returned hx (by decide +kernel)
  have hrun₂ := hrun₁.push_of_returned hy (by decide +kernel)
  have hrun₃ := hrun₂.push_of_returned hagain (by decide +kernel)
  have hrun := hrun₃.push_of_returned hz (by decide +kernel)
  have hnum : d.headBlockNum = 3 := by decide +kernel
  exact ⟨d, hnum, fun n hpos hle => lookupRun_agree hrun hpos (hnum.symm ▸ hle)⟩

/-- A switch that replaces two blocks by three leaves the head of the fork database at the lowest of
the three, and the second is not found. -/
theorem switch_misleads :
    ¬ ∀ pushed (d : @Database smallNode), @ReturnedRun smallNode (fun _ _ => True) pushed d →
      ∀ n, max 1 (@Database.headBlockNum smallNode d - 20) ≤ n →
        n ≤ @Database.headBlockNum smallNode d →
        ∃ i, @ForkDatabase.fetchBlockOnMainBranchByNumber smallNode.toEnv (@Database.forkDb smallNode d) n =
          some i := by
  let _ : Node := smallNode
  let x : SignedBlock := blockOn .null genesisTime []
  let x' : SignedBlock := blockOn x.id (genesisTime + 3) []
  let y : SignedBlock := blockOn .null (genesisTime + 3) []
  let y' : SignedBlock := blockOn y.id (genesisTime + 6) []
  let y'' : SignedBlock := blockOn y'.id (genesisTime + 9) []
  intro h
  have hrun := ReturnedRun.genesis.pushBlocks [x, x', y, y', y''] (by decide +kernel)
  obtain ⟨i, hi⟩ := h _ _ hrun 2 (by decide +kernel) (by decide +kernel)
  have hsome := congrArg Option.isSome hi
  rw [Option.isSome_some] at hsome
  revert hsome
  decide +kernel

/-- Two first blocks compete in the fork database, and the log has neither. -/
theorem competitor_hides :
    ¬ ∀ pushed (d : @Database smallNode), @ReturnedRun smallNode (fun _ _ => True) pushed d →
      ∀ n, 1 ≤ n → n ≤ @Database.headBlockNum smallNode d →
        ∃ c, @Database.fetchBlockByNumber smallNode d n = some c := by
  let _ : Node := smallNode
  let x : SignedBlock := blockOn .null genesisTime []
  let y : SignedBlock := blockOn .null (genesisTime + 3) []
  intro h
  have hrun := ReturnedRun.genesis.pushBlocks [x, y] (by decide +kernel)
  obtain ⟨c, hc⟩ := h _ _ hrun 1 (by decide +kernel) (by decide +kernel)
  have hsome := congrArg Option.isSome hc
  rw [Option.isSome_some] at hsome
  revert hsome
  decide +kernel

end NewsChain
