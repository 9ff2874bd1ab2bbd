import NewsChain.Laws.Lockstep

/-!
# Mutated copies

A block is known by the id of its header, so a copy with other transactions has the same id. What the
merkle root of the header refuses is refused for good where the block is applied at once, or fails in
a switch; but a block beside the chain is taken in unseen, and the block itself is then a duplicate
(`mutated_copy_displaces`). Everywhere else, and as long as no switch meets the copy, a mutated copy
that comes first changes nothing: `mappedRun_undisplaced` compares the run with the copy to the run
without.
-/

namespace NewsChain

open ForkDatabase (Alike Covers)

section Copies

variable [Node]

variable {pushed chain : List SignedBlock} {d : Database} {b c : SignedBlock} {item i : ForkItem}

/-! ## A copy that does not match its merkle root -/

/-- A block that is applied matches its merkle root. -/
theorem merkleRoot_of_returned {o : Objects}
    (h : Returned ((Objects.applyBlock skipNothing b).run o)) :
    merkleRoot b.transactions = b.transactionMerkleRoot := by
  obtain ⟨_, o', happly⟩ := h
  obtain ⟨o₁, henter, -⟩ := applyBlock_eq_ok.mp happly
  unfold Objects.enterBlock at henter
  obtain ⟨_, o₂, -, henter⟩ := bind_eq_ok.mp henter
  obtain ⟨_, o₃, hmerkle, -⟩ := bind_eq_ok.mp henter
  rw [run_onlyIf, if_pos (by decide)] at hmerkle
  exact (fcAssert_eq_ok.mp hmerkle).1

theorem merkleRoot_of_applied {items : List ForkItem} {x y : Database}
    (hrun : (forM items fun i => applyInSession skipNothing i.data : DbM Unit).run x = .ok () y)
    (hi : i ∈ items) : merkleRoot i.data.transactions = i.data.transactionMerkleRoot := by
  induction items generalizing x with
  | nil => cases hi
  | cons t items ih =>
    rw [List.forM_cons] at hrun
    obtain ⟨_, x₁, happly, hrest⟩ := bind_eq_ok.mp hrun
    rcases List.mem_cons.mp hi with rfl | hi
    · obtain ⟨_, o, hobjects, -⟩ := applyInSession_eq_ok happly
      exact merkleRoot_of_returned ⟨_, o, hobjects⟩
    · exact ih hrest hi

/-! ## Pushing the same id again -/

namespace ForkDatabase

variable {apart : BlockId → Prop} {low : Nat} {fdb fdb₁ fdb' : ForkDatabase}

/-- Only the index counts, and the head. -/
theorem Alike.of_index (h : Alike apart low fdb fdb') (hindex : fdb₁.index = fdb.index)
    (hhead : fdb₁.head = fdb.head) : Alike apart low fdb₁ fdb' :=
  ⟨fun j hj => h.forth j (hindex ▸ hj), fun j hj hlow => hindex ▸ h.back j hj hlow,
    hhead ▸ h.head⟩

theorem id_mem_pushed (fdb : ForkDatabase) (item : ForkItem) :
    item.id ∈ (fdb.pushed item).index.map (·.id) := by
  by_cases hknown : item.id ∈ fdb.index.map (·.id)
  · obtain ⟨j, hj, hid⟩ := List.mem_map.mp hknown
    exact List.mem_map.mpr ⟨j, mem_insert.mpr (.inl hj), hid⟩
  · exact List.mem_map.mpr ⟨item, mem_insert.mpr (.inr ⟨rfl, hknown⟩), rfl⟩

/-- An id that is known is not inserted again. -/
theorem pushed_known (hknown : item.id ∈ fdb.index.map (·.id)) :
    (fdb.pushed item).index = fdb.index := by
  have hinsert : fdb.insert item = fdb := by rw [insert, dif_pos hknown]
  exact congrArg (·.index) hinsert

theorem le_raisedHead (fdb : ForkDatabase) (item : ForkItem) :
    item.num ≤ (fdb.raisedHead item).num := by
  rcases fdb.raisedHead_cases item with ⟨hnew, -⟩ | ⟨-, hle⟩
  · rw [hnew]
  · exact hle

/-- A head that is as high stays. -/
theorem raisedHead_of_le {head : ForkItem} (hhead : fdb.head = some head)
    (hle : item.num ≤ head.num) : fdb.raisedHead item = head := by
  simp only [raisedHead, hhead]
  rw [if_neg (by omega)]

end ForkDatabase

/-! ## A block above the chain -/

/-- The parent of a block above the chain. -/
theorem Kept.parent (h : Kept pushed chain d) (hlink : d.forkDb.link b = .ok item)
    (hne : chain ≠ []) (hnum : item.num = chain.length + 1) :
    ∃ p ∈ d.forkDb.index, p.id = b.previous ∧ p.num = chain.length ∧
      item.blocks = b :: p.blocks := by
  have hpos := List.length_pos_iff.mpr hne
  have hitem := ForkDatabase.link_eq_ok hlink
  have hhead : d.forkDb.head ≠ none := fun hnone => hne (h.forest.fresh hnone).2
  have hprev := hitem.num_eq hhead
  rcases ForkDatabase.link_blocks hlink with ⟨hroot, -⟩ | ⟨-, -, p, hp, hblocks⟩
  · rw [hroot.resolve_left hhead, numFromId_null] at hprev
    omega
  · obtain ⟨hmem, hid⟩ := ForkDatabase.fetchBlock_eq_some.mp hp
    refine ⟨p, hmem, hid, ?_, hblocks⟩
    have hpnum : numFromId p.id = p.num := numFromId_id p.data.toSignedBlockHeader
    rw [hid] at hpnum
    omega

/-- A block above the chain is linked in by another database on the chain that has its parent. -/
theorem Entering.of_parent {d' : Database} {pushed' : List SignedBlock} {p : ForkItem}
    (hlevel : Level chain d') (hkept' : Kept pushed' chain d') (h : Level chain d)
    (hkept : Kept pushed chain d) (hlink : d.forkDb.link b = .ok item) (hne : chain ≠ [])
    (hnum : item.num = chain.length + 1) (hmem : p ∈ d'.forkDb.index) (hid : p.id = b.previous)
    (hblocks : item.blocks = b :: p.blocks) :
    ∃ item', Entering (fun _ => False) (chain.length + 1) chain d' d b item' item := by
  have hdata := (ForkDatabase.link_eq_ok hlink).data
  have hblockNum : b.blockNum = chain.length + 1 := by
    rw [← hnum, ForkItem.num, hdata]
  have hfetch : d'.forkDb.fetchBlock b.previous = some p :=
    ForkDatabase.fetchBlock_eq_some.mpr ⟨hmem, hid⟩
  have hrecent : ∀ head, d'.forkDb.head = some head →
      head.num - d'.forkDb.maxSize < b.blockNum := fun head hhead => by
    have hle := (hkept'.forest.head head hhead).1
    omega
  obtain ⟨item', hlink'⟩ := ForkDatabase.link_returns hrecent
    (.inr (by rw [hfetch]; exact Option.some_ne_none p))
  have hnum' : item'.num = chain.length + 1 := by
    rw [ForkItem.num, (ForkDatabase.link_eq_ok hlink').data, hblockNum]
  obtain ⟨p', hmem', hid', -, hblocks'⟩ := hkept'.parent hlink' hne hnum'
  obtain rfl := d'.forkDb.index_unique hmem hmem' (hid.trans hid'.symm)
  have hline : SameLine (fun _ => False) item' item :=
    .of_blocks _ (hblocks'.trans hblocks.symm)
  have hover : Covers (fun _ => False) (chain.length + 1) d'.forkDb d.forkDb := fun g hg hlow =>
    absurd (hlevel.num_le g hg) (by omega)
  have hback : Covers (fun _ => False) (chain.length + 1) d.forkDb d'.forkDb := fun g hg hlow =>
    absurd (h.num_le g hg) (by omega)
  refine ⟨item', hlevel, h, hlink', hlink, hline, hover.pushed hback hnum'.ge hline,
    hback.pushed hover hnum.ge hline.symm, congrArg some ?_⟩
  rw [hkept'.raises (by omega), hkept.raises (by omega)]
  exact hline.data.header

/-- Two switches from one database that fail after as many blocks leave it in step. -/
theorem InStep.of_getsBack {top top' : ForkItem} {first second first' second' : Branch}
    {x x' : Database} {r r' : Retreat} {i' : ForkItem} (htop : top.blocks = chain)
    (htop' : top'.blocks = chain) (h : GetsBack chain d c i top first second x r)
    (h' : GetsBack chain d b i' top' first' second' x' r')
    (htakes : r.front.length = r'.front.length) :
    InStep (fun _ => False) (chain.length + 1) chain { r.back with forkDb := r.back.forkDb.hold [] }
      { r'.back with forkDb := r'.back.forkDb.hold [] } := by
  obtain ⟨p, hkept⟩ := h.kept
  obtain ⟨p', hkept'⟩ := h'.kept
  have hlevel := (hkept.level h.sized).hold []
  have hlevel' := (hkept'.level h'.sized).hold []
  have hgpo : r.back.gpo = r'.back.gpo := congrArg (·.content.gpo) (hlevel.store_eq hlevel')
  obtain ⟨z, hz, hhead⟩ := h.head
  obtain ⟨z', hz', hhead'⟩ := h'.head
  have hline : SameLine (fun _ => False) z z' :=
    SameLine.ancestor (.of_blocks _ (htop.trans htop'.symm)) hz (htakes ▸ hz')
  refine ⟨hlevel, hlevel', ⟨fun g hg hlow => ?_, fun g hg hlow => ?_, ?_⟩, ?_, .inr ?_⟩
  · exact absurd (hlevel.num_le g hg) (by omega)
  · exact absurd (hlevel'.num_le g hg) (by omega)
  · rw [ForkDatabase.hold_head, ForkDatabase.hold_head, hhead, hhead']
    exact congrArg some hline.data.header
  · exact h.sized.trans (hgpo ▸ h'.sized.symm)
  · rw [ForkDatabase.hold_head, hhead]
    exact Option.some_ne_none z

/-- A failed switch that removes its last item alone leaves the parent of it. -/
theorem GetsBack.parent_stays {top p : ForkItem} {first second : Branch} {x : Database}
    {r : Retreat} (h : GetsBack chain d c i top first second x r)
    (hp : Parted chain d i top second.items.length first second) (hkept : Kept pushed chain d)
    (hrest : r.rest = []) (hmem : p ∈ d.forkDb.index) (hnum : p.num = chain.length) :
    p ∈ r.back.forkDb.index := by
  have hremoved : r.removed = [i] := by
    have hlast := hp.item_mem h.split
    rw [hrest] at hlast
    rw [Retreat.removed, hrest, List.mem_singleton.mp hlast]
  have hhigher : chain.length < i.num := by
    rw [hp.num]
    omega
  refine h.keeps p ((hkept.forest.mem_pushed hhigher).mpr (.inl hmem)) (fun hgone => ?_) (by omega)
  rw [hremoved] at hgone
  have hsame : p.num = i.num := blockNum_eq_of_id_eq (List.mem_singleton.mp hgone)
  omega

/-- A failed switch that removes more has removed the parent, and its last block is not linked in
again. -/
theorem GetsBack.unlinks {top : ForkItem} {first second : Branch} {x : Database} {r : Retreat}
    (h : GetsBack chain d c i top first second x r)
    (hp : Parted chain d i top second.items.length first second) (hrest : r.rest ≠ [])
    (hprev : b.previous = i.data.previous) (hnum : b.blockNum = chain.length + 1) :
    ∃ e, (r.back.forkDb.hold []).link b = .error e := by
  have hne : chain ≠ [] := hp.topBlocks ▸ List.cons_ne_nil _ _
  obtain ⟨q, hq⟩ := h.kept
  obtain ⟨g, hg, hgid⟩ := hp.parent_mem h.split hrest
  cases hlink : (r.back.forkDb.hold []).link b with
  | error e => exact ⟨e, rfl⟩
  | ok item₁ =>
    have hnum₁ : item₁.num = chain.length + 1 := by
      rw [ForkItem.num, (ForkDatabase.link_eq_ok hlink).data, hnum]
    obtain ⟨p₁, hp₁, hp₁id, -⟩ := (hq.hold []).parent hlink hne hnum₁
    have hsame : g.id = p₁.id := by
      rw [hgid, hp₁id, hprev]
    exact absurd (List.mem_map.mpr ⟨g, hg, hsame⟩) (h.gone p₁ hp₁)

/-- The last block of a branch plays no part where one below it fails. -/
theorem Parted.takes_eq {top top' p : ForkItem} {first second first' second' : Branch}
    (hp : Parted chain d i top second.items.length first second)
    (hp' : Parted chain d item top' second'.items.length first' second')
    (hn : second.items.length = second'.items.length) (hblocks : i.blocks = c :: p.blocks)
    (hblocks' : item.blocks = b :: p.blocks)
    (hlt : d.switchTakes first second + 1 < first.items.length) :
    d.switchTakes first' second' = d.switchTakes first second := by
  have hfirst := ForkDatabase.data_of_line hp.forked.firstLine
  have hfirst' := ForkDatabase.data_of_line hp'.forked.firstLine
  rw [hp.firstItems, hblocks, List.take_succ_cons, List.reverse_cons] at hfirst
  rw [hp'.firstItems, ← hn, hblocks', List.take_succ_cons, List.reverse_cons] at hfirst'
  have hlength := congrArg List.length hfirst
  rw [List.length_map, List.length_append, List.length_singleton] at hlength
  rw [Database.switchTakes, hfirst] at hlt
  rw [Database.switchTakes, Database.switchTakes, hfirst, hfirst', ← hn]
  exact appliesUpTo_append (by omega) [b]

/-! ## The copy and then the block -/

/-- The fork database takes the block in as a new one, no higher than the head. -/
def takenBeside (d : Database) (b : SignedBlock) : Bool :=
  match d.forkDb.link b with
  | .error _ => false
  | .ok item => decide (item.num ≤ d.headBlockNum ∧ item.id ∉ d.forkDb.index.map (·.id))

theorem copies_of_header (hheader : c.toSignedBlockHeader = b.toSignedBlockHeader) :
    Copies (· = b.id) c b :=
  ⟨hheader, fun hid => absurd (congrArg SignedBlockHeader.id hheader) hid⟩

theorem link_copy (hheader : c.toSignedBlockHeader = b.toSignedBlockHeader)
    (hlink : d.forkDb.link c = .ok i) :
    ∃ item, d.forkDb.link b = .ok item ∧ SameLine (· = b.id) i item :=
  (Alike.refl (· = b.id) 0 d.forkDb).link rfl (copies_of_header hheader) (Nat.zero_le _) hlink

/-- **A copy on the head** is refused, and removed. -/
theorem Level.mutated_direct (h : Level chain d)
    (hheader : c.toSignedBlockHeader = b.toSignedBlockHeader)
    (hroot : merkleRoot c.transactions ≠ c.transactionMerkleRoot)
    (hlink : d.forkDb.link c = .ok i) (hprev : c.previous = headIdOf chain) :
    ∃ chain', InStep (fun _ => False) 0 chain' ((d.afterBlock c).afterBlock b)
      (d.afterBlock b) := by
  obtain ⟨item, hlinkb, hline⟩ := link_copy hheader hlink
  have hprevb : b.previous = headIdOf chain := (congrArg (·.previous) hheader.symm).trans hprev
  rcases h.direct hlink hprev with ⟨d₁, -, -, -, hobjects⟩ | ⟨e, d₁, hrun, hlevel, hfork, -⟩
  · exact absurd (merkleRoot_of_returned hobjects) hroot
  have hafter : d.afterBlock c = d₁ := afterBlock_of_error hrun
  obtain ⟨item₁, hlink₁⟩ := hlevel.links hprevb (h.blockNum hlinkb hprevb)
  have ht := h.tops hlinkb hprevb
  have ht₁ := hlevel.tops hlink₁ hprevb
  have hdata := (ForkDatabase.link_eq_ok hlinkb).data
  have hdata₁ := (ForkDatabase.link_eq_ok hlink₁).data
  have hid : c.id = i.id :=
    congrArg (fun x : SignedBlock => x.id) (ForkDatabase.link_eq_ok hlink).data.symm
  -- The index is what it was.
  have hindex : ∀ j, j ∈ d₁.forkDb.index ↔ j ∈ d.forkDb.index := by
    intro j
    have hremove : j ∈ d₁.forkDb.index ↔ j ∈ (d.forkDb.pushed i).index ∧ j.id ≠ c.id := by
      simp [hfork, ForkDatabase.remove, ForkDatabase.keep, ForkDatabase.hold]
    have hpush : j ∈ (d.forkDb.pushed i).index ↔
        j ∈ d.forkDb.index ∨ j = i ∧ i.id ∉ d.forkDb.index.map (·.id) := ForkDatabase.mem_insert
    rw [hremove, hpush]
    constructor
    · rintro ⟨hold | ⟨rfl, -⟩, hne⟩
      · exact hold
      · exact absurd hid.symm hne
    · intro hold
      refine ⟨.inl hold, fun hsame => ?_⟩
      have hlow := h.num_le j hold
      have hnum : j.num = i.num := blockNum_eq_of_id_eq (hsame.trans hid)
      rw [hline.num_eq, ht.num] at hnum
      omega
  have hover : Covers (fun _ => False) 0 d₁.forkDb d.forkDb := fun j hj _ =>
    ⟨j, (hindex j).mp hj, .of_blocks _ rfl⟩
  have hback : Covers (fun _ => False) 0 d.forkDb d₁.forkDb := fun j hj _ =>
    ⟨j, (hindex j).mpr hj, .of_blocks _ rfl⟩
  have hline₁ : SameLine (fun _ => False) item₁ item :=
    .of_blocks _ (by rw [ht₁.blocks, ht.blocks, hdata, hdata₁])
  have hhead : d₁.forkDb.head = some (d.forkDb.raisedHead i) := by
    rw [hfork]
    rfl
  have hle : item₁.num ≤ (d.forkDb.raisedHead i).num := by
    have hnum : item₁.num = i.num := hline₁.num_eq.trans hline.num_eq.symm
    rw [hnum]
    exact d.forkDb.le_raisedHead i
  have hraised : d₁.forkDb.raisedHead item₁ = d.forkDb.raisedHead i :=
    ForkDatabase.raisedHead_of_le hhead hle
  have halike : Alike (fun _ => False) 0 (d₁.forkDb.pushed item₁) (d.forkDb.pushed item) := by
    refine ⟨hover.pushed hback (Nat.zero_le _) hline₁,
      hback.pushed hover (Nat.zero_le _) hline₁.symm, congrArg some ?_⟩
    rw [hraised]
    exact (Alike.refl (· = b.id) 0 d.forkDb).raisedHead hline
  have henter : Entering (fun _ => False) 0 chain d₁ d b item₁ item :=
    ⟨hlevel, h, hlink₁, hlinkb, hline₁, halike⟩
  rw [hafter]
  refine henter.direct hprevb ?_
  rw [hfork]
  exact ForkDatabase.pushed_maxSize _ _

/-- **A copy beside the chain** is kept, and then the block itself is a duplicate of it. -/
theorem Level.mutated_beside (h : Level chain d) (hkept : Kept pushed chain d)
    (hheader : c.toSignedBlockHeader = b.toSignedBlockHeader)
    (hb : Restful (d.afterBlock c) b) (hlink : d.forkDb.link c = .ok i)
    (hprev : c.previous ≠ headIdOf chain) (hle : i.num ≤ chain.length) :
    InStep (fun id => takenBeside d c = true ∧ id = b.id) 0 chain ((d.afterBlock c).afterBlock b)
      (d.afterBlock b) := by
  obtain ⟨item, hlinkb, hline⟩ := link_copy hheader hlink
  have hprevb : b.previous ≠ headIdOf chain := (congrArg (·.previous) hheader) ▸ hprev
  have hleb : item.num ≤ chain.length := hline.num_eq ▸ hle
  have hlevel := h.ignored hkept hlink hle
  have hlevelb := h.ignored hkept hlinkb hleb
  have halike : Alike (fun id => takenBeside d c = true ∧ id = b.id) 0 (d.forkDb.pushed i)
      (d.forkDb.pushed item) := by
    by_cases hknown : i.id ∈ d.forkDb.index.map (·.id)
    · have hindex := (ForkDatabase.pushed_known hknown).trans
        (ForkDatabase.pushed_known (hline.id_eq ▸ hknown)).symm
      have hhead := (Alike.refl (· = b.id) 0 d.forkDb).raisedHead hline
      have hsame := Alike.refl (fun id => takenBeside d c = true ∧ id = b.id) 0
        (d.forkDb.pushed item)
      refine ⟨fun j hj hlow => hsame.forth j (hindex ▸ hj) hlow,
        fun j hj hlow => hindex ▸ hsame.back j hj hlow, congrArg some hhead⟩
    · have hbeside : takenBeside d c = true := by
        simp only [takenBeside, hlink, hkept.headBlockNum]
        exact decide_eq_true ⟨hle, hknown⟩
      have hline' : SameLine (fun id => takenBeside d c = true ∧ id = b.id) i item :=
        hline.imp fun _ _ hcopy => ⟨hcopy.header, fun hid => hcopy.same fun heq => hid ⟨hbeside, heq⟩⟩
      exact (Alike.refl _ 0 d.forkDb).pushed (Nat.zero_le _) hline'
  rw [afterBlock_of_ok (hkept.ignores hlinkb hleb)]
  rw [afterBlock_of_ok (hkept.ignores hlink hle)] at hb ⊢
  cases hlink₁ : ((d.forkDb.pushed i).hold []).link b with
  | error e =>
    rw [afterBlock_unlinked (d := { d with forkDb := (d.forkDb.pushed i).hold [] }) hlink₁]
    refine ⟨hlevel.hold [], hlevelb, halike.hold [] [], ?_, .inl rfl⟩
    simp
  | ok item₁ =>
    -- The id is known by now, and the head as high.
    obtain ⟨p, hkept₁⟩ := hlevel.kept hb hlink₁ hprevb
    have hid : item₁.id = i.id := by
      rw [ForkItem.id, (ForkDatabase.link_eq_ok hlink₁).data, ForkItem.id,
        (ForkDatabase.link_eq_ok hlink).data]
      exact congrArg SignedBlockHeader.id hheader.symm
    have hnum : item₁.num = i.num := blockNum_eq_of_id_eq hid
    have hknown : item₁.id ∈ ((d.forkDb.pushed i).hold []).index.map (·.id) :=
      hid ▸ d.forkDb.id_mem_pushed i
    have hhead : ((d.forkDb.pushed i).hold []).raisedHead item₁ = d.forkDb.raisedHead i :=
      ForkDatabase.raisedHead_of_le rfl (hnum ▸ d.forkDb.le_raisedHead i)
    have hlevel₁ := hlevel.ignored hkept₁ hlink₁ (hnum ▸ hle)
    rw [afterBlock_of_ok (hkept₁.ignores hlink₁ (hnum ▸ hle))]
    refine ⟨hlevel₁, hlevelb, ?_, ?_, .inl rfl⟩
    · have halike₁ : Alike (fun id => takenBeside d c = true ∧ id = b.id) 0
          (((d.forkDb.pushed i).hold []).pushed item₁) (d.forkDb.pushed item) :=
        halike.of_index (ForkDatabase.pushed_known hknown) (congrArg some hhead)
      exact halike₁.hold [] []
    · simp

/-- **A copy above the chain** fails in the switch, if it comes to it, and is removed. -/
theorem Level.mutated_above (h : Level chain d) (hkept : Kept pushed chain d)
    (hheader : c.toSignedBlockHeader = b.toSignedBlockHeader)
    (hroot : merkleRoot c.transactions ≠ c.transactionMerkleRoot) (hc : Restful d c)
    (hb₁ : Restful (d.afterBlock c) b) (hb : Restful d b) (hlink : d.forkDb.link c = .ok i)
    (hprev : c.previous ≠ headIdOf chain) (hhigher : chain.length < i.num) :
    ∃ chain', InStep (fun _ => False) (chain.length + 1) chain' ((d.afterBlock c).afterBlock b)
      (d.afterBlock b) := by
  obtain ⟨item, hlinkb, hline⟩ := link_copy hheader hlink
  have hprevb : b.previous ≠ headIdOf chain := (congrArg (·.previous) hheader) ▸ hprev
  have hhigherb : chain.length < item.num := hline.num_eq ▸ hhigher
  obtain ⟨first, second, hs, hr, -⟩ := hc.switches hkept hlink hprev hhigher
  obtain ⟨first', second', hs', hr', -⟩ := hb.switches hkept hlinkb hprevb hhigherb
  obtain ⟨top, x, hp, hx, hends⟩ := hs.ends hkept hr
  obtain ⟨top', x', hp', hx', hends'⟩ := hs'.ends hkept hr'
  have hn : second.items.length = second'.items.length := hp.depth_eq hp' hline
  have hne : chain ≠ [] := hp.topBlocks ▸ List.cons_ne_nil _ _
  -- Both are linked in under the same parent.
  obtain ⟨p, hpmem, hpid, hpnum, hpblocks⟩ := hkept.parent hlinkb hne hp'.num
  obtain ⟨p', hpmem', hpid', -, hpblocks'⟩ := hkept.parent hlink hne hp.num
  have hprevs : c.previous = b.previous := congrArg (·.previous) hheader
  obtain rfl := d.forkDb.index_unique hpmem hpmem' (by rw [hpid, hpid', hprevs])
  rcases hends with ⟨y, hover⟩ | ⟨r, hback⟩
  · -- A switch that goes over applies the copy.
    have hmem : i ∈ first.items := by
      have hfront := ForkDatabase.front_of_line hp.forked.firstLine
      rw [← hfront]
      exact List.getLast_mem _
    have happlied := merkleRoot_of_applied hover.applied hmem
    rw [(ForkDatabase.link_eq_ok hlink).data] at happlied
    exact absurd happlied hroot
  rw [hback.after] at hb₁ ⊢
  by_cases hrest : r.rest = []
  · -- The copy itself fails, and its parent stays.
    obtain ⟨q, hq⟩ := hback.kept
    have hstays := hback.parent_stays hp hkept hrest hpmem hpnum
    obtain ⟨item₁, henter⟩ := Entering.of_parent ((hq.level hback.sized).hold []) (hq.hold []) h
      hkept hlinkb hne hp'.num hstays hpid hpblocks
    have hhigher₁ : chain.length < item₁.num := henter.line.num_eq ▸ hhigherb
    exact henter.switched (hq.hold []) hkept hb₁ hb hprevb hhigher₁ fun _ _ _ _ => id
  · -- A block below fails, and the parent goes with it: the block fails there too.
    have hprevi : b.previous = i.data.previous := by
      rw [(ForkDatabase.link_eq_ok hlink).data, hprevs]
    have hnum : b.blockNum = chain.length + 1 := by
      rw [← hp'.num, ForkItem.num, (ForkDatabase.link_eq_ok hlinkb).data]
    obtain ⟨e, hunlinked⟩ := hback.unlinks hp hrest hprevi hnum
    rw [afterBlock_unlinked (d := { r.back with forkDb := r.back.forkDb.hold [] }) hunlinked]
    have hlt : d.switchTakes first second + 1 < first.items.length := by
      have hpos := List.length_pos_iff.mpr hrest
      rw [hback.takes, hback.split, List.length_append, Retreat.removed, List.length_cons]
      omega
    have htakes := hp.takes_eq hp' hn hpblocks' hpblocks hlt
    rcases hends' with ⟨y', hover'⟩ | ⟨r', hback'⟩
    · have hall := hover'.takes
      rw [htakes, hp'.firstItems, ← hn, ← hp.firstItems] at hall
      omega
    · rw [hback'.after]
      have hfront : r.front.length = r'.front.length := by
        rw [← hback.takes, ← hback'.takes, htakes]
      exact ⟨chain, InStep.of_getsBack hp.topBlocks hp'.topBlocks hback hback' hfront⟩

/-- **The copy and then the block** leave the database in step with the block alone. -/
theorem Level.mutated (h : Level chain d)
    (hheader : c.toSignedBlockHeader = b.toSignedBlockHeader)
    (hroot : merkleRoot c.transactions ≠ c.transactionMerkleRoot) (hc : Restful d c)
    (hb₁ : Restful (d.afterBlock c) b) (hb : Restful d b) :
    ∃ apart low chain', (∀ id, apart id → takenBeside d c = true ∧ id = b.id) ∧
      low ≤ b.blockNum ∧
      InStep apart low chain' ((d.afterBlock c).afterBlock b) (d.afterBlock b) := by
  cases hlink : d.forkDb.link c with
  | error e =>
    rw [afterBlock_unlinked hlink] at hb₁ ⊢
    have hsame := Alike.refl (fun _ => False) 0 d.forkDb
    have hstep : InStep (fun _ => False) 0 chain { d with forkDb := d.forkDb.hold [] } d :=
      ⟨h.hold [], h, ⟨hsame.forth, hsame.back, hsame.head⟩, rfl, .inl rfl⟩
    obtain ⟨chain', hstep'⟩ := hstep.step hb₁ hb (Nat.zero_le _) fun _ _ _ _ => id
    exact ⟨_, 0, chain', fun _ => False.elim, Nat.zero_le _, hstep'⟩
  | ok i =>
    by_cases hprev : c.previous = headIdOf chain
    · obtain ⟨chain', hstep⟩ := h.mutated_direct hheader hroot hlink hprev
      exact ⟨_, 0, chain', fun _ => False.elim, Nat.zero_le _, hstep⟩
    · obtain ⟨pushed, hkept⟩ := h.kept hc hlink hprev
      by_cases hhigher : chain.length < i.num
      · obtain ⟨chain', hstep⟩ :=
          h.mutated_above hkept hheader hroot hc hb₁ hb hlink hprev hhigher
        refine ⟨_, _, chain', fun _ => False.elim, ?_, hstep⟩
        have hnum : i.num = b.blockNum := by
          rw [ForkItem.num, (ForkDatabase.link_eq_ok hlink).data]
          exact congrArg (·.blockNum) hheader
        omega
      · exact ⟨_, 0, chain, fun _ => id, Nat.zero_le _,
          h.mutated_beside hkept hheader hb₁ hlink hprev (Nat.le_of_not_lt hhigher)⟩

/-! ## Runs -/

/-- The blocks above a block: each builds on the one below it, and has the next number. -/
inductive Descends (b : SignedBlock) : SignedBlock → Prop
  | child {x : SignedBlock} : x.previous = b.id → x.blockNum = b.blockNum + 1 → Descends b x
  | next {x y : SignedBlock} : Descends b y → x.previous = y.id → x.blockNum = y.blockNum + 1 →
      Descends b x

theorem Descends.lt {x : SignedBlock} (h : Descends b x) : b.blockNum < x.blockNum := by
  induction h with
  | child _ hnum => omega
  | next _ _ hnum ih => omega

theorem Descends.le_previous {x : SignedBlock} (h : Descends b x) :
    b.blockNum ≤ numFromId x.previous := by
  cases h with
  | child hprev _ =>
    rw [hprev]
    exact (numFromId_id b.toSignedBlockHeader).ge
  | @next x y h hprev _ =>
    have hnum : numFromId y.id = y.blockNum := numFromId_id y.toSignedBlockHeader
    rw [hprev, hnum]
    exact h.lt.le

section Mapped

variable {Stored : Type} {fresh : Stored} {s s' : MappedDatabase Stored}
  {apart : BlockId → Prop} {low : Nat}

/-- `P` holds of each of some pushes and the settled database before it. -/
def EachPush (fresh : Stored) (P : Database → SignedBlock → Prop) :
    List (UInt64 × SignedBlock) → MappedDatabase Stored → Prop
  | [], _ => True
  | (freeMem, b) :: rest, s => P s.database.settled b ∧
      EachPush fresh P rest (finalState ((pushBlockMapped fresh freeMem skipNothing b).run s))

theorem EachPush.imp {P Q : Database → SignedBlock → Prop} (hPQ : ∀ d b, P d b → Q d b)
    {blocks : List (UInt64 × SignedBlock)} (h : EachPush fresh P blocks s) :
    EachPush fresh Q blocks s := by
  induction blocks generalizing s with
  | nil => trivial
  | cons x blocks ih => exact ⟨hPQ _ _ h.1, ih h.2⟩

theorem settled_pushBlockMapped (fresh : Stored) (freeMem : UInt64) (b : SignedBlock)
    (s : MappedDatabase Stored) :
    Pending (finalState ((pushBlockMapped fresh freeMem skipNothing b).run s)).database ∧
      (finalState ((pushBlockMapped fresh freeMem skipNothing b).run s)).database.settled =
        s.database.settled.afterBlock b := by
  rw [database_pushBlockMapped]
  exact over_pushBlock b (d := s.database) rfl

/-- No switch of the call meets the id. -/
def Avoids (id : BlockId) (d : Database) (b : SignedBlock) : Prop :=
  ∀ t ∈ switchOf d b, ∀ i ∈ t.2.1.items, i.id ≠ id

instance (id : BlockId) (d : Database) (b : SignedBlock) : Decidable (Avoids id d b) :=
  inferInstanceAs (Decidable (∀ t ∈ switchOf d b, ∀ i ∈ t.2.1.items, i.id ≠ id))

/-- **A run in step.** The same blocks keep two objects in step. -/
theorem InStep.afterPushes {blocks blocks' : List (UInt64 × SignedBlock)}
    (h : InStep apart low chain s.database.settled s'.database.settled)
    (hpending : Pending s.database) (hpending' : Pending s'.database)
    (hsame : blocks.map (·.2) = blocks'.map (·.2))
    (hlow : ∀ x ∈ blocks, low ≤ numFromId x.2.previous) (hr : EachPush fresh Restful blocks s)
    (hr' : EachPush fresh Restful blocks' s')
    (havoids : EachPush fresh (fun d b => ∀ t ∈ switchOf d b, ∀ i ∈ t.2.1.items, ¬ apart i.id)
      blocks s) :
    SameState (afterPushes fresh blocks' s').database (afterPushes fresh blocks s).database := by
  induction blocks generalizing blocks' chain s s' with
  | nil =>
    obtain rfl : blocks' = [] := List.map_eq_nil_iff.mp hsame.symm
    exact sameState_of_store hpending' hpending (h.level.store_eq h.level')
  | cons x blocks ih =>
    cases blocks' with
    | nil => cases hsame
    | cons x' blocks' =>
      obtain ⟨m, b⟩ := x
      obtain ⟨m', b'⟩ := x'
      obtain ⟨rfl, htails⟩ : b = b' ∧ blocks.map (·.2) = blocks'.map (·.2) := List.cons.inj hsame
      obtain ⟨hlow, hlows⟩ := List.forall_mem_cons.mp hlow
      obtain ⟨chain', hstep⟩ := h.step hr.1 hr'.1 hlow havoids.1
      obtain ⟨hpending₁, hsettled⟩ := settled_pushBlockMapped fresh m b s
      obtain ⟨hpending₁', hsettled'⟩ := settled_pushBlockMapped fresh m' b s'
      rw [← hsettled, ← hsettled'] at hstep
      have hrest := ih hstep hpending₁ hpending₁' htails hlows hr.2 hr'.2 havoids.2
      exact hrest

end Mapped

end Copies

end NewsChain
