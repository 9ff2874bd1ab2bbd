import NewsChain.Laws.ReturnedRun

/-!
# Which branches can still be undone to

`update_last_irreversible_block` commits the undo states up to the last irreversible block, and sizes
the fork database by the distance to it. The size is one too large: a block with the number of the
last irreversible one still builds on the block before it, whose state is gone. So from block 22 on
there is always a block that `fork_database::push_block` accepts and that no switch can reach
(`returnedRun_undoWindow_iff`).
-/

namespace NewsChain

open EStateM (Result)
open ForkDatabase (Linked cacheDepth)

section Chains

variable [Node]

/-! ## The size of the fork database -/

/-- The last part of a block leaves the global properties alone. -/
theorem leaveBlock_keeps_gpo (gpo : DynamicGlobalProperty) (b : SignedBlock) :
    Keeps (fun o => o.gpo = gpo) (Objects.leaveBlock b) :=
  Keeps.bind (Keeps.modify fun _ ho => ho) fun _ =>
    (Keeps.get.bind fun _ => clearExpired_keeps (fun _ _ ho => ho) _).bind fun _ =>
      processHardforks_keeps (fun _ _ ho => ho) _

/-- An application that returned has sized the fork database, and that is all it did to it. -/
theorem forkDb_applyInSession {skip : SkipFlags} {b : SignedBlock} {d d' : Database}
    (h : (applyInSession skip b).run d = .ok () d') :
    d'.forkDb = d.forkDb.setMaxSize (forkWindow d'.gpo) := by
  simp only [applyInSession, run_withSession, applyBlock, applyBlockImpl, EStateM.run_bind,
    EStateM.run_modify, run_objects, run_updateLastIrreversibleBlock] at h
  cases henter : (Objects.enterBlock skip b).run d.store.start.content with
  | error e o => simp [henter, withObjects] at h
  | ok _ o =>
    simp only [henter, withObjects, Snapshots.put_content, Snapshots.put_put] at h
    cases hlog : (logUpTo skip d.forkDb o.raised.gpo.lastIrreversibleBlockNum).run d.blockLog with
    | error e log => simp [hlog] at h
    | ok _ log =>
      simp only [hlog, Snapshots.commit_content, Snapshots.put_content] at h
      cases hleave : (Objects.leaveBlock b).run o.raised with
      | error e o' => simp [hleave] at h
      | ok _ o' =>
        have hgpo := (leaveBlock_keeps_gpo o.raised.gpo b).of_ok rfl hleave
        simp only [hleave, Result.ok.injEq, true_and] at h
        rw [← h]
        simp only [Database.gpo, Snapshots.put_content, hgpo]

theorem maxSize_applyInSession {skip : SkipFlags} {b : SignedBlock} {d d' : Database}
    (h : (applyInSession skip b).run d = .ok () d') : d'.forkDb.maxSize = forkWindow d'.gpo := by
  rw [forkDb_applyInSession h, ForkDatabase.setMaxSize_maxSize]

theorem head_applyItems {skip : SkipFlags} {items : List ForkItem} {d d' : Database}
    (h : (forM items fun i => applyInSession skip i.data : DbM Unit).run d = .ok () d') :
    d'.forkDb.head = d.forkDb.head := by
  induction items generalizing d with
  | nil =>
    rw [List.forM_nil, EStateM.run_pure] at h
    cases h
    rfl
  | cons i items ih =>
    rw [List.forM_cons] at h
    obtain ⟨_, d₁, hfirst, hrest⟩ := bind_eq_ok.mp h
    rw [ih hrest, forkDb_applyInSession hfirst, ForkDatabase.setMaxSize_head]

theorem maxSize_applyItems {skip : SkipFlags} {items : List ForkItem} {d d' : Database}
    (hne : items ≠ [])
    (h : (forM items fun i => applyInSession skip i.data : DbM Unit).run d = .ok () d') :
    d'.forkDb.maxSize = forkWindow d'.gpo := by
  induction items generalizing d with
  | nil => exact absurd rfl hne
  | cons i items ih =>
    rw [List.forM_cons] at h
    obtain ⟨_, d₁, hfirst, hrest⟩ := bind_eq_ok.mp h
    by_cases hlast : items = []
    · subst hlast
      rw [List.forM_nil, EStateM.run_pure] at hrest
      cases hrest
      exact maxSize_applyInSession hfirst
    · exact ih hlast hrest

theorem maxSize_switchForks {skip : SkipFlags} {newHead : ForkItem} {d d' : Database} {answer : Bool}
    (h : (switchForks skip newHead).run d = .ok answer d') :
    d'.forkDb.maxSize = forkWindow d'.gpo := by
  rw [run_switchForks] at h
  cases hfetch : d.forkDb.fetchBranchFrom newHead.id d.headBlockId with
  | error e => simp [hfetch] at h
  | ok branches =>
    obtain ⟨first, second⟩ := branches
    simp only [hfetch] at h
    split at h
    · cases h
    · obtain ⟨-, hitems⟩ := applyBranch_eq_ok h
      exact maxSize_applyItems (List.cons_ne_nil _ _) hitems

theorem maxSize_applyPushed {skip : SkipFlags} {b : SignedBlock} {d d' : Database} {answer : Bool}
    (h : (applyPushed skip b).run d = .ok answer d') : d'.forkDb.maxSize = forkWindow d'.gpo := by
  rw [run_applyPushed] at h
  cases happly : (applyInSession skip b).run d with
  | error e d₁ => simp [happly] at h
  | ok _ d₁ =>
    rw [happly] at h
    cases h
    exact maxSize_applyInSession happly

/-- A push that returned has sized the fork database by its last application, if it made one. -/
theorem maxSize_pushBlockImpl {b : SignedBlock} {d d' : Database} {answer : Bool}
    (h : (pushBlockImpl skipNothing b).run d = .ok answer d') :
    d'.forkDb.maxSize = d.forkDb.maxSize ∧ d'.gpo = d.gpo ∨
      d'.forkDb.maxSize = forkWindow d'.gpo := by
  rw [run_pushBlockImpl] at h
  cases hpush : d.forkDb.pushBlock b with
  | error e => simp [hpush] at h
  | ok r =>
    obtain ⟨newBlock, fdb⟩ := r
    obtain ⟨item, -, rfl, rfl⟩ := ForkDatabase.pushBlock_eq_ok.mp hpush
    simp only [hpush] at h
    by_cases hbuilds : (d.forkDb.raisedHead item).data.previous ≠ d.headBlockId
    · rw [if_pos hbuilds] at h
      by_cases hhigher : d.headBlockNum < (d.forkDb.raisedHead item).num
      · rw [if_pos hhigher] at h
        exact .inr (maxSize_switchForks h)
      · rw [if_neg hhigher] at h
        cases h
        exact .inl ⟨ForkDatabase.insert_maxSize _ _, rfl⟩
    · rw [if_neg hbuilds] at h
      exact .inr (maxSize_applyPushed h)

variable {pushed chain : List SignedBlock} {d : Database} {b : SignedBlock}

/-- Once a block is irreversible, the fork database takes in blocks down to it. -/
def Roomy (d : Database) : Prop :=
  irreversibleBlockNum < d.headBlockNum → irreversibleBlockNum + 1 ≤ d.forkDb.maxSize

theorem Kept.forkWindow (h : Kept pushed chain d) :
    forkWindow d.gpo = min chain.length irreversibleBlockNum + 1 := by
  have honChain := h.main.onChain
  refine forkWindow_entered honChain.length_lt honChain.headBlockNum ?_
  rw [← honChain.headBlockNum]
  exact honChain.store.head.lastIrreversible

theorem ReturnedRun.roomy {P : Database → SignedBlock → Prop} (h : ReturnedRun P pushed d) :
    Roomy d.settled := by
  induction h with
  | genesis =>
    intro hlt
    rw [Database.settled_of_idle rfl rfl, kept_genesis.headBlockNum] at hlt
    exact absurd hlt (Nat.not_lt_zero _)
  | @push pushed d d' answer b hd _ hrun ih =>
    obtain ⟨-, chain, hkept⟩ := hd.kept
    obtain ⟨chain', -, hkept'⟩ := hkept.push hrun
    have hsettled := (settled_pushBlock hrun).1
    rw [run_releaseItems] at hsettled
    cases himpl : (pushBlockImpl skipNothing b).run d.settled with
    | error e c => simp [himpl] at hsettled
    | ok a c =>
      rw [himpl] at hsettled
      simp only [Result.ok.injEq] at hsettled
      obtain ⟨-, hc⟩ := hsettled
      have hsize : d'.settled.forkDb.maxSize = c.forkDb.maxSize := by rw [← hc]; rfl
      have hgpo : d'.settled.gpo = c.gpo := by rw [← hc]; rfl
      intro hlt
      rcases maxSize_pushBlockImpl himpl with ⟨hsame, hgpo'⟩ | hwindow
      · rw [hsize, hsame]
        refine ih ?_
        rwa [Database.headBlockNum, ← hgpo', ← hgpo]
      · rw [hsize, hwindow, ← hgpo, hkept'.forkWindow]
        rw [hkept'.headBlockNum] at hlt
        omega

/-! ## The block a branch leaves the main chain at -/

/-- The number of the highest block of the main chain on the line of an item. The line of a branch
that shares no block with it starts from genesis. -/
def departure (chain : List SignedBlock) (item : ForkItem) : Nat :=
  ((item.blocks.find? (· ∈ chain)).map (·.blockNum)).getD 0

/-- For every block the fork database accepts, the branch it is on leaves the main chain at a block
that is not below the last irreversible one, and there are undo states down to it. -/
structure UndoWindow (chain : List SignedBlock) (d : Database) : Prop where
  irreversible : ∀ b item, d.forkDb.link b = .ok item →
    d.gpo.lastIrreversibleBlockNum ≤ departure chain item
  undoable : ∀ b item, d.forkDb.link b = .ok item →
    d.headBlockNum ≤ departure chain item + d.settled.store.frames.length

/-- A block is linked in where it is recent and its parent is there. -/
theorem ForkDatabase.link_returns {fdb : ForkDatabase}
    (hrecent : ∀ head, fdb.head = some head → head.num - fdb.maxSize < b.blockNum)
    (hparent : b.previous = .null ∨ fdb.fetchBlock b.previous ≠ none) :
    ∃ item, fdb.link b = .ok item := by
  unfold ForkDatabase.link
  split
  · exact ⟨_, rfl⟩
  · rename_i head hhead
    rw [dif_pos (hrecent head hhead)]
    split
    · exact ⟨_, rfl⟩
    · rename_i hnull
      split
      · rename_i hnone
        exact absurd hnone (hparent.resolve_left hnull)
      · exact ⟨_, rfl⟩

/-- The last irreversible block, with another signature. -/
def siblingOf (c : SignedBlock) : SignedBlock :=
  { c with producerSignature := if c.producerSignature = 0 then 1 else 0 }

omit [Node] in
theorem siblingOf_ne (c : SignedBlock) : siblingOf c ≠ c := by
  intro h
  have hsignature := congrArg (·.producerSignature) h
  simp only [siblingOf] at hsignature
  split at hsignature
  · rename_i hzero
    rw [hzero] at hsignature
    simp at hsignature
  · rename_i hne
    exact hne hsignature.symm

/-- **The block too many.** Above the last irreversible block there are 21 blocks, and a block beside
it is accepted. -/
theorem Kept.link_sibling (h : Kept pushed chain d) (hroomy : Roomy d)
    (hlong : irreversibleBlockNum < chain.length) :
    ∃ c item, chain[irreversibleBlockNum]? = some c ∧ d.forkDb.link (siblingOf c) = .ok item ∧
      departure chain item + 1 = chain.length - irreversibleBlockNum := by
  obtain ⟨c, hc⟩ : ∃ c, chain[irreversibleBlockNum]? = some c :=
    ⟨_, List.getElem?_eq_getElem hlong⟩
  have honChain := h.main.onChain
  have hnum : c.blockNum = chain.length - irreversibleBlockNum := honChain.blockNum hc
  have hsibling : (siblingOf c).blockNum = chain.length - irreversibleBlockNum := hnum
  have hne : chain ≠ [] := List.ne_nil_of_mem (List.mem_of_getElem? hc)
  -- The previous id is that of the block below, whose item is kept.
  have hbelow : chain.drop irreversibleBlockNum = c :: chain.drop cacheDepth := by
    obtain ⟨hlt, rfl⟩ := List.getElem?_eq_some_iff.mp hc
    exact List.drop_eq_getElem_cons hlt
  have hprev : (siblingOf c).previous = headIdOf (chain.drop cacheDepth) := by
    have hlinked := honChain.linked.drop irreversibleBlockNum
    rw [hbelow] at hlinked
    exact hlinked.1
  have hrecent : ∀ head, d.forkDb.head = some head →
      head.num - d.forkDb.maxSize < (siblingOf c).blockNum := by
    intro head hhead
    have hle := (h.forest.head head hhead).1
    have hsize := hroomy (by rw [h.headBlockNum]; exact hlong)
    omega
  have hparent : (siblingOf c).previous = .null ∨
      d.forkDb.fetchBlock (siblingOf c).previous ≠ none := by
    cases hdrop : chain.drop cacheDepth with
    | nil => exact .inl (by rw [hprev, hdrop]; rfl)
    | cons p rest =>
      have hlength := congrArg List.length hdrop
      rw [List.length_drop, List.length_cons] at hlength
      obtain ⟨a, ha, hanum, hadata⟩ := h.forest.item_of_num
        (show 0 < chain.length - cacheDepth by omega) (Nat.sub_le _ _) (Nat.le_refl _)
      rw [Nat.sub_sub_self (by omega)] at hadata
      have hid : a.id = (siblingOf c).previous := by
        rw [hprev, headIdOf_drop hadata]
        rfl
      refine .inr ?_
      rw [ForkDatabase.fetchBlock_eq_some.mpr ⟨ha, hid⟩]
      exact Option.some_ne_none a
  obtain ⟨item, hlink⟩ := ForkDatabase.link_returns hrecent hparent
  have hitem := ForkDatabase.link_eq_ok hlink
  refine ⟨c, item, hc, hlink, ?_⟩
  -- Below the item lies the chain from there on.
  have hdata : item.data = siblingOf c := hitem.data
  have hcache : (chain.drop cacheDepth).length + 1 = chain.length - irreversibleBlockNum := by
    rw [List.length_drop]
    simp only [cacheDepth, irreversibleBlockNum] at hlong ⊢
    omega
  have hitemnum : item.num = (chain.drop cacheDepth).length + 1 := by
    rw [hcache, ForkItem.num, hdata, hsibling]
  have hblocks : item.blocks = siblingOf c :: chain.drop cacheDepth := by
    rw [h.forest.blocks_eq hitem List.mem_cons_self (Nat.le_refl _) (by rw [hdata, hprev]) hitemnum,
      hdata]
  have hout : siblingOf c ∉ chain := by
    intro hmem
    obtain ⟨k, hk⟩ := List.mem_iff_getElem?.mp hmem
    have hlt := (List.getElem?_eq_some_iff.mp hk).1
    have hknum := honChain.blockNum hk
    have hsame : k = irreversibleBlockNum := by omega
    rw [hsame, hc] at hk
    exact siblingOf_ne c (Option.some.inj hk).symm
  rw [departure, hblocks, List.find?_cons_of_neg (by simpa using hout), ← hcache]
  cases hdrop : chain.drop cacheDepth with
  | nil => rfl
  | cons p rest =>
    have hp : chain[cacheDepth]? = some p := by
      rw [← Nat.add_zero cacheDepth, ← List.getElem?_drop, hdrop]
      rfl
    have hpnum := honChain.blockNum hp
    have hlength := congrArg List.length hdrop
    rw [List.length_drop] at hlength
    rw [List.find?_cons_of_pos (by simpa using List.mem_of_getElem? hp), Option.map_some,
      Option.getD_some, hpnum, hlength]

/-- **Fork window and undo window.** In every run in which no push throws, the branches of all blocks
that the fork database accepts leave the main chain within the undo window exactly as long as no
block is irreversible. -/
theorem returnedRun_undoWindow_iff (h : ReturnedRun (fun _ _ => True) pushed d) :
    ∃ chain, MainChain pushed chain d ∧
      (UndoWindow chain d ↔ d.headBlockNum ≤ irreversibleBlockNum) := by
  obtain ⟨hpending, chain, hkept⟩ := h.kept
  have hmain := hkept.mainChain hpending
  have hfinal := hkept.final hpending
  have hlast := hfinal.lastIrreversible
  have hsnapshots := hfinal.snapshots
  refine ⟨chain, hmain, fun hwindow => ?_, fun hle => ⟨fun b item _ => ?_, fun b item _ => ?_⟩⟩
  · by_contra hlong
    rw [hmain.headBlockNum] at hlong hlast
    obtain ⟨c, item, -, hlink, hdeparture⟩ := hkept.link_sibling h.roomy (by omega)
    have hlow := hwindow.irreversible _ item hlink
    omega
  · omega
  · omega

end Chains

/-! ## Twenty-two blocks -/

/-- After a switch in a short chain every branch can be undone to. -/
theorem returnedRun_undoWindow_switch :
    let _ : Node := smallNode
    ∃ (d : Database) (chain : List SignedBlock), MainChain forkedBlocks chain d ∧
      UndoWindow chain d ∧ d.headBlockNum = 3 := by
  intro node
  have hrun := ReturnedRun.genesis.pushBlocks forkedBlocks (by decide +kernel)
  have hnum : Database.headBlockNum (finalState ((pushBlocks forkedBlocks).run .genesis)) = 3 := by
    decide +kernel
  obtain ⟨chain, hmain, hiff⟩ := returnedRun_undoWindow_iff hrun
  exact ⟨_, chain, hmain, hiff.mpr (by rw [hnum]; decide), hnum⟩

/-- After 22 blocks the first is irreversible, and another first block is accepted. -/
theorem undoWindow_exceeded :
    ¬ ∀ pushed (d : @Database smallNode), @ReturnedRun smallNode (fun _ _ => True) pushed d →
      ∃ chain, @MainChain smallNode pushed chain d ∧ @UndoWindow smallNode chain d := by
  let _ : Node := smallNode
  intro h
  let pushed := (bareChain 22).reverse
  let other : SignedBlock := siblingOf (blockOn .null genesisTime [])
  let d := finalState ((pushBlocks pushed).run .genesis)
  obtain ⟨chain, hmain, hwindow⟩ := h pushed d (.pushBlocks .genesis pushed (by decide +kernel))
  have hlast : d.gpo.lastIrreversibleBlockNum = 1 := by decide +kernel
  have hline : (d.forkDb.link other).map (·.blocks) = .ok [other] := by decide +kernel
  have hnew : other ∉ pushed := by decide +kernel
  cases hlink : d.forkDb.link other with
  | error e =>
    rw [hlink] at hline
    cases hline
  | ok item =>
    rw [hlink] at hline
    have hblocks : item.blocks = [other] := Except.ok.inj hline
    have hlow := hwindow.irreversible other item hlink
    have hout : other ∉ chain := fun hmem => hnew (hmain.known other hmem)
    rw [hlast, departure, hblocks, List.find?_cons_of_neg (by simpa using hout)] at hlow
    exact absurd hlow (Nat.not_succ_le_zero 0)

end NewsChain
