import NewsChain.Laws.Rollback
import NewsChain.Laws.SharedMemory

/-!
# What a push that throws leaves

A push that throws should leave the head, the objects and the undo states alone. It does wherever
what it did can be taken back, which `Orderly` says in terms of the database before the call:
`callRun_atomic` is about every run of such calls. `switch_loses_block` is a run in which a block of
the main chain is gone after a push that threw.

Between the calls of a run the database is in one of three conditions. There is a main chain and no
item of the fork database is higher; or the head of the fork database is a child of the chain's head
that was refused (`Standing`); or it is an item whose branch was not found, on which every push
throws (`Stranded`).
-/

namespace NewsChain

open EStateM (Result)
open ForkDatabase (Linked Trimmed Detached cacheDepth)

section Calls

variable [Node]

/-- The fork database and the two branches of the switch a call starts, where they are found. -/
def switchOf (d : Database) (b : SignedBlock) : Option (ForkDatabase × Branch × Branch) :=
  match d.forkDb.pushBlock b with
  | .error _ => none
  | .ok (newBlock, fdb) =>
    if newBlock.data.previous ≠ d.headBlockId ∧ d.headBlockNum < newBlock.num then
      match fdb.fetchBranchFrom newBlock.id d.headBlockId with
      | .error _ => none
      | .ok (first, second) => some (fdb, first, second)
    else none

/-- A call that can be taken back. A block that is applied directly is applied to its parent; and
where a call starts a switch, the head of the fork database is no higher than that of the state, and
what was before can be restored. -/
structure Orderly (d : Database) (b : SignedBlock) : Prop where
  linksUp : LinksUp d b
  level : (switchOf d b).isSome → ∀ head ∈ d.forkDb.head, head.num ≤ d.headBlockNum
  switch : ∀ s ∈ switchOf d b, Recoverable d s.1 s.2.1 s.2.2

instance (d : Database) (fdb : ForkDatabase) (first second : Branch) :
    Decidable (Recoverable d fdb first second) :=
  decidable_of_iff (_ ∧ _ ∧ _ ∧ _)
    ⟨fun ⟨hundoable, hleaves, hrooted, hrecent⟩ => ⟨hundoable, hleaves, hrooted, hrecent⟩,
      fun h => ⟨h.undoable, h.leaves, h.rooted, h.recent⟩⟩

instance (d : Database) (b : SignedBlock) : Decidable (LinksUp d b) :=
  match hpush : d.forkDb.pushBlock b with
  | .error e => .isTrue (.inl ⟨e, hpush⟩)
  | .ok _ => decidable_of_iff (b.previous = d.headBlockId ∨
      ∀ head ∈ d.forkDb.head, b.blockNum ≤ head.num → head.data.previous ≠ d.headBlockId)
      (by simp [LinksUp, hpush])

instance (d : Database) (b : SignedBlock) : Decidable (Orderly d b) :=
  decidable_of_iff (_ ∧ _ ∧ _)
    ⟨fun ⟨hlinksUp, hlevel, hswitch⟩ => ⟨hlinksUp, hlevel, hswitch⟩,
      fun h => ⟨h.linksUp, h.level, h.switch⟩⟩

variable {pushed chain : List SignedBlock} {d d' : Database} {b : SignedBlock} {item : ForkItem}

theorem switchOf_eq_some {newBlock : ForkItem} {fdb : ForkDatabase} {first second : Branch}
    (hpush : d.forkDb.pushBlock b = .ok (newBlock, fdb))
    (hprev : newBlock.data.previous ≠ d.headBlockId) (hhigher : d.headBlockNum < newBlock.num)
    (hfetch : fdb.fetchBranchFrom newBlock.id d.headBlockId = .ok (first, second)) :
    switchOf d b = some (fdb, first, second) := by
  simp only [switchOf, hpush, if_pos (And.intro hprev hhigher), hfetch]

/-! ## A block on the head -/

/-- The database with another head in the fork database. -/
def Database.headed (d : Database) (head : Option ForkItem) : Database :=
  { d with forkDb := { d.forkDb with head } }

/-- A main chain, under a fork database whose head may be a child of the chain's head that was
refused. -/
inductive Standing (pushed chain : List SignedBlock) (d : Database) : Prop
  | kept : Kept pushed chain d → Standing pushed chain d
  | refused {base : Option ForkItem} {s : ForkItem} : Kept pushed chain (d.headed base) →
      d.forkDb.head = some s → Tops s chain →
      (∀ a ∈ s.ancestors, chain.length - cacheDepth ≤ a.num → a ∈ d.forkDb.index) →
      Standing pushed chain d

omit [Node] in
/-- Only the items of the index count, and the head. -/
theorem Forest.congr [Env] {fdb fdb' : ForkDatabase} (h : Forest pushed chain fdb)
    (hindex : ∀ i, i ∈ fdb'.index ↔ i ∈ fdb.index) (hhead : fdb'.head = fdb.head) :
    Forest pushed chain fdb' where
  known i hi := h.known i ((hindex i).mp hi)
  low i hi := h.low i ((hindex i).mp hi)
  head i hi := h.head i (hhead ▸ hi)
  fresh hnone := by
    obtain ⟨hnil, hchain⟩ := h.fresh (hhead ▸ hnone)
    refine ⟨List.eq_nil_iff_forall_not_mem.mpr fun i hi => ?_, hchain⟩
    rw [hindex, hnil] at hi
    exact List.not_mem_nil hi
  rooted i hi := h.rooted i ((hindex i).mp hi)
  closed i hi a ha hlow := (hindex a).mpr (h.closed i ((hindex i).mp hi) a ha hlow)
  top hne := by
    obtain ⟨m, hm, hblocks⟩ := h.top hne
    exact ⟨m, (hindex m).mpr hm, hblocks⟩

/-- A block on the head is linked in over the main chain, and the head of the fork database is then
on top of that. -/
theorem Standing.linked (h : Standing pushed chain d) (hitem : d.forkDb.Linked b item)
    (hprev : b.previous = headIdOf chain) :
    ∃ base, Kept pushed chain (d.headed base) ∧ (d.headed base).forkDb.Linked b item ∧
      Tops item chain ∧ Tops (d.forkDb.raisedHead item) chain ∧
      ∀ a ∈ (d.forkDb.raisedHead item).ancestors, chain.length - cacheDepth ≤ a.num →
        a ∈ d.forkDb.index := by
  cases h with
  | kept h =>
    have ht := h.tops hitem (hprev.trans h.headBlockId.symm)
    have hnew : d.forkDb.raisedHead item = item := by
      rcases d.forkDb.raisedHead_cases item with ⟨hnew, -⟩ | ⟨hold, hle⟩
      · exact hnew
      · have hlow := (h.forest.head _ hold).1
        have hnum := ht.num
        omega
    rw [hnew]
    exact ⟨d.forkDb.head, h, hitem, ht, ht, fun a ha hlow => h.forest.ancestor_mem hitem ha hlow⟩
  | @refused base s h hhead hs hcached =>
    have hsnum := hs.num
    have hitem' : (d.headed base).forkDb.Linked b item := by
      refine ⟨hitem.ptr, hitem.data, ?_, fun head hbase => ?_⟩
      · refine hitem.line.imp_left fun ⟨hnil, hroot⟩ => ⟨hnil, .inr (hroot.resolve_left ?_)⟩
        rw [hhead]
        exact Option.some_ne_none s
      · have hrecent := hitem.recent s hhead
        have hlow := (h.forest.head head hbase).1
        change head.num - d.forkDb.maxSize < b.blockNum
        omega
    have ht := h.tops hitem' (hprev.trans h.headBlockId.symm)
    have hnum := ht.num
    have hold : d.forkDb.raisedHead item = s := by
      simp only [ForkDatabase.raisedHead, hhead]
      rw [if_neg (by omega)]
    rw [hold]
    exact ⟨base, h, hitem', ht, hs, hcached⟩

/-- **A block on the head** is applied where the objects take it, and leaves nothing but the head of
the fork database where they do not. -/
theorem Standing.direct (h : Standing pushed chain d) (hitem : d.forkDb.Linked b item)
    (hprev : b.previous = headIdOf chain) :
    (∃ d', (applyPushed skipNothing b).run { d with forkDb := d.forkDb.pushed item } = .ok true d' ∧
      Kept (pushed ++ [b]) (b :: chain) d' ∧
      (Objects.applyBlock skipNothing b).run d.store.content = .ok () d'.store.content ∧
      d'.forkDb = (d.forkDb.pushed item).setMaxSize (NewsChain.forkWindow d'.gpo)) ∨
    ∃ e d', (applyPushed skipNothing b).run { d with forkDb := d.forkDb.pushed item } =
        .error e d' ∧ Standing pushed chain d' ∧ d'.blockLog = d.blockLog ∧
      ¬ Returned ((Objects.applyBlock skipNothing b).run d.store.content) ∧
      d'.forkDb = (d.forkDb.pushed item).remove b.id := by
  obtain ⟨base, hbase, hitem', ht, hz, hcached⟩ := h.linked hitem hprev
  generalize hzeq : d.forkDb.raisedHead item = z at hz hcached
  have hnum := ht.num
  have hznum := hz.num
  have hlogs : d.blockLog.blocks.length = chain.length - irreversibleBlockNum := hbase.logs
  have hmain : OnMain chain { d with forkDb := d.forkDb.pushed item } :=
    ⟨hbase.main.settled, hbase.main.onChain, hbase.main.logged⟩
  have hhead : (d.forkDb.pushed item).head = some z := congrArg some hzeq
  have hhigher : chain.length < item.num := by omega
  have hindex : ∀ i, i ∈ (d.forkDb.pushed item).index ↔ i ∈ d.forkDb.index ∨ i = item := by
    intro i
    refine ForkDatabase.mem_insert.trans (Iff.trans ?_ (hbase.forest.mem_pushed hhigher))
    exact (@ForkDatabase.mem_insert _ (d.headed base).forkDb item i).symm
  have hfind : Findable (d.forkDb.pushed item) d.blockLog item.blocks := by
    rw [ht.blocks]
    refine hz.findable hhead List.mem_cons_self (by omega) (fun a ha hlow => ?_) _
    refine (hindex a).mpr (.inl (hcached a ha ?_))
    simp only [cacheDepth, irreversibleBlockNum] at hlogs ⊢
    omega
  rw [run_applyPushed]
  rcases hmain.next ht hfind with ⟨d₁, happly, hmain₁, hlog₁, hfork₁, hobjects⟩ | ⟨e, herror, hrefused⟩
  · rw [hitem.data] at happly hobjects
    have hblocks : item.blocks = b :: chain := by rw [ht.blocks, hitem.data]
    have hsized := forkDb_applyInSession happly
    refine .inl ⟨d₁, by rw [happly], ⟨hblocks ▸ hmain₁, ?_, ?_⟩, hobjects, hsized⟩
    · rw [Database.LogsUpTo] at hlog₁
      simp only [List.length_cons, irreversibleBlockNum] at hlog₁ hlogs ⊢
      omega
    · rw [← hblocks]
      have htrim := trimmed_setMaxSize hhead (List.mem_cons_self (a := z) (l := z.ancestors))
      rw [hznum, ← hnum] at htrim
      have hbounds : 0 < z.num ∧ z.num ≤ item.num := ⟨by omega, by omega⟩
      refine hbase.forest.grown hitem' hnum ht.length (fun hroot => ?_) hbounds
        ⟨?_, fun i hi => ?_, fun i hi hlow => ?_⟩
      · have hnil := ht.blocks
        rw [ForkItem.blocks, hroot, List.map_nil, List.cons.injEq] at hnil
        rw [hprev, ← hnil.2]
        rfl
      · rw [hfork₁, ForkDatabase.setMaxSize_head, hhead]
        rfl
      · rw [hfork₁] at hi
        have hmem := (hindex i).mp (htrim.subset i hi)
        exact (hbase.forest.mem_pushed hhigher).mpr hmem
      · rw [hfork₁]
        have hmem := (hbase.forest.mem_pushed hhigher).mp hi
        exact htrim.kept i ((hindex i).mpr hmem) hlow
  · rw [hitem.data] at herror hrefused
    obtain ⟨d₁, hd₁⟩ : ∃ d₁ : Database,
        { d.noting b with forkDb := (d.forkDb.pushed item).remove b.id } = d₁ := ⟨_, rfl⟩
    have hitemId : item.id = b.id := congrArg (fun c : SignedBlock => c.id) hitem.data
    -- The index is what it was.
    have hsame : ∀ i, i ∈ d₁.forkDb.index ↔ i ∈ d.forkDb.index := by
      intro i
      have hremove : i ∈ d₁.forkDb.index ↔ i ∈ (d.forkDb.pushed item).index ∧ i.id ≠ b.id := by
        simp [← hd₁, ForkDatabase.remove, ForkDatabase.keep]
      rw [hremove, hindex]
      constructor
      · rintro ⟨hold | rfl, hid⟩
        · exact hold
        · exact absurd hitemId hid
      · intro hold
        refine ⟨.inl hold, fun hid => ?_⟩
        have hlow := hbase.forest.low i hold
        have hsame : i.num = item.num := blockNum_eq_of_id_eq (hid.trans hitemId.symm)
        omega
    have hkept : Kept pushed chain (d₁.headed base) := by
      refine ⟨?_, ?_, hbase.forest.congr hsame rfl⟩
      · rw [← hd₁]
        exact ⟨hmain.settled, hmain.onChain, hmain.logged⟩
      · rw [← hd₁]
        exact hlogs
    have hhead₁ : d₁.forkDb.head = some z := by rw [← hd₁]; exact hhead
    refine .inr ⟨e, d₁, ?_, .refused hkept hhead₁ hz fun a ha hlow =>
      (hsame a).mpr (hcached a ha hlow), by rw [← hd₁]; rfl, hrefused, by rw [← hd₁]⟩
    rw [herror, ← hd₁]
    rfl

/-! ## A call -/

/-- The head of the fork database is above the main chain, and does not build on its head. -/
structure Stranded (chain : List SignedBlock) (d : Database) : Prop where
  main : OnMain chain d
  head : ∃ z, d.forkDb.head = some z ∧ chain.length < z.num ∧ z.data.previous ≠ headIdOf chain

/-- What holds of a settled database between calls. -/
inductive Rests (chain : List SignedBlock) (d : Database) : Prop
  | standing {pushed : List SignedBlock} : Standing pushed chain d → Rests chain d
  | stranded : Stranded chain d → Rests chain d

theorem Standing.onMain (h : Standing pushed chain d) : OnMain chain d := by
  cases h with
  | kept h => exact h.main
  | refused h => exact ⟨h.main.settled, h.main.onChain, h.main.logged⟩

theorem Rests.onMain (h : Rests chain d) : OnMain chain d := by
  cases h with
  | standing h => exact h.onMain
  | stranded h => exact h.main

/-- The local variables of a call play no part. -/
theorem Kept.hold (h : Kept pushed chain d) (items : List ForkItem) :
    Kept pushed chain { d with forkDb := d.forkDb.hold items } :=
  ⟨⟨h.main.settled, h.main.onChain, h.main.logged⟩, h.logs, h.forest.hold items⟩

theorem Standing.hold (h : Standing pushed chain d) (items : List ForkItem) :
    Standing pushed chain { d with forkDb := d.forkDb.hold items } := by
  cases h with
  | kept h => exact .kept (h.hold items)
  | @refused base s h hhead hs hcached => exact .refused (h.hold items) hhead hs hcached

theorem Rests.hold (h : Rests chain d) (items : List ForkItem) :
    Rests chain { d with forkDb := d.forkDb.hold items } := by
  cases h with
  | standing h => exact .standing (h.hold items)
  | stranded h =>
    exact .stranded ⟨⟨h.main.settled, h.main.onChain, h.main.logged⟩, h.head⟩

/-- What a call makes of a database with a main chain: where it throws, the chain and the length of
the log are what they were. -/
def Leaves (chain : List SignedBlock) (d : Database) : Result Exc Database Bool → Prop
  | .ok _ d' => ∃ chain', Rests chain' d'
  | .error _ d' => Rests chain d' ∧ d'.blockLog.blocks.length = d.blockLog.blocks.length

/-- A switch whose branches are not found leaves the new item as the head of the fork database. -/
theorem OnMain.strands (h : OnMain chain d) {z : ForkItem} {fdb : ForkDatabase}
    (hhead : fdb.head = some z) (hhigher : chain.length < z.num)
    (hprev : z.data.previous ≠ headIdOf chain) : Stranded chain { d with forkDb := fdb } :=
  ⟨⟨h.settled, h.onChain, h.logged⟩, z, hhead, hhigher, hprev⟩

/-- The call starts a switch whose branches are not found. -/
def strands (d : Database) (b : SignedBlock) : Bool :=
  match d.forkDb.pushBlock b with
  | .error _ => false
  | .ok (newBlock, fdb) =>
    decide (newBlock.data.previous ≠ d.headBlockId ∧ d.headBlockNum < newBlock.num) &&
      !(fdb.fetchBranchFrom newBlock.id d.headBlockId).isOk

theorem strands_eq_true {newBlock : ForkItem} {fdb : ForkDatabase} {e : Exc}
    (hpush : d.forkDb.pushBlock b = .ok (newBlock, fdb))
    (hprev : newBlock.data.previous ≠ d.headBlockId) (hhigher : d.headBlockNum < newBlock.num)
    (hfetch : fdb.fetchBranchFrom newBlock.id d.headBlockId = .error e) : strands d b = true := by
  simp only [strands, hpush, hfetch, decide_eq_true (And.intro hprev hhigher), Except.isOk,
    Except.toBool, Bool.not_false, Bool.and_self]

/-- A call where no item is above the chain, and which throws: either the new item is left as the head
of the fork database, or the main chain is what it was. -/
theorem Kept.fails (h : Kept pushed chain d)
    (hb : ∀ s ∈ switchOf d b, Recoverable d s.1 s.2.1 s.2.2) {e : Exc}
    (hrun : (pushBlockImpl skipNothing b).run d = .error e d') :
    (Stranded chain d' ∧ strands d b = true ∨
      ∃ pushed', Standing pushed' chain d' ∧ (0 < d.forkDb.maxSize → 0 < d'.forkDb.maxSize)) ∧
      d'.blockLog.blocks.length = d.blockLog.blocks.length := by
  have hid : d.headBlockId = headIdOf chain := h.headBlockId
  have hheight : d.headBlockNum = chain.length := h.headBlockNum
  rw [run_pushBlockImpl] at hrun
  cases hpush : d.forkDb.pushBlock b with
  | error e' =>
    simp only [hpush] at hrun
    cases hrun
    exact ⟨.inr ⟨pushed, .kept h, id⟩, rfl⟩
  | ok r =>
    obtain ⟨newBlock, fdb⟩ := r
    obtain ⟨item, hlink, rfl, rfl⟩ := ForkDatabase.pushBlock_eq_ok.mp hpush
    have hitem := ForkDatabase.link_eq_ok hlink
    simp only [hpush] at hrun
    rcases d.forkDb.raisedHead_cases item with ⟨hnew, -⟩ | ⟨hold, -⟩
    · by_cases hprev : b.previous = headIdOf chain
      · rw [hnew, hitem.data, if_neg (not_not.mpr (hprev.trans hid.symm))] at hrun
        rcases (Standing.kept h).direct hitem hprev with
          ⟨d₁, happly, -⟩ | ⟨e₁, d₁, happly, hd₁, hlog, -, hfork⟩
        · rw [happly] at hrun
          cases hrun
        · rw [happly] at hrun
          cases hrun
          have hsize : d'.forkDb.maxSize = d.forkDb.maxSize := by
            rw [hfork]
            exact ForkDatabase.insert_maxSize _ _
          exact ⟨.inr ⟨pushed, hd₁, fun hpos => hsize ▸ hpos⟩, congrArg (·.blocks.length) hlog⟩
      · have hprev' : item.data.previous ≠ d.headBlockId := by rwa [hitem.data, hid]
        rw [hnew, if_pos hprev'] at hrun
        by_cases hhigher : d.headBlockNum < item.num
        · rw [if_pos hhigher] at hrun
          rw [hnew] at hpush
          have hhead : (d.forkDb.pushed item).head = some item := congrArg some hnew
          cases hfetch : (d.forkDb.pushed item).fetchBranchFrom item.id d.headBlockId with
          | error e' =>
            rw [run_switchForks] at hrun
            have hfetch' : (d.forkDb.pushed item).fetchBranchFrom item.id
              (Database.headBlockId { d with forkDb := d.forkDb.pushed item }) = .error e' := hfetch
            simp only [hfetch'] at hrun
            cases hrun
            have hstranded := h.main.strands hhead (hheight ▸ hhigher) (hid ▸ hprev')
            exact ⟨.inl ⟨hstranded, strands_eq_true hpush hprev' hhigher hfetch⟩, rfl⟩
          | ok branches =>
            obtain ⟨first, second⟩ := branches
            have hrecoverable := hb _ (switchOf_eq_some hpush hprev' hhigher hfetch)
            rw [hid] at hfetch
            obtain ⟨hkept, hsize⟩ :=
              h.switch_fails hitem hnew hprev (hheight ▸ hhigher) hfetch hrecoverable hrun
            refine ⟨.inr ⟨_, .kept hkept, fun _ => ?_⟩, by rw [hkept.logs, h.logs]⟩
            rw [hsize, hkept.forkWindow]
            exact Nat.succ_pos _
        · rw [if_neg hhigher] at hrun
          cases hrun
    · have hlow := (h.forest.head _ hold).1
      rw [if_pos (h.head_stays hold), hheight, if_neg (Nat.not_lt.mpr hlow)] at hrun
      cases hrun

/-- Under a refused block only a block on the head links up. -/
theorem Standing.previous_of_linksUp {base : Option ForkItem} {s : ForkItem}
    (h : Kept pushed chain (d.headed base)) (hhead : d.forkDb.head = some s) (hs : Tops s chain)
    (hb : LinksUp d b) (hlink : d.forkDb.link b = .ok item) : b.previous = headIdOf chain := by
  have hitem := ForkDatabase.link_eq_ok hlink
  have hid : d.headBlockId = headIdOf chain := h.headBlockId
  have hnum := hs.num
  rcases hb with ⟨e, he⟩ | hprev | hlevel
  · have hok := ForkDatabase.pushBlock_eq_ok.mpr ⟨item, hlink, rfl, rfl⟩
    rw [hok] at he
    cases he
  · exact hprev.trans hid
  · -- A higher block would have a parent above the chain.
    exfalso
    have hhigher : s.num < b.blockNum := by
      by_contra hle
      exact hlevel s hhead (by omega) (hs.previous.trans hid.symm)
    have hitemNum : item.num = b.blockNum := by rw [ForkItem.num, hitem.data]
    rcases hitem.line with ⟨-, hnone | hnull⟩ | ⟨p, hp, hfollows⟩
    · rw [hhead] at hnone
      cases hnone
    · have hone : b.blockNum = 1 := by
        rw [BlockHeader.blockNum, hnull, numFromId_null]
        rfl
      omega
    · have hlow := h.forest.low p (ForkDatabase.fetchBlock_eq_some.mp hp).1
      have hparent := hfollows.num
      omega

/-- A call under the head that was refused. -/
theorem Standing.leaves (h : Standing pushed chain d) (hb : Orderly d b) :
    Leaves chain d ((releaseItems (pushBlockImpl skipNothing b)).run d) := by
  cases h with
  | kept h =>
    cases hrun : (releaseItems (pushBlockImpl skipNothing b)).run d with
    | ok a d' =>
      obtain ⟨chain', -, hkept⟩ := h.returns hrun
      exact ⟨chain', .standing (.kept hkept)⟩
    | error e d' =>
      rw [run_releaseItems] at hrun
      cases himpl : (pushBlockImpl skipNothing b).run d with
      | ok a d₁ =>
        rw [himpl] at hrun
        cases hrun
      | error e₁ d₁ =>
        rw [himpl] at hrun
        cases hrun
        obtain ⟨hends, hlog⟩ := h.fails hb.switch himpl
        have hrests : Rests chain d₁ := by
          rcases hends with ⟨hstranded, -⟩ | ⟨pushed', hstanding, -⟩
          · exact .stranded hstranded
          · exact .standing hstanding
        exact ⟨hrests.hold [], hlog⟩
  | @refused base s h hhead hs hcached =>
    have hstanding : Standing pushed chain d := .refused h hhead hs hcached
    have hid : d.headBlockId = headIdOf chain := h.headBlockId
    rw [run_releaseItems, run_pushBlockImpl]
    cases hpush : d.forkDb.pushBlock b with
    | error e => exact ⟨Rests.hold (.standing hstanding) [], rfl⟩
    | ok r =>
      obtain ⟨newBlock, fdb⟩ := r
      obtain ⟨item, hlink, rfl, rfl⟩ := ForkDatabase.pushBlock_eq_ok.mp hpush
      have hitem := ForkDatabase.link_eq_ok hlink
      have hprev := Standing.previous_of_linksUp h hhead hs hb.linksUp hlink
      obtain ⟨-, -, -, -, hz, -⟩ := hstanding.linked hitem hprev
      simp only [if_neg (not_not.mpr (hz.previous.trans hid.symm))]
      rcases hstanding.direct hitem hprev with
        ⟨d₁, happly, hkept, -⟩ | ⟨e, d₁, happly, hd₁, hlog, -⟩
      · rw [happly]
        exact ⟨_, Rests.hold (.standing (.kept hkept)) []⟩
      · rw [happly]
        exact ⟨Rests.hold (.standing hd₁) [], congrArg (·.blocks.length) hlog⟩

/-- A call under a stranded item throws. -/
theorem Stranded.leaves (h : Stranded chain d) (hb : Orderly d b) :
    Leaves chain d ((releaseItems (pushBlockImpl skipNothing b)).run d) := by
  obtain ⟨z, hhead, hhigher, hprev⟩ := h.head
  have hid : d.headBlockId = headIdOf chain := h.main.onChain.headBlockId
  have hheight : d.headBlockNum = chain.length := h.main.onChain.headBlockNum
  rw [run_releaseItems, run_pushBlockImpl]
  cases hpush : d.forkDb.pushBlock b with
  | error e => exact ⟨Rests.hold (.stranded h) [], rfl⟩
  | ok r =>
    obtain ⟨newBlock, fdb⟩ := r
    obtain ⟨item, hlink, rfl, rfl⟩ := ForkDatabase.pushBlock_eq_ok.mp hpush
    have hitem := ForkDatabase.link_eq_ok hlink
    have hnew : chain.length < (d.forkDb.raisedHead item).num ∧
        (d.forkDb.raisedHead item).data.previous ≠ headIdOf chain := by
      rcases d.forkDb.raisedHead_cases item with ⟨hnew, hover⟩ | ⟨hold, -⟩
      · have hlt := hover z hhead
        rw [hnew]
        refine ⟨by omega, fun hsame => ?_⟩
        -- A block on the head is no higher than the stranded item.
        have hnum := h.main.onChain.linked.numFromId_headIdOf
        have hvalue : item.num = (chain.length % 2 ^ 32 + 1) % 2 ^ 32 := by
          rw [ForkItem.num, BlockHeader.blockNum, hsame, hnum]
        omega
      · rw [hhead, Option.some.injEq] at hold
        rw [← hold]
        exact ⟨hhigher, hprev⟩
    simp only [if_pos (hid ▸ hnew.2), if_pos (hheight ▸ hnew.1)]
    rw [run_switchForks]
    cases hfetch : (d.forkDb.pushed item).fetchBranchFrom (d.forkDb.raisedHead item).id
        (Database.headBlockId { d with forkDb := d.forkDb.pushed item }) with
    | error e => exact ⟨Rests.hold (.stranded (h.main.strands rfl hnew.1 hnew.2)) [], rfl⟩
    | ok branches =>
      exfalso
      obtain ⟨first, second⟩ := branches
      have hswitch := switchOf_eq_some hpush (hid ▸ hnew.2) (hheight ▸ hnew.1) hfetch
      have hle := hb.level (by rw [hswitch]; rfl) z hhead
      omega

theorem Rests.leaves (h : Rests chain d) (hb : Orderly d b) :
    Leaves chain d ((releaseItems (pushBlockImpl skipNothing b)).run d) := by
  cases h with
  | standing h => exact h.leaves hb
  | stranded h => exact h.leaves hb

/-! ## Runs -/

/-- The databases reached from genesis by pushing transactions, pushing blocks and generating blocks,
returning or throwing, where `P` is asked of each block and the settled database before it. -/
inductive CallRun (P : Database → SignedBlock → Prop) : Database → Prop
  | genesis : CallRun P .genesis
  | pushTransaction {d : Database} (t : SignedTransaction) : CallRun P d →
      CallRun P (finalState ((pushTransaction skipNothing t).run d))
  | pushBlock {d : Database} (b : SignedBlock) : CallRun P d → P d.settled b →
      CallRun P (finalState ((pushBlock skipNothing b).run d))
  | generateBlock {d : Database} (now : TimePointSec) (producer : AccountName)
      (key : PrivateKey) : CallRun P d → P d.settled (generatedBlock now producer key d) →
      CallRun P (finalState ((generateBlock skipNothing now producer key).run d))

theorem CallRun.headRun {P : Database → SignedBlock → Prop} (h : CallRun P d) :
    HeadRun d.settled d := by
  have hpair : ∃ c, HeadRun c d := by
    induction h with
    | genesis => exact ⟨_, .genesis⟩
    | pushTransaction t _ ih => exact ⟨_, .pushTransaction t ih.choose_spec⟩
    | pushBlock b _ _ ih => exact ⟨_, .pushBlock b ih.choose_spec⟩
    | generateBlock now producer key _ _ ih =>
      exact ⟨_, .generateBlock now producer key ih.choose_spec⟩
  obtain ⟨c, hc⟩ := hpair
  rw [hc.over.2]
  exact hc

/-- `P` holds of each of some calls and the database before it. -/
def EachCall (P : Database → SignedBlock → Prop) : List SignedBlock → Database → Prop
  | [], _ => True
  | b :: blocks, d => P d b ∧ EachCall P blocks (finalState ((pushBlock skipNothing b).run d))

theorem CallRun.afterCalls {P : Database → SignedBlock → Prop} (h : CallRun P d)
    {blocks : List SignedBlock} (hblocks : EachCall (fun d b => P d.settled b) blocks d) :
    CallRun P (NewsChain.afterCalls blocks d) := by
  induction blocks generalizing d with
  | nil => exact h
  | cons b blocks ih => exact ih (.pushBlock b h hblocks.1) hblocks.2

theorem Rests.afterBlock (h : Rests chain d) (hb : Orderly d b) :
    ∃ chain', Rests chain' (d.afterBlock b) := by
  have hleaves := h.leaves hb
  rw [Database.afterBlock]
  cases hrun : (releaseItems (pushBlockImpl skipNothing b)).run d with
  | ok a d' =>
    rw [hrun] at hleaves
    exact hleaves
  | error e d' =>
    rw [hrun] at hleaves
    exact ⟨chain, hleaves.1⟩

theorem CallRun.rests (h : CallRun Orderly d) : ∃ chain, Rests chain d.settled := by
  induction h with
  | genesis => exact ⟨[], .standing (.kept kept_genesis)⟩
  | @pushTransaction d t h ih =>
    obtain ⟨chain, ih⟩ := ih
    rw [(HeadRun.pushTransaction t h.headRun).over.2]
    exact ⟨chain, ih⟩
  | @pushBlock d b h hb ih =>
    obtain ⟨chain, ih⟩ := ih
    rw [(HeadRun.pushBlock b h.headRun).over.2]
    exact ih.afterBlock hb
  | @generateBlock d now producer key h hb ih =>
    obtain ⟨chain, ih⟩ := ih
    rw [(HeadRun.generateBlock now producer key h.headRun).over.2]
    exact ih.afterBlock hb

/-- The head, the objects and the undo states are the same, with the pending session removed. -/
structure SameState (d d' : Database) : Prop where
  headBlockId : d'.headBlockId = d.headBlockId
  headBlockNum : d'.headBlockNum = d.headBlockNum
  objects : d'.settled.store.content = d.settled.store.content
  undoStates : d'.settled.store.frames = d.settled.store.frames

theorem sameState_of_store (hd : Pending d) (hd' : Pending d')
    (hstore : d'.settled.store = d.settled.store) : SameState d d' := by
  have hgpo : d'.gpo = d.gpo := by
    rw [← hd'.settled_gpo, ← hd.settled_gpo, Database.gpo, hstore, Database.gpo]
  exact ⟨congrArg (·.headBlockId) hgpo, congrArg (·.headBlockNum) hgpo,
    congrArg (·.content) hstore, congrArg (·.frames) hstore⟩

/-- `_push_block` changes nothing where it throws, in every run of calls that can be taken back. -/
theorem sameState_of_throws (h : CallRun Orderly d) {e : Exc} (hb : Orderly d.settled b)
    (hrun : (pushBlock skipNothing b).run d = .error e d') : SameState d d' := by
  obtain ⟨chain, hrests⟩ := h.rests
  obtain ⟨hsettled, hpending'⟩ := settled_pushBlock_error hrun
  have hleaves := hrests.leaves hb
  rw [hsettled] at hleaves
  obtain ⟨hrests', hlog⟩ := hleaves
  -- The chain is the same, and so is its store.
  exact sameState_of_store h.headRun.over.1 hpending'
    (hrests'.onMain.onChain.store_eq hrests.onMain.onChain hlog)

/-! ## Runs with the memory -/

section Mapped

variable {Stored : Type} {s s' : MappedDatabase Stored}

/-- The objects reached from genesis, over any memory, by pushing transactions, pushing blocks and
generating blocks, returning or throwing, where `P` is asked of each block and the settled database
before it. `freeMem` is what is free once the block is pushed. -/
inductive MappedRun (fresh : Stored) (P : Database → SignedBlock → Prop) :
    MappedDatabase Stored → Prop
  | genesis (files : String → Option (SharedFile Stored)) (threshold rate : UInt16)
      (calls : List (MemoryCall Stored)) : MappedRun fresh P
        ⟨.genesis, runMemoryCalls fresh (constructed files threshold rate) calls⟩
  | pushTransaction {s : MappedDatabase Stored} (t : SignedTransaction) : MappedRun fresh P s →
      MappedRun fresh P (finalState ((onDatabase (pushTransaction skipNothing t)).run s))
  | pushBlock {s : MappedDatabase Stored} (freeMem : UInt64) (b : SignedBlock) :
      MappedRun fresh P s → P s.database.settled b →
      MappedRun fresh P (finalState ((pushBlockMapped fresh freeMem skipNothing b).run s))
  | generateBlock {s : MappedDatabase Stored} (freeMem : UInt64) (now : TimePointSec)
      (producer : AccountName) (key : PrivateKey) : MappedRun fresh P s →
      P s.database.settled (generatedBlock now producer key s.database) →
      MappedRun fresh P
        (finalState ((generateBlockMapped fresh freeMem skipNothing now producer key).run s))

theorem database_generateBlockMapped (fresh : Stored) (freeMem : UInt64) (now : TimePointSec)
    (producer : AccountName) (key : PrivateKey) (s : MappedDatabase Stored) :
    (finalState ((generateBlockMapped fresh freeMem skipNothing now producer key).run s)).database =
      finalState ((generateBlock skipNothing now producer key).run s.database) := by
  have hpush := database_pushBlockMapped fresh freeMem skipNothing
    (generatedBlock now producer key s.database)
    ⟨{ s.database.settled with pendingTrx := s.database.pendingTrx }, s.memory⟩
  simp only [generateBlockMapped, EStateM.run_bind, run_onDatabase, run_composeBlock, mapState_ok,
    run_generateBlock]
  generalize (pushBlockMapped fresh freeMem skipNothing _).run _ = r at hpush
  generalize (pushBlock skipNothing _).run _ = r' at hpush
  cases r <;> cases r' <;> exact hpush

/-- The databases of such a run are those of a run without the memory. -/
theorem MappedRun.callRun {fresh : Stored} {P : Database → SignedBlock → Prop}
    (h : MappedRun fresh P s) : CallRun P s.database := by
  induction h with
  | genesis files threshold rate calls => exact .genesis
  | pushTransaction t _ ih =>
    rw [run_onDatabase, finalState_mapState]
    exact .pushTransaction t ih
  | pushBlock freeMem b _ hb ih =>
    rw [database_pushBlockMapped]
    exact .pushBlock b ih hb
  | generateBlock freeMem now producer key _ hb ih =>
    rw [database_generateBlockMapped]
    exact .generateBlock now producer key ih hb

/-- **A push that throws changes nothing**, in every run of calls that can be taken back, where the
check of the memory passes. -/
theorem mappedRun_atomic {fresh : Stored} (h : MappedRun fresh Orderly s) {freeMem : UInt64}
    {e : Exc} (hb : Orderly s.database.settled b) (hcheck : CheckPasses s.memory freeMem)
    (hrun : (pushBlockMapped fresh freeMem skipNothing b).run s = .error e s') :
    SameState s.database s'.database ∧ s'.memory = s.memory := by
  obtain ⟨hpush, hmemory⟩ := pushBlockMapped_error hcheck hrun
  exact ⟨sameState_of_throws h.callRun hb hpush, hmemory⟩

end Mapped

end Calls

/-- The memory of an object that was opened, and grows once it is nearly full. -/
def openedMemory : Chainbase Nat :=
  runMemoryCalls 0 (constructed (fun _ => none) 0 0)
    [.open ⟨"blockchain", 1024, 9000, 5000⟩ (.ok ()) ⟨fun _ x => x, .ok ()⟩]

/-- A second block is left for a sibling that fails, and restored. The memory has grown before. -/
theorem mappedRun_atomic_sibling :
    let _ : Node := smallNode
    ∃ (s s' : MappedDatabase Nat) (b : SignedBlock) (e : Exc),
      (pushBlockMapped 0 50 skipNothing b).run s = .error e s' ∧
      (switchOf s.database.settled b).isSome ∧ openedMemory.fileSize < s.memory.fileSize ∧
      SameState s.database s'.database ∧ s'.memory = s.memory := by
  intro node
  let x : SignedBlock := blockOn .null genesisTime []
  let x' : SignedBlock := blockOn x.id (genesisTime + 3) []
  let y : SignedBlock :=
    { blockOn x.id (genesisTime + 6) [] with transactionMerkleRoot := merkleRoot [] + 1 }
  let z : SignedBlock := blockOn y.id (genesisTime + 9) []
  let push (freeMem : UInt64) (b : SignedBlock) (s : MappedDatabase Nat) : MappedDatabase Nat :=
    finalState ((pushBlockMapped 0 freeMem skipNothing b).run s)
  let s₁ := push 700 x ⟨.genesis, openedMemory⟩
  let s₂ := push 50 x' s₁
  let s := push 800 y s₂
  have hx : Orderly (Database.genesis).settled x := by decide +kernel
  have hx' : Orderly s₁.database.settled x' := by decide +kernel
  have hy : Orderly s₂.database.settled y := by decide +kernel
  have hz : Orderly s.database.settled z := by decide +kernel
  have hrun : MappedRun 0 Orderly s :=
    .pushBlock 800 y (.pushBlock 50 x' (.pushBlock 700 x (.genesis _ _ _ _) hx) hx') hy
  have hcheck : CheckPasses s.memory 50 := by decide +kernel
  have hswitch : (switchOf s.database.settled z).isSome := by decide +kernel
  have hgrown : openedMemory.fileSize < s.memory.fileSize := by decide +kernel
  have hthrows : ¬ Returned ((pushBlockMapped 0 50 skipNothing z).run s) := by decide +kernel
  obtain ⟨e, herror⟩ := eq_error_of_not_returned hthrows
  exact ⟨s, _, z, e, herror, hswitch, hgrown, mappedRun_atomic hrun hz hcheck herror⟩

/-- The first block is left for a branch whose second block fails. To go back, the branch is popped down
the line of the old head, which ends there: so the call throws with the first block of the branch as
the head. -/
theorem switch_loses_block :
    let _ : Node := smallNode
    ¬ ∀ s : MappedDatabase Nat, MappedRun 0 (fun _ _ => True) s → ∀ freeMem b e s',
      (pushBlockMapped 0 freeMem skipNothing b).run s = .error e s' →
        s'.database.headBlockId = s.database.headBlockId := by
  intro node h
  let x : SignedBlock := blockOn .null genesisTime []
  let y : SignedBlock := blockOn .null (genesisTime + 3) []
  let z : SignedBlock :=
    { blockOn y.id (genesisTime + 6) [] with transactionMerkleRoot := merkleRoot [] + 1 }
  let push (b : SignedBlock) (s : MappedDatabase Nat) : MappedDatabase Nat :=
    finalState ((pushBlockMapped 0 700 skipNothing b).run s)
  let s := push y (push x ⟨.genesis, openedMemory⟩)
  have hrun : MappedRun 0 (fun _ _ => True) s :=
    .pushBlock 700 y (.pushBlock 700 x (.genesis _ _ _ _) trivial) trivial
  have hthrows : ¬ Returned ((pushBlockMapped 0 700 skipNothing z).run s) := by decide +kernel
  have hmoved : (push z s).database.headBlockId ≠ s.database.headBlockId := by decide +kernel
  obtain ⟨e, herror⟩ := eq_error_of_not_returned hthrows
  exact hmoved (h s hrun 700 z e _ herror)

end NewsChain
