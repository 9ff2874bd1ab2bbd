import NewsChain.Laws.ForkTree
import NewsChain.Laws.PushBlock

/-!
# The fork database as a linked tree

An item of the index points at an item of the index, but for the first one, the blocks without a
parent, and the lowest there are, whose parents were pruned. Only two things break that. A block
without a parent is lower than items that have lost theirs. And a branch that is removed as invalid
may have had children beside it: they stay, and point at nothing.

`treeRun_linked` says that there is no third: in every run in which neither happens, the index is a
linked tree.
-/

namespace NewsChain

open EStateM (Result)

section Calls

variable [Node]

/-! ## Trees -/

namespace ForkDatabase

/-- `prev` of an item locks, and what it points at is in the index, with the id and the number of the
block before. -/
structure Live (fdb : ForkDatabase) (i p : ForkItem) : Prop where
  points : i.Follows p
  indexed : p ∈ fdb.index
  owned : fdb.owns p.ptr = true
  id : i.data.previous = p.id
  num : i.num = p.num + 1

variable {fdb : ForkDatabase} {i p : ForkItem}

theorem live_of_mem (h : i.Follows p) (hp : p ∈ fdb.index) : fdb.Live i p where
  points := h
  indexed := hp
  owned := List.any_eq_true.mpr
    ⟨p, List.mem_append_left _ (List.mem_append_left _ hp), beq_self_eq_true _⟩
  id := h.previous
  num := h.num

/-- Nothing in the index is lower. -/
def Lowest (fdb : ForkDatabase) (i : ForkItem) : Prop := ∀ j ∈ fdb.index, i.num ≤ j.num

/-- Every item of the index is linked, other than the item of `start_block`, those without a parent,
and the lowest. -/
def LinkedTree (start : Option ForkNode) (fdb : ForkDatabase) : Prop :=
  ∀ i ∈ fdb.index, start = some i.node ∨ i.data.previous = .null ∨ fdb.Lowest i ∨ ∃ p, fdb.Live i p

/-- What the operations keep. A database without a head is empty. -/
structure Tree (start : Option ForkNode) (fdb : ForkDatabase) : Prop where
  linked : fdb.LinkedTree start
  fresh : fdb.head = none → fdb.index = []

/-- No item with one of the ids has a child without. -/
def Detached (index : List ForkItem) (ids : List BlockId) : Prop :=
  ∀ p ∈ index, p.id ∈ ids → ∀ c ∈ index, c.Follows p → c.id ∈ ids

/-- No item numbered above 1 has lost its parent. -/
def Whole (start : Option ForkNode) (fdb : ForkDatabase) : Prop :=
  ∀ i ∈ fdb.index, start = some i.node ∨ i.data.previous = .null ∨ i.num ≤ 1 ∨ ∃ p, fdb.Live i p

theorem mem_removeAll {items : List ForkItem} :
    i ∈ (fdb.removeAll items).index ↔ i ∈ fdb.index ∧ i.id ∉ items.map (·.id) := by
  induction items generalizing fdb with
  | nil => simp [removeAll]
  | cons j items ih =>
    have hstep : fdb.removeAll (j :: items) = (fdb.remove j.id).removeAll items := rfl
    have hremove : i ∈ (fdb.remove j.id).index ↔ i ∈ fdb.index ∧ i.id ≠ j.id := by
      simp [remove, keep]
    rw [hstep, ih, hremove, List.map_cons, List.mem_cons, not_or, and_assoc]

@[simp] theorem removeAll_head (fdb : ForkDatabase) (items : List ForkItem) :
    (fdb.removeAll items).head = fdb.head := by
  induction items generalizing fdb with
  | nil => rfl
  | cons j items ih => exact ih (fdb.remove j.id)

@[simp] theorem removeAll_maxSize (fdb : ForkDatabase) (items : List ForkItem) :
    (fdb.removeAll items).maxSize = fdb.maxSize := by
  induction items generalizing fdb with
  | nil => rfl
  | cons j items ih => exact ih (fdb.remove j.id)

namespace Tree

variable {start : Option ForkNode}

theorem empty (hindex : fdb.index = []) : Tree none fdb where
  linked i hi := by
    rw [hindex] at hi
    exact absurd hi List.not_mem_nil
  fresh _ := hindex

/-- `start_block`, in an empty database. -/
theorem startBlock (hindex : fdb.index = []) (b : SignedBlock) :
    Tree (some ⟨fdb.nextPtr, b⟩) (fdb.startBlock b) where
  linked i hi := by
    rcases mem_insert.mp hi with hi | ⟨rfl, -⟩
    · rw [hindex] at hi
      exact absurd hi List.not_mem_nil
    · exact .inl rfl
  fresh hnone := by cases hnone

/-- The same index, under a head. -/
theorem of_index {fdb' : ForkDatabase} (h : Tree start fdb) (hindex : fdb'.index = fdb.index)
    (hhead : fdb'.head = none → fdb.head = none) : Tree start fdb' where
  linked i hi := by
    rw [hindex] at hi
    refine (h.linked i hi).imp_right (Or.imp_right (Or.imp (fun hlow j hj => ?_) ?_))
    · exact hlow j (hindex ▸ hj)
    · rintro ⟨p, hp⟩
      exact ⟨p, live_of_mem hp.points (hindex ▸ hp.indexed)⟩
  fresh hnone := hindex.trans (h.fresh (hhead hnone))

theorem setHead (h : Tree start fdb) (i : ForkItem) : Tree start (fdb.setHead i) :=
  h.of_index rfl nofun

theorem hold (h : Tree start fdb) (items : List ForkItem) : Tree start (fdb.hold items) :=
  h.of_index rfl id

/-- `push_block`: the new item is on top of its parent. One without a parent must not be lower than
an item that has lost its own. -/
theorem pushed (h : Tree start fdb) {b : SignedBlock} {item : ForkItem} (hitem : fdb.Linked b item)
    (hroot : b.previous = .null → item.id ∉ fdb.index.map (·.id) → fdb.Whole start) :
    Tree start (fdb.pushed item) where
  linked i hi := by
    have hold : ∀ p ∈ fdb.index, p ∈ (fdb.pushed item).index := fun p hp =>
      mem_insert.mpr (.inl hp)
    have hlive : (∃ p, fdb.Live i p) → ∃ p, (fdb.pushed item).Live i p := fun ⟨p, hp⟩ =>
      ⟨p, live_of_mem hp.points (hold p hp.indexed)⟩
    rcases mem_insert.mp hi with hi | ⟨rfl, -⟩
    · rcases h.linked i hi with hstart | hnull | hlow | hparent
      · exact .inl hstart
      · exact .inr (.inl hnull)
      · -- The lowest item stays the lowest, unless the new one has no parent.
        by_cases hnew : item.id ∈ fdb.index.map (·.id)
        · refine .inr (.inr (.inl fun j hj => ?_))
          exact hlow j ((mem_insert.mp hj).resolve_right fun hj => hj.2 hnew)
        · rcases hitem.line with ⟨-, hnone | hnull⟩ | ⟨q, hq, hfollows⟩
          · rw [h.fresh hnone] at hi
            exact absurd hi List.not_mem_nil
          · have hone : item.num = 1 := by
              rw [ForkItem.num, hitem.data, BlockHeader.blockNum, hnull, numFromId_null]
              rfl
            rcases hroot hnull hnew i hi with hstart | hnull | hle | hparent
            · exact .inl hstart
            · exact .inr (.inl hnull)
            · refine .inr (.inr (.inl fun j hj => ?_))
              rcases mem_insert.mp hj with hj | ⟨rfl, -⟩
              · exact hlow j hj
              · omega
            · exact .inr (.inr (.inr (hlive hparent)))
          · refine .inr (.inr (.inl fun j hj => ?_))
            rcases mem_insert.mp hj with hj | ⟨rfl, -⟩
            · exact hlow j hj
            · have hle := hlow q (fetchBlock_eq_some.mp hq).1
              have hnum := hfollows.num
              omega
      · exact .inr (.inr (.inr (hlive hparent)))
    · rcases hitem.line with ⟨-, hnone | hnull⟩ | ⟨q, hq, hfollows⟩
      · refine .inr (.inr (.inl fun j hj => ?_))
        rcases mem_insert.mp hj with hj | ⟨rfl, -⟩
        · rw [h.fresh hnone] at hj
          exact absurd hj List.not_mem_nil
        · exact Nat.le_refl _
      · exact .inr (.inl (by rw [hitem.data, hnull]))
      · exact .inr (.inr (.inr ⟨q, live_of_mem hfollows (hold q (fetchBlock_eq_some.mp hq).1)⟩))
  fresh hnone := by cases hnone

/-- `set_max_size`: an item whose parent is pruned is one of the lowest that are left. -/
theorem setMaxSize (h : Tree start fdb) (size : Nat) : Tree start (fdb.setMaxSize size) where
  linked i hi := by
    obtain ⟨hi, hrecent⟩ := mem_setMaxSize.mp hi
    rcases h.linked i hi with hstart | hnull | hlow | ⟨p, hp⟩
    · exact .inl hstart
    · exact .inr (.inl hnull)
    · exact .inr (.inr (.inl fun j hj => hlow j (mem_setMaxSize.mp hj).1))
    · by_cases hkept : p ∈ (fdb.setMaxSize size).index
      · exact .inr (.inr (.inr ⟨p, live_of_mem hp.points hkept⟩))
      · refine .inr (.inr (.inl fun j hj => ?_))
        have hpruned : ¬ ∀ head, fdb.head = some head → head.num - size ≤ p.num := fun hall =>
          hkept (mem_setMaxSize.mpr ⟨hp.indexed, hall⟩)
        push Not at hpruned
        obtain ⟨head, hhead, hlt⟩ := hpruned
        have hj := (mem_setMaxSize.mp hj).2 head hhead
        have hnum := hp.num
        omega
  fresh hnone := by
    rw [setMaxSize_head] at hnone
    refine List.eq_nil_iff_forall_not_mem.mpr fun i hi => ?_
    have hi := (mem_setMaxSize.mp hi).1
    rw [h.fresh hnone] at hi
    exact absurd hi List.not_mem_nil

/-- `remove`, of items without other children. -/
theorem removeAll (h : Tree start fdb) {items : List ForkItem}
    (hdetached : Detached fdb.index (items.map (·.id))) : Tree start (fdb.removeAll items) where
  linked i hi := by
    obtain ⟨hi, hid⟩ := mem_removeAll.mp hi
    rcases h.linked i hi with hstart | hnull | hlow | ⟨p, hp⟩
    · exact .inl hstart
    · exact .inr (.inl hnull)
    · exact .inr (.inr (.inl fun j hj => hlow j (mem_removeAll.mp hj).1))
    · refine .inr (.inr (.inr ⟨p, live_of_mem hp.points (mem_removeAll.mpr ⟨hp.indexed, ?_⟩)⟩))
      exact fun hpid => hid (hdetached p hp.indexed hpid i hi hp.points)
  fresh hnone := by
    rw [removeAll_head] at hnone
    refine List.eq_nil_iff_forall_not_mem.mpr fun i hi => ?_
    have hi := (mem_removeAll.mp hi).1
    rw [h.fresh hnone] at hi
    exact absurd hi List.not_mem_nil

end Tree

/-- Fewer items have fewer children. -/
theorem Detached.mono {index index' : List ForkItem} {ids : List BlockId} (h : Detached index ids)
    (hsub : ∀ i ∈ index', i ∈ index) : Detached index' ids :=
  fun p hp hid c hc hfollows => h p (hsub p hp) hid c (hsub c hc) hfollows

end ForkDatabase

open ForkDatabase (LinkedTree Tree Detached Whole)

/-! ## What a call removes -/

/-- The ids removed where the new branch fails: from the failing block up. -/
def removedByBranch (skip : SkipFlags) : List ForkItem → Database → List BlockId
  | [], _ => []
  | i :: rest, d =>
    match (applyInSession skip i.data).run d with
    | .ok _ d' => removedByBranch skip rest d'
    | .error _ _ => (i :: rest).map (·.id)

/-- The ids a switch removes. -/
def removedBySwitch (skip : SkipFlags) (newHead : ForkItem) (d : Database) : List BlockId :=
  match d.forkDb.fetchBranchFrom newHead.id d.headBlockId with
  | .error _ => []
  | .ok (first, second) =>
    let d₁ := { d with forkDb := d.forkDb.hold (first.items ++ second.items) }
    match (popUntil second.back.data.previous d₁.popRounds).run d₁ with
    | .error _ _ => []
    | .ok _ d₂ => removedByBranch skip first.items d₂

/-- The id removed where a block on the head fails. -/
def removedDirectly (skip : SkipFlags) (b : SignedBlock) (d : Database) : List BlockId :=
  match (applyInSession skip b).run d with
  | .ok _ _ => []
  | .error _ _ => [b.id]

/-- The ids `push_block` removes as invalid. -/
def removedByPush (skip : SkipFlags) (b : SignedBlock) (d : Database) : List BlockId :=
  if skip.has skipForkDb then removedDirectly skip b d
  else
    match d.forkDb.pushBlock b with
    | .error _ => []
    | .ok (newBlock, fdb) =>
      if newBlock.data.previous ≠ d.headBlockId then
        if d.headBlockNum < newBlock.num then removedBySwitch skip newBlock { d with forkDb := fdb }
        else []
      else removedDirectly skip b { d with forkDb := fdb }

/-- The index once the block is linked in. -/
def linkedIndex (skip : SkipFlags) (b : SignedBlock) (d : Database) : List ForkItem :=
  if skip.has skipForkDb then d.forkDb.index
  else
    match d.forkDb.pushBlock b with
    | .error _ => d.forkDb.index
    | .ok (_, fdb) => fdb.index

/-- A call that keeps the tree. A block without a parent is taken in only while no item has lost its
own, and what is removed leaves no child behind. -/
structure KeepsTree (start : Option ForkNode) (skip : SkipFlags) (b : SignedBlock) (d : Database) :
    Prop where
  root : skip.has skipForkDb = false → b.previous = .null → ∀ item, d.forkDb.link b = .ok item →
    item.id ∉ d.forkDb.index.map (·.id) → d.forkDb.Whole start
  leaves : Detached (linkedIndex skip b d) (removedByPush skip b d)

instance (a b : ForkItem) : Decidable (a.Follows b) := inferInstanceAs (Decidable (_ = _))

instance (index : List ForkItem) (ids : List BlockId) : Decidable (Detached index ids) :=
  inferInstanceAs (Decidable (∀ p ∈ index, p.id ∈ ids → ∀ c ∈ index, c.Follows p → c.id ∈ ids))

/-! ## Calls -/

/-- A tree of items that were in the index before. -/
def Grown (start : Option ForkNode) (index : List ForkItem) (d : Database) : Prop :=
  Tree start d.forkDb ∧ ∀ i ∈ d.forkDb.index, i ∈ index

section Parts

variable {start : Option ForkNode} {index : List ForkItem} {skip : SkipFlags} {d : Database}

theorem grown_keptByBlocks : KeptByBlocks (Grown start index) where
  write _ _ _ _ _ hd := hd
  resize _ size hd := ⟨hd.1.setMaxSize size, fun i hi =>
    hd.2 i (ForkDatabase.mem_setMaxSize.mp hi).1⟩

theorem popBlock_keeps_grown : Keeps (Grown start index) popBlock := by
  have hreset : Keeps (Grown start index) resetPendingSession := by
    intro d hd
    rw [run_resetPendingSession]
    exact hd
  refine hreset.bind fun _ => Keeps.get.bind fun _ => Keeps.get.bind fun _ => ?_
  split
  · exact .throw _
  · refine (forkDb_keeps fun d _ fdb hfdb hd => ?_).bind fun _ =>
      (modifyStore_keeps grown_keptByBlocks _).bind fun _ => Keeps.modify fun _ hd => hd
    cases hpop : d.forkDb.popBlock with
    | error e =>
      rw [hpop] at hfdb
      cases hfdb
    | ok fdb' =>
      rw [hpop] at hfdb
      cases hfdb
      obtain ⟨-, prev, -, -, -, rfl⟩ := ForkDatabase.popBlock_eq_ok.mp hpop
      exact ⟨hd.1.setHead prev, hd.2⟩

theorem popUntil_keeps_grown (id : BlockId) (rounds : Nat) :
    Keeps (Grown start index) (popUntil id rounds) := by
  induction rounds with
  | zero => exact .pure _
  | succ rounds ih =>
    exact Keeps.get.bind fun _ => Keeps.onlyIf fun _ => popBlock_keeps_grown.bind fun _ => ih

theorem applyItems_keeps_grown (items : List ForkItem) :
    Keeps (Grown start index) (forM items fun i => applyInSession skip i.data : DbM Unit) :=
  Keeps.forM fun i _ => applyInSession_keeps grown_keptByBlocks skip i.data

/-- Removing what has no other children. -/
theorem Grown.removeAll (h : Grown start index d) {items : List ForkItem}
    (hdetached : Detached index (items.map (·.id))) :
    Grown start index { d with forkDb := d.forkDb.removeAll items } :=
  ⟨h.1.removeAll (hdetached.mono h.2), fun i hi => h.2 i (ForkDatabase.mem_removeAll.mp hi).1⟩

theorem restoreBranch_grown {failed : List ForkItem} (old : Branch) (e : Exc)
    (hd : Grown start index d) (hdetached : Detached index (failed.map (·.id))) :
    Grown start index (finalState ((restoreBranch skip failed old e).run d)) := by
  have hremoved := hd.removeAll hdetached
  have hrun : (restoreBranch skip failed old e).run d =
      (do
        modifyForkDb (·.setHead old.front)
        popUntil old.back.data.previous (← get).popRounds
        forM old.items fun i => applyInSession skip i.data
        throw e : DbM Bool).run { d with forkDb := d.forkDb.removeAll failed } := by
    rw [restoreBranch, EStateM.run_bind, run_removeAll]
  have hkeeps : Keeps (Grown start index) (do
      modifyForkDb (·.setHead old.front)
      popUntil old.back.data.previous (← get).popRounds
      forM old.items fun i => applyInSession skip i.data
      throw e : DbM Bool) :=
    (modifyForkDb_keeps fun _ hd => ⟨hd.1.setHead _, hd.2⟩).bind fun _ => Keeps.get.bind fun _ =>
      (popUntil_keeps_grown _ _).bind fun _ => (applyItems_keeps_grown _).bind fun _ => .throw _
  rw [hrun]
  exact hkeeps _ hremoved

theorem applyBranch_grown (old : Branch) (items : List ForkItem) (hd : Grown start index d)
    (hdetached : Detached index (removedByBranch skip items d)) :
    Grown start index (finalState ((applyBranch skip old items).run d)) := by
  induction items generalizing d with
  | nil => exact hd
  | cons i rest ih =>
    have hkeeps : Keeps (Grown start index) (applyInSession skip i.data) :=
      applyInSession_keeps grown_keptByBlocks skip i.data
    rw [removedByBranch] at hdetached
    rw [run_applyBranch_cons]
    cases hrun : (applyInSession skip i.data).run d with
    | ok _ d' =>
      rw [hrun] at hdetached
      exact ih (hkeeps.of_ok hd hrun) hdetached
    | error e d' =>
      rw [hrun] at hdetached
      exact restoreBranch_grown old e (hkeeps.of_error hd hrun) hdetached

theorem switchForks_grown (newHead : ForkItem) (hd : Grown start index d)
    (hdetached : Detached index (removedBySwitch skip newHead d)) :
    Grown start index (finalState ((switchForks skip newHead).run d)) := by
  rw [removedBySwitch] at hdetached
  rw [run_switchForks]
  cases hfetch : d.forkDb.fetchBranchFrom newHead.id d.headBlockId with
  | error e => exact hd
  | ok branches =>
    obtain ⟨first, second⟩ := branches
    rw [hfetch] at hdetached
    let d₁ : Database := { d with forkDb := d.forkDb.hold (first.items ++ second.items) }
    have hd₁ : Grown start index d₁ := ⟨hd.1.hold _, hd.2⟩
    have hpops := popUntil_keeps_grown second.back.data.previous d₁.popRounds d₁ hd₁
    simp only at hdetached ⊢
    cases hpop : (popUntil second.back.data.previous d₁.popRounds).run d₁ with
    | error e d₂ =>
      rw [hpop] at hpops
      exact hpops
    | ok _ d₂ =>
      rw [hpop] at hpops
      rw [hpop] at hdetached
      exact applyBranch_grown second first.items hpops hdetached

theorem applyPushed_grown (b : SignedBlock) (hd : Grown start index d)
    (hdetached : Detached index (removedDirectly skip b d)) :
    Grown start index (finalState ((applyPushed skip b).run d)) := by
  have hkeeps : Keeps (Grown start index) (applyInSession skip b) :=
    applyInSession_keeps grown_keptByBlocks skip b
  rw [removedDirectly] at hdetached
  rw [run_applyPushed]
  cases hrun : (applyInSession skip b).run d with
  | ok _ d' => exact hkeeps.of_ok hd hrun
  | error e d' =>
    rw [hrun] at hdetached
    have hleaf : Detached index ([⟨⟨0, b⟩, [], .singleton _⟩].map ForkItem.id) := hdetached
    exact (hkeeps.of_error hd hrun).removeAll hleaf

/-- **A call** whose block has a place in the tree, and which removes no parent alone, keeps it. -/
theorem pushBlockImpl_tree {b : SignedBlock} (hd : Tree start d.forkDb)
    (hb : KeepsTree start skip b d) :
    Tree start (finalState ((pushBlockImpl skip b).run d)).forkDb := by
  have hleaves := hb.leaves
  rw [linkedIndex, removedByPush] at hleaves
  by_cases hskip : skip.has skipForkDb = true
  · rw [if_pos hskip, if_pos hskip] at hleaves
    rw [pushBlockImpl, hskip]
    exact (applyPushed_grown b ⟨hd, fun _ hi => hi⟩ hleaves).1
  · have hskip' := Bool.eq_false_iff.mpr hskip
    rw [if_neg hskip, if_neg hskip] at hleaves
    rw [run_pushBlockImpl_flags hskip']
    cases hpush : d.forkDb.pushBlock b with
    | error e => exact hd
    | ok r =>
      obtain ⟨newBlock, fdb⟩ := r
      obtain ⟨item, hlink, rfl, rfl⟩ := ForkDatabase.pushBlock_eq_ok.mp hpush
      have hroot := fun hnull hnew => hb.root hskip' hnull item hlink hnew
      have hpushed : Tree start (d.forkDb.pushed item) :=
        hd.pushed (ForkDatabase.link_eq_ok hlink) hroot
      have hgrown : Grown start (d.forkDb.pushed item).index
          { d with forkDb := d.forkDb.pushed item } := ⟨hpushed, fun _ hi => hi⟩
      rw [hpush] at hleaves
      simp only at hleaves ⊢
      by_cases hbuilds : (d.forkDb.raisedHead item).data.previous ≠ d.headBlockId
      · rw [if_pos hbuilds] at hleaves ⊢
        by_cases hhigher : d.headBlockNum < (d.forkDb.raisedHead item).num
        · rw [if_pos hhigher] at hleaves ⊢
          exact (switchForks_grown _ hgrown hleaves).1
        · rw [if_neg hhigher]
          exact hpushed
      · rw [if_neg hbuilds] at hleaves ⊢
        exact (applyPushed_grown b hgrown hleaves).1

theorem pushBlock_tree {b : SignedBlock} (hd : Tree start d.forkDb)
    (hb : KeepsTree start skip b d.settled) :
    Tree start (finalState ((pushBlock skip b).run d)).forkDb := by
  have himpl := pushBlockImpl_tree (d := d.settled) hd hb
  have hpend : ∀ c : Database, Tree start c.forkDb →
      Tree start (c.repended skip d.pendingTrx).forkDb := by
    have hkept : KeptByBlocks fun c => Tree start c.forkDb :=
      ⟨fun _ _ _ _ _ hc => hc, fun _ size hc => hc.setMaxSize size⟩
    exact fun c hc => restorePending_keeps (fun _ => pushTransactionImpl_keeps hkept
      (fun _ hc => hc) fun _ hc => hc) d.pendingTrx c hc
  rw [run_pushBlock_flags, run_releaseItems]
  cases hrun : (pushBlockImpl skip b).run d.settled with
  | ok a c =>
    rw [hrun] at himpl
    exact hpend { c with forkDb := c.forkDb.hold [] } (himpl.hold [])
  | error e c =>
    rw [hrun] at himpl
    exact hpend { c with forkDb := c.forkDb.hold [] } (himpl.hold [])

end Parts

/-! ## Runs -/

/-- The databases reached from an empty fork database, or from one with the block it was started
with, by `push_block` and `pop_block`, whether they return or throw, and by whatever leaves the fork
database alone. `P` is asked of each push and the settled database before it. -/
inductive TreeRun (P : Option ForkNode → SkipFlags → SignedBlock → Database → Prop) :
    Option ForkNode → Database → Prop
  | empty {d : Database} : d.forkDb.index = [] → TreeRun P none d
  | startBlock {d : Database} (b : SignedBlock) : d.forkDb.index = [] →
      TreeRun P (some ⟨d.forkDb.nextPtr, b⟩) { d with forkDb := d.forkDb.startBlock b }
  | pushBlock {start : Option ForkNode} {d : Database} (skip : SkipFlags) (b : SignedBlock) :
      TreeRun P start d → P start skip b d.settled →
        TreeRun P start (finalState ((pushBlock skip b).run d))
  | popBlock {start : Option ForkNode} {d : Database} :
      TreeRun P start d → TreeRun P start (finalState (popBlock.run d))
  | aside {start : Option ForkNode} {d d' : Database} :
      TreeRun P start d → d'.forkDb = d.forkDb → TreeRun P start d'

variable {start : Option ForkNode} {d d' : Database}

theorem TreeRun.tree (h : TreeRun KeepsTree start d) : Tree start d.forkDb := by
  induction h with
  | empty hindex => exact .empty hindex
  | startBlock b hindex => exact .startBlock hindex b
  | pushBlock skip b _ hb ih => exact pushBlock_tree ih hb
  | @popBlock start d _ ih =>
    have hgrown : Grown start d.forkDb.index d := ⟨ih, fun _ hi => hi⟩
    exact (popBlock_keeps_grown d hgrown).1
  | aside _ hsame ih => exact hsame ▸ ih

/-- **A linked tree.** In every run whose blocks without a parent come while no item has lost its
own, and in which no removed item leaves a child behind, every item of the index is linked but for
the exceptions there are. -/
theorem treeRun_linked (h : TreeRun KeepsTree start d) : d.forkDb.LinkedTree start :=
  h.tree.linked

/-- The database after some calls, whether they return or throw. -/
def afterCalls (blocks : List SignedBlock) (d : Database) : Database :=
  blocks.foldl (fun d b => finalState ((pushBlock skipNothing b).run d)) d

theorem TreeRun.afterCalls (h : TreeRun (fun _ _ _ _ => True) start d) (blocks : List SignedBlock) :
    TreeRun (fun _ _ _ _ => True) start (NewsChain.afterCalls blocks d) := by
  induction blocks generalizing d with
  | nil => exact h
  | cons b blocks ih => exact ih (.pushBlock skipNothing b h trivial)

end Calls

/-! ## A branch with two tips -/

/-- A switch to a branch whose second block does not apply: that block is removed, and its sibling and
its parent stay. -/
theorem treeRun_linked_switch :
    let _ : Node := smallNode
    ∃ d : Database, d.headBlockNum = 2 ∧ d.forkDb.index.length = 3 ∧ d.forkDb.LinkedTree none := by
  intro node
  let x : SignedBlock := blockOn .null genesisTime []
  let x' : SignedBlock := blockOn x.id (genesisTime + 3) []
  let y : SignedBlock := blockOn x.id (genesisTime + 6) []
  let z : SignedBlock :=
    { blockOn y.id (genesisTime + 9) [] with transactionMerkleRoot := merkleRoot [] + 1 }
  let push (b : SignedBlock) (d : Database) : Database := finalState ((pushBlock skipNothing b).run d)
  let d₁ := push x .genesis
  let d₂ := push x' d₁
  let d₃ := push y d₂
  let d := push z d₃
  have hx : KeepsTree none skipNothing x (Database.genesis).settled :=
    ⟨fun _ _ _ _ _ i hi => absurd hi List.not_mem_nil, by decide +kernel⟩
  have hx' : KeepsTree none skipNothing x' d₁.settled :=
    ⟨fun _ hnull => absurd hnull (by decide +kernel), by decide +kernel⟩
  have hy : KeepsTree none skipNothing y d₂.settled :=
    ⟨fun _ hnull => absurd hnull (by decide +kernel), by decide +kernel⟩
  have hz : KeepsTree none skipNothing z d₃.settled :=
    ⟨fun _ hnull => absurd hnull (by decide +kernel), by decide +kernel⟩
  have hrun : TreeRun KeepsTree none d :=
    .pushBlock skipNothing z (.pushBlock skipNothing y (.pushBlock skipNothing x'
      (.pushBlock skipNothing x (.empty rfl) hx) hx') hy) hz
  exact ⟨d, by decide +kernel, by decide +kernel, treeRun_linked hrun⟩

/-- A block that does not apply has two children. When the chain switches to a block above the first,
the branch of that block is removed, and the second child has lost its parent. -/
theorem invalid_branch_orphans :
    ¬ ∀ start (d : @Database smallNode), @TreeRun smallNode (fun _ _ _ _ => True) start d →
      @ForkDatabase.LinkedTree smallNode start (@Database.forkDb smallNode d) := by
  let _ : Node := smallNode
  let x : SignedBlock := blockOn .null genesisTime []
  let x' : SignedBlock := blockOn x.id (genesisTime + 3) []
  let bad : SignedBlock :=
    { blockOn .null (genesisTime + 3) [] with transactionMerkleRoot := merkleRoot [] + 1 }
  let child : SignedBlock := blockOn bad.id (genesisTime + 6) []
  let second : SignedBlock := blockOn bad.id (genesisTime + 9) []
  let top : SignedBlock := blockOn child.id (genesisTime + 12) []
  intro h
  obtain ⟨d, hlinked, hindex⟩ : ∃ d : Database, d.forkDb.LinkedTree none ∧
      d.forkDb.index.map (·.data) = [x, x', second] :=
    ⟨afterCalls [x, x', bad, child, second, top] .genesis, h none _ (.afterCalls (.empty rfl) _),
      by decide +kernel⟩
  have hmem : ∀ c ∈ [x, x', second], ∃ i ∈ d.forkDb.index, i.data = c := by
    intro c hc
    rw [← hindex] at hc
    exact List.mem_map.mp hc
  obtain ⟨i, hi, hidata⟩ := hmem second (by simp)
  obtain ⟨j, hj, hjdata⟩ := hmem x (by simp)
  have hparent : ∀ c ∈ [x, x', second], second.previous ≠ c.id := by decide +kernel
  rcases hlinked i hi with hstart | hnull | hlow | ⟨p, hp⟩
  · cases hstart
  · rw [hidata] at hnull
    exact absurd hnull (by decide +kernel)
  · have hle := hlow j hj
    rw [ForkItem.num, ForkItem.num, hidata, hjdata] at hle
    exact absurd hle (by decide +kernel)
  · have hpdata : p.data ∈ [x, x', second] := hindex ▸ List.mem_map_of_mem hp.indexed
    exact hparent p.data hpdata (hidata ▸ hp.id)

end NewsChain
