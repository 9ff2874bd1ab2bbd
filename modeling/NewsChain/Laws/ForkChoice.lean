import NewsChain.Laws.ForkTree
import NewsChain.Laws.MainChain

/-!
# Fork choice

What `_push_block` does where it returns. It leaves the main chain alone, or puts the block on top of
it, or takes the chain back to an ancestor of the block and applies the line of the block from there
(`Step`). The head of the fork database plays no part in the outcome: that it is on the line of the
new main chain while that is applied is enough for the log to get the right block.
-/

namespace NewsChain

open EStateM (Result)
open ForkDatabase (Linked Trimmed cacheDepth)

variable [Node]

/-! ## Applying a line -/

/-- The store and the log of a main chain, with no pending session. -/
structure OnMain (chain : List SignedBlock) (d : Database) : Prop where
  settled : d.pendingSession = false
  onChain : OnChain chain d.store d.blockLog
  logged : Logged chain d.blockLog

/-- The items of a line from a number on are in the index. -/
def Cached (fdb : ForkDatabase) (t : ForkItem) (low : Nat) : Prop :=
  ∀ a ∈ t :: t.ancestors, low ≤ a.num → a ∈ fdb.index

/-- An item goes on top of the chain: the line below it is the chain. -/
structure Tops (t : ForkItem) (chain : List SignedBlock) : Prop where
  blocks : t.blocks = t.data :: chain
  num : t.num = chain.length + 1
  previous : t.data.previous = headIdOf chain

variable {chain : List SignedBlock} {d d' : Database} {t : ForkItem}

/-- The log has grown to the block that is irreversible at a height. -/
def Database.LogsUpTo (d' d : Database) (height : Nat) : Prop :=
  d'.blockLog.blocks.length = max d.blockLog.blocks.length (height - irreversibleBlockNum)

theorem Tops.length (h : Tops t chain) : t.blocks.length = t.num := by
  rw [h.blocks, h.num, List.length_cons]

/-- The line of an item is as long as its number, if it goes on top of a chain further down. -/
theorem Tops.length_above {item : ForkItem} {depth : Nat} (h : Tops t chain)
    (hback : (item :: item.ancestors)[depth]? = some t) : item.blocks.length = item.num := by
  obtain ⟨-, hnum⟩ := ForkItem.ancestors_getElem hback
  have hlt := (List.getElem?_eq_some_iff.mp hback).1
  have hdrop := congrArg List.length (ForkItem.blocks_getElem hback)
  rw [h.length, List.length_drop] at hdrop
  rw [← ForkItem.length_blocks] at hlt
  omega

theorem Tops.next (h : Tops t chain) {u : ForkItem} (hu : u.Follows t) : Tops u t.blocks where
  blocks := by
    rw [ForkItem.blocks, hu]
    rfl
  num := by
    have hnum := h.num
    rw [hu.num, h.blocks, List.length_cons]
    omega
  previous := by
    rw [hu.previous, h.blocks]
    rfl

omit [Node] in
theorem forkWindow_entered {gpo : DynamicGlobalProperty} {height : Nat} (hlt : height < 2 ^ 32)
    (hnum : gpo.headBlockNum = height)
    (hlast : gpo.lastIrreversibleBlockNum = height - irreversibleBlockNum) :
    forkWindow gpo = min height irreversibleBlockNum + 1 := by
  simp only [forkWindow, hnum, hlast, irreversibleBlockNum]
  omega

/-- The block of an item on top of the chain, where the block that becomes irreversible is not
found elsewhere than on the line of the item. -/
theorem OnMain.applied (h : OnMain chain d) (ht : Tops t chain)
    (hfetch : ∀ i, chain.length = d.blockLog.blocks.length + irreversibleBlockNum →
      d.forkDb.fetchBlockOnMainBranchByNumber (d.blockLog.blocks.length + 1) = some i →
        t.blocks.reverse[d.blockLog.blocks.length]? = some i.data)
    (hrun : (applyInSession skipNothing t.data).run d = .ok () d') :
    OnMain t.blocks d' ∧ d'.LogsUpTo d t.num ∧
      d'.forkDb = d.forkDb.setMaxSize (min t.num irreversibleBlockNum + 1) := by
  have hnum : t.data.blockNum = chain.length + 1 := ht.num
  have hprev : t.data.previous = d.store.content.gpo.headBlockId := by
    rw [ht.previous, h.onChain.headBlockId]
  have hheight : d.headBlockNum = chain.length := h.onChain.headBlockNum
  have hout := h.onChain.store.applyInSession (hnum.trans (congrArg (· + 1) hheight.symm))
  rw [hrun] at hout
  cases hout with
  | @applied o o' log henter hlog hleave =>
    have hlast := h.onChain.lastIrreversible hnum henter
    have hwindow : forkWindow o.raised.gpo = min t.num irreversibleBlockNum + 1 := by
      refine forkWindow_entered t.data.blockNum_lt ?_ (hlast.trans (by rw [ht.num]))
      rw [Objects.raised, DynamicGlobalProperty.raised_headBlockNum, gpo_enterBlock henter]
      rfl
    have hlog' := hlog
    rw [hlast] at hlog'
    refine ⟨⟨h.settled, ?_, ?_⟩, ?_, by simp only [hwindow]⟩
    · rw [ht.blocks]
      exact h.onChain.apply hprev hnum henter hlog hleave
    · rw [ht.blocks] at hfetch ⊢
      exact h.onChain.logged_apply h.logged hfetch hlog'
    · rw [Database.LogsUpTo, (h.onChain.logUpTo_next hlog').1, ht.num]
      rfl

/-- A block of the line of an item on top of a chain, by its number. -/
theorem Tops.getElem_reverse (h : Tops t chain) {a : ForkItem} (ha : a ∈ t :: t.ancestors) {n : Nat}
    (hnum : a.num = n + 1) : t.blocks.reverse[n]? = some a.data := by
  obtain ⟨k, hk⟩ := List.mem_iff_getElem?.mp ha
  have hdata := ForkItem.data_getElem hk
  have hdepth := (ForkItem.ancestors_getElem hk).2
  have hlt := (List.getElem?_eq_some_iff.mp hdata).1
  have hlength := h.length
  rw [List.getElem?_reverse (by omega), ← hdata]
  congr 1
  omega

/-- The block that becomes irreversible is found where the head of the fork database is on a line over
the chain that is in the index down to it. -/
theorem Tops.findable (h : Tops t chain) {fdb : ForkDatabase} {log : BlockLog} {head : ForkItem}
    (hhead : fdb.head = some head) (hline : head ∈ t :: t.ancestors)
    (hlow : log.blocks.length + 1 ≤ head.num)
    (hcached : ∀ a ∈ t.ancestors, log.blocks.length + 1 ≤ a.num → a ∈ fdb.index)
    (c : SignedBlock) : Findable fdb log (c :: chain) := by
  intro hlength
  have hnum := h.num
  have hblocks := h.length
  rw [List.length_cons] at hlength
  obtain ⟨a, ha, hanum⟩ := t.ancestor_of_num (n := log.blocks.length + 1) (by omega) (by omega)
  have hmem := List.mem_of_getElem? ha
  have hdata := h.getElem_reverse hmem hanum
  -- It is below the head on the line, and below the top.
  have hindex : a ∈ fdb.index := by
    rcases List.mem_cons.mp hmem with rfl | hbelow
    · exfalso
      simp only [irreversibleBlockNum] at hlength
      omega
    · exact hcached a hbelow hanum.ge
  obtain ⟨k, hk⟩ := List.mem_iff_getElem?.mp hline
  obtain ⟨hdrop, hknum⟩ := ForkItem.ancestors_getElem hk
  have hbelow : a ∈ head :: head.ancestors := by
    rw [hdrop]
    refine List.mem_of_getElem? (i := t.num - (log.blocks.length + 1) - k) ?_
    rw [List.getElem?_drop, ← ha]
    congr 1
    omega
  have hcached' : ∀ c ∈ head.ancestors, a.num ≤ c.num → c ∈ fdb.index := by
    intro c hc hle
    refine hcached c ?_ (by omega)
    have htail : head.ancestors = t.ancestors.drop k := by
      have := congrArg List.tail hdrop
      rwa [List.tail_cons, List.tail_drop, List.drop_succ_cons] at this
    rw [htail] at hc
    exact List.mem_of_mem_drop hc
  refine ⟨a, ?_, hanum, ?_⟩
  · rw [← hanum]
    exact ForkDatabase.fetchBlockOnMainBranchByNumber_of_line hindex hhead hbelow hcached'
  · rw [← hdata, h.blocks, List.reverse_cons, List.reverse_cons]
    have hlt : log.blocks.length < chain.reverse.length := by
      rw [List.length_reverse]
      simp only [irreversibleBlockNum] at hlength
      omega
    rw [List.getElem?_append_left hlt, List.getElem?_append_left hlt]

/-- The block of an item on top of the chain, where the head of the fork database is on its line. -/
theorem OnMain.apply (h : OnMain chain d) (ht : Tops t chain) {head : ForkItem}
    (hhead : d.forkDb.head = some head) (hline : head ∈ t :: t.ancestors)
    (hcached : Cached d.forkDb t (d.blockLog.blocks.length + 1))
    (hrun : (applyInSession skipNothing t.data).run d = .ok () d') :
    OnMain t.blocks d' ∧ d'.LogsUpTo d t.num ∧
      d'.forkDb = d.forkDb.setMaxSize (min t.num irreversibleBlockNum + 1) := by
  refine h.applied ht (fun i hlength hi => ?_) hrun
  -- The block that becomes irreversible is one of the line.
  have hnum := ht.num
  have hblocks := ht.length
  obtain ⟨hmem, hinum⟩ := ForkDatabase.found_on_line (by omega) (by omega) hhead hline
    (fun a ha hanum => hcached a ha hanum.ge) hi
  exact ht.getElem_reverse hmem hinum

/-- **The next block** of a main chain, where the block that becomes irreversible is found: it is
applied where the objects take it, and refused without a trace in the store where they do not. -/
theorem OnMain.next (h : OnMain chain d) (ht : Tops t chain)
    (hfind : Findable d.forkDb d.blockLog t.blocks) :
    (∃ d', (applyInSession skipNothing t.data).run d = .ok () d' ∧ OnMain t.blocks d' ∧
      d'.LogsUpTo d t.num ∧
      d'.forkDb = d.forkDb.setMaxSize (min t.num irreversibleBlockNum + 1) ∧
      (Objects.applyBlock skipNothing t.data).run d.store.content = .ok () d'.store.content) ∨
    ∃ e, (applyInSession skipNothing t.data).run d = .error e (d.noting t.data) ∧
      ¬ Returned ((Objects.applyBlock skipNothing t.data).run d.store.content) := by
  have hnum : t.data.blockNum = chain.length + 1 := ht.num
  have hheight : d.headBlockNum = chain.length := h.onChain.headBlockNum
  have hout := h.onChain.store.applyInSession (hnum.trans (congrArg (· + 1) hheight.symm))
  cases hrun : (applyInSession skipNothing t.data).run d with
  | ok _ d' =>
    left
    refine ⟨d', rfl, ?_⟩
    have happlied := h.applied ht (fun i hlength hi => ?_) hrun
    · refine ⟨happlied.1, happlied.2.1, happlied.2.2, ?_⟩
      obtain ⟨r, o, happly, hstore⟩ := applyInSession_eq_ok hrun
      rw [happly, hstore, Snapshots.put_content]
    · obtain ⟨i', hi', -, hdata⟩ := hfind (by rw [ht.length, ht.num, hlength])
      rw [hi] at hi'
      cases hi'
      exact hdata
  | error e d' =>
    right
    rw [hrun] at hout
    cases hout with
    | refused henter =>
      refine ⟨e, rfl, fun hreturned => ?_⟩
      obtain ⟨_, o, happly⟩ := hreturned
      obtain ⟨o₁, henter', -⟩ := applyBlock_eq_ok.mp happly
      rw [henter] at henter'
      cases henter'
    | unlogged henter hlog =>
      exfalso
      rw [h.onChain.lastIrreversible hnum henter] at hlog
      rw [ht.blocks] at hfind
      obtain ⟨log', hlog'⟩ := h.onChain.logUpTo_returns hfind
      rw [hlog'] at hlog
      cases hlog

omit [Node] in
/-- The size that goes with an item keeps what is recent for it, if the head is on its line. -/
theorem trimmed_setMaxSize [Env] {fdb : ForkDatabase} {t head : ForkItem}
    (hhead : fdb.head = some head) (hline : head ∈ t :: t.ancestors) :
    Trimmed (t.num - cacheDepth) fdb
      (fdb.setMaxSize (min t.num irreversibleBlockNum + 1)) := by
  refine Trimmed.setMaxSize fun head' hhead' => ?_
  rw [hhead] at hhead'
  cases hhead'
  exact ForkItem.num_le_of_mem hline

omit [Node] in
/-- The lowest item of a branch is on the line of the highest. -/
theorem mem_line_of_climbs [Env] {t top : ForkItem} {items : List ForkItem}
    (hclimbs : (t :: items).IsChain fun a b => b.Follows a)
    (htop : (t :: items).getLast? = some top) : t ∈ top :: top.ancestors := by
  induction items generalizing t with
  | nil =>
    obtain rfl : t = top := by simpa using htop
    exact List.mem_cons_self
  | cons u items ih =>
    obtain ⟨hfollows, hrest⟩ := List.isChain_cons_cons.mp hclimbs
    rw [List.getLast?_cons_cons] at htop
    exact List.mem_cons_of_mem _ (ForkItem.parent_mem (ih hrest htop) hfollows)

/-- The items of a branch above the one on top of the store. -/
theorem OnMain.applyItems {items : List ForkItem} {top : ForkItem} (h : OnMain t.blocks d)
    (ht : Tops t chain) (hclimbs : (t :: items).IsChain fun a b => b.Follows a)
    (htop : (t :: items).getLast? = some top) {head : ForkItem}
    (hhead : d.forkDb.head = some head) (hline : head ∈ t :: t.ancestors)
    (hcached : Cached d.forkDb top (d.blockLog.blocks.length + 1))
    (hlogged : t.num ≤ d.blockLog.blocks.length + irreversibleBlockNum)
    (hrun : (forM items fun i => applyInSession skipNothing i.data : DbM Unit).run d =
      .ok () d') :
    OnMain top.blocks d' ∧ d'.LogsUpTo d top.num ∧
      Trimmed (top.num - cacheDepth) d.forkDb d'.forkDb := by
  induction items generalizing chain d t with
  | nil =>
    obtain rfl : t = top := by simpa using htop
    rw [List.forM_nil, EStateM.run_pure] at hrun
    cases hrun
    exact ⟨h, by rw [Database.LogsUpTo]; omega, .refl _ _⟩
  | cons u items ih =>
    obtain ⟨hfollows, hrest⟩ := List.isChain_cons_cons.mp hclimbs
    rw [List.getLast?_cons_cons] at htop
    rw [List.forM_cons] at hrun
    obtain ⟨_, d₁, happly, hrun⟩ := bind_eq_ok.mp hrun
    have hu := ht.next hfollows
    have hunum := hfollows.num
    have hmem := mem_line_of_climbs hrest htop
    have hline' : head ∈ u :: u.ancestors := by
      rw [hfollows.ancestors]
      exact List.mem_cons_of_mem _ hline
    obtain ⟨hmain, hlog, hfork⟩ := h.apply hu hhead hline'
      (fun a ha hlow => hcached a (ForkItem.ancestors_trans hmem ha) hlow) happly
    have htrim : Trimmed (u.num - cacheDepth) d.forkDb d₁.forkDb := by
      rw [hfork]
      exact trimmed_setMaxSize hhead hline'
    rw [Database.LogsUpTo] at hlog
    have hwindow : u.num ≤ d₁.blockLog.blocks.length + irreversibleBlockNum := by omega
    have hlow' : u.num - cacheDepth ≤ d₁.blockLog.blocks.length + 1 := by
      simp only [cacheDepth, irreversibleBlockNum] at hwindow ⊢
      omega
    obtain ⟨hmain', hlog', htrim'⟩ := ih hmain hu hrest htop (htrim.head.trans hhead) hline'
      (fun a ha hlow => htrim.kept a (hcached a ha (by omega)) (by omega)) hwindow hrun
    have hle := ForkItem.num_le_of_mem hmem
    rw [Database.LogsUpTo] at hlog'
    exact ⟨hmain', by rw [Database.LogsUpTo]; omega, (htrim.mono (by omega)).trans htrim'⟩

/-- A branch on top of the store, where the head of the fork database is its back. -/
theorem OnMain.applyBranch {br : Branch} (h : OnMain chain d) (ht : Tops br.back chain)
    (hclimbs : br.items.IsChain fun a b => b.Follows a) (hhead : d.forkDb.head = some br.back)
    (hcached : Cached d.forkDb br.front (d.blockLog.blocks.length + 1))
    (hrun : (forM br.items fun i => applyInSession skipNothing i.data : DbM Unit).run d =
      .ok () d') :
    OnMain br.front.blocks d' ∧ d'.LogsUpTo d br.front.num ∧
      Trimmed (br.front.num - cacheDepth) d.forkDb d'.forkDb := by
  have hfront : br.items.getLast? = some br.front :=
    (List.getLast_eq_iff_getLast?_eq_some (List.cons_ne_nil _ _)).mp rfl
  rw [Branch.items] at hclimbs hfront hrun
  rw [List.forM_cons] at hrun
  obtain ⟨_, d₁, happly, hrest⟩ := bind_eq_ok.mp hrun
  have hmem := mem_line_of_climbs hclimbs hfront
  have hle := ForkItem.num_le_of_mem hmem
  obtain ⟨hmain, hlog, hfork⟩ := h.apply ht hhead List.mem_cons_self
    (fun a ha hlow => hcached a (ForkItem.ancestors_trans hmem ha) hlow) happly
  have htrim : Trimmed (br.back.num - cacheDepth) d.forkDb d₁.forkDb := by
    rw [hfork]
    exact trimmed_setMaxSize hhead List.mem_cons_self
  rw [Database.LogsUpTo] at hlog
  have hwindow : br.back.num ≤ d₁.blockLog.blocks.length + irreversibleBlockNum := by omega
  have hlow : br.back.num - cacheDepth ≤ d₁.blockLog.blocks.length + 1 := by
    simp only [cacheDepth, irreversibleBlockNum] at hwindow ⊢
    omega
  obtain ⟨hmain', hlog', htrim'⟩ := hmain.applyItems ht hclimbs hfront (htrim.head.trans hhead)
    List.mem_cons_self
    (fun a ha hlow' => htrim.kept a (hcached a ha (by omega)) (by omega)) hwindow hrest
  rw [Database.LogsUpTo] at hlog'
  exact ⟨hmain', by rw [Database.LogsUpTo]; omega, (htrim.mono (by omega)).trans htrim'⟩

/-! ## Taking the chain back -/

/-- Popping to a block takes the chain back to it, and the head of the fork database as many items
down its line. The undo stack may run out on the way, but then the state's head stays where it is
and the block is not reached. -/
theorem OnMain.popUntil (h : OnMain chain d) {id : BlockId} {top : ForkItem}
    (hhead : d.forkDb.head = some top)
    (hrun : (NewsChain.popUntil id d.popRounds).run d = .ok () d') :
    ∃ j head, j ≤ chain.length ∧ (top :: top.ancestors)[j]? = some head ∧
      OnMain (chain.drop j) d' ∧ d'.forkDb = d.forkDb.setHead head ∧
        d'.blockLog = d.blockLog ∧ d'.headBlockId = id := by
  let Down (x : Database) : Prop := ∃ j head, j ≤ chain.length ∧
    (top :: top.ancestors)[j]? = some head ∧ OnMain (chain.drop j) x ∧
      x.forkDb = d.forkDb.setHead head ∧ x.blockLog = d.blockLog
  let P (x : Database) : Prop := x.pendingSession = false ∧
    (Down x ∨ x.store.frames = [] ∧ x.headBlockId ≠ id)
  have hstuck : ∀ x : Database, x.store.frames = [] → x.store.undo = x.store := fun x hframes => by
    simp only [Snapshots.undo, hframes]
  have hpop : ∀ x x', P x → x.headBlockId ≠ id → popBlock.run x = .ok () x' → P x' := by
    rintro x x' ⟨hsettled, hx⟩ hid hpop
    rw [run_popBlock hsettled] at hpop
    split at hpop
    · cases hpop
    · split at hpop
      · cases hpop
      · rename_i headBlock _ fdb hfdb
        obtain ⟨head, prev, hxhead, hfollows, -, rfl⟩ := ForkDatabase.popBlock_eq_ok.mp hfdb
        cases hpop
        refine ⟨hsettled, ?_⟩
        by_cases hframes : x.store.frames = []
        · refine .inr ⟨?_, ?_⟩
          · simp only [hstuck x hframes, hframes]
          · simp only [Database.headBlockId, Database.gpo, hstuck x hframes]
            exact hid
        · rcases hx with ⟨j, top', hj, htop, hmain, hfork, hlog⟩ | ⟨hnil, -⟩
          · rw [hfork, ForkDatabase.setHead_head, Option.some.injEq] at hxhead
            subst hxhead
            have hpos := List.length_pos_iff.mpr hframes
            have hcount := hmain.onChain.frames
            rw [List.length_drop] at hcount
            have hlt : j < chain.length := by omega
            have honChain := hmain.onChain
            have hlogged := hmain.logged
            rw [List.drop_eq_getElem_cons hlt] at honChain hlogged
            refine .inl ⟨j + 1, prev, hlt, ForkItem.getElem_follows htop hfollows,
              ⟨hsettled, honChain.undo hframes, honChain.logged_undo hframes hlogged⟩, ?_, hlog⟩
            simp only [hfork, ForkDatabase.setHead]
          · exact absurd hnil hframes
  have hstart : P d := ⟨h.settled, .inl ⟨0, top, Nat.zero_le _, rfl, h, by
    simp only [ForkDatabase.setHead, ← hhead], rfl⟩⟩
  rcases popUntil_cases (P := P) (fun _ hx => hx.1) hpop hstart (Nat.le_refl _) with
    ⟨d₂, hrun₂, ⟨-, hdown⟩, hid⟩ | ⟨e, d₂, hrun₂, -⟩
  · rw [hrun] at hrun₂
    cases hrun₂
    rcases hdown with ⟨j, head, hj, htop, hmain, hfork, hlog⟩ | ⟨-, hne⟩
    · exact ⟨j, head, hj, htop, hmain, hfork, hlog, hid⟩
    · exact absurd hid hne
  · rw [hrun] at hrun₂
    cases hrun₂

/-! ## What a push that returns does -/

/-- A branch that was applied without a failure. -/
theorem applyBranch_eq_ok {skip : SkipFlags} {old : Branch} {items : List ForkItem}
    {answer : Bool} (h : (applyBranch skip old items).run d = .ok answer d') :
    answer = true ∧
      (forM items fun i => applyInSession skip i.data : DbM Unit).run d = .ok () d' := by
  induction items generalizing d with
  | nil =>
    rw [applyBranch, EStateM.run_pure] at h
    cases h
    exact ⟨rfl, rfl⟩
  | cons i items ih =>
    rw [run_applyBranch_cons] at h
    cases happly : (applyInSession skip i.data).run d with
    | ok _ d₁ =>
      rw [happly] at h
      obtain ⟨hanswer, hrun⟩ := ih h
      refine ⟨hanswer, ?_⟩
      rw [List.forM_cons]
      exact bind_eq_ok.mpr ⟨_, _, happly, hrun⟩
    | error e d₁ =>
      simp only [happly, run_restoreBranch] at h
      split at h
      · cases h
      · split at h <;> cases h

/-- What a push that returns makes of the main chain and the fork database, and its answer. -/
inductive Step (chain : List SignedBlock) (fdb : ForkDatabase) (b : SignedBlock) :
    Bool → List SignedBlock → ForkDatabase → Prop
  /-- The block is no higher than the chain. -/
  | ignored {item : ForkItem} :
      fdb.Linked b item → item.num ≤ chain.length →
      Step chain fdb b false chain ((fdb.pushed item).hold [])
  /-- The block builds on the head. -/
  | extended {item : ForkItem} :
      fdb.Linked b item → fdb.raisedHead item = item → Tops item chain →
      Step chain fdb b true item.blocks
        (((fdb.pushed item).setMaxSize (min item.num irreversibleBlockNum + 1)).hold [])
  /-- The block is one higher, on another branch, which leaves the chain `depth` blocks down. -/
  | switched {item : ForkItem} {first second : Branch} {depth : Nat} {fdb' : ForkDatabase} :
      fdb.Linked b item → b.previous ≠ headIdOf chain → item.num = chain.length + 1 →
      (fdb.pushed item).fetchBranchFrom item.id (headIdOf chain) = .ok (first, second) →
      (item :: item.ancestors)[depth]? = some first.back → Tops first.back (chain.drop depth) →
      Trimmed (item.num - cacheDepth) ((fdb.pushed item).setHead first.back) fdb' →
      Step chain fdb b true item.blocks fdb'

/-- What holds of a settled database where no push has thrown. -/
structure Kept (pushed chain : List SignedBlock) (d : Database) : Prop where
  main : OnMain chain d
  logs : d.blockLog.blocks.length = chain.length - irreversibleBlockNum
  forest : Forest pushed chain d.forkDb

theorem kept_genesis : Kept [] [] .genesis :=
  ⟨⟨rfl, .genesis, List.nil_prefix⟩, rfl, .empty⟩

namespace Kept

variable {pushed : List SignedBlock} {b : SignedBlock} {item : ForkItem}

theorem headBlockId (h : Kept pushed chain d) : d.headBlockId = headIdOf chain :=
  h.main.onChain.headBlockId

theorem headBlockNum (h : Kept pushed chain d) : d.headBlockNum = chain.length :=
  h.main.onChain.headBlockNum

/-- A block on the head, unless its number wraps around. -/
theorem blockNum_of_previous (h : Kept pushed chain d) (hprev : b.previous = d.headBlockId)
    (hpos : chain ≠ [] → 0 < b.blockNum) : b.blockNum = chain.length + 1 := by
  have hlt := h.main.onChain.length_lt
  have hnum := h.main.onChain.linked.numFromId_headIdOf
  have hvalue : b.blockNum = (chain.length % 2 ^ 32 + 1) % 2 ^ 32 := by
    rw [BlockHeader.blockNum, hprev, h.headBlockId, hnum]
  cases chain with
  | nil => exact hvalue
  | cons c rest =>
    have := hpos (List.cons_ne_nil _ _)
    simp only [List.length_cons] at *
    omega

/-- A block that is linked in has a number other than 0 once there is a chain. -/
theorem blockNum_pos (h : Kept pushed chain d) (hitem : d.forkDb.Linked b item)
    (hne : chain ≠ []) : 0 < b.blockNum := by
  cases hold : d.forkDb.head with
  | none => exact absurd (h.forest.fresh hold).2 hne
  | some head =>
    have := hitem.recent head hold
    omega

/-- A block on the head goes on top of the chain. -/
theorem tops (h : Kept pushed chain d) (hitem : d.forkDb.Linked b item)
    (hprev : b.previous = d.headBlockId) : Tops item chain := by
  have hnum : item.num = chain.length + 1 := by
    rw [ForkItem.num, hitem.data]
    exact h.blockNum_of_previous hprev (h.blockNum_pos hitem)
  have hprev' : item.data.previous = headIdOf chain := by
    rw [hitem.data, hprev, h.headBlockId]
  exact ⟨h.forest.blocks_eq hitem (j := 0) List.mem_cons_self (Nat.zero_le _) hprev' hnum, hnum,
    hprev'⟩

/-- The new item is cached with what is recent on its line. -/
theorem cached (h : Kept pushed chain d) (hitem : d.forkDb.Linked b item)
    (hnum : chain.length < item.num) :
    Cached (d.forkDb.pushed item) item (d.blockLog.blocks.length + 1) := by
  have hwindow := h.main.onChain.window
  intro a ha hlow
  refine (h.forest.mem_pushed hnum).mpr ?_
  rcases List.mem_cons.mp ha with rfl | ha
  · exact .inr rfl
  · refine .inl (h.forest.ancestor_mem hitem ha ?_)
    simp only [cacheDepth, irreversibleBlockNum] at hwindow ⊢
    omega

/-- A block on the head that is applied. -/
theorem extend (h : Kept pushed chain d) (hitem : d.forkDb.Linked b item)
    (hnew : d.forkDb.raisedHead item = item) (hprev : b.previous = d.headBlockId) {answer : Bool}
    (hrun : (applyPushed skipNothing b).run { d with forkDb := d.forkDb.pushed item } =
      .ok answer d') :
    answer = true ∧ OnMain item.blocks d' ∧ d'.LogsUpTo d item.num ∧
      d'.forkDb = (d.forkDb.pushed item).setMaxSize (min item.num irreversibleBlockNum + 1) := by
  have ht := h.tops hitem hprev
  rw [run_applyPushed] at hrun
  cases happly : (applyInSession skipNothing b).run { d with forkDb := d.forkDb.pushed item } with
  | error e d₁ =>
    rw [happly] at hrun
    cases hrun
  | ok _ d₁ =>
    rw [happly] at hrun
    cases hrun
    rw [← hitem.data] at happly
    have hmain : OnMain chain { d with forkDb := d.forkDb.pushed item } :=
      ⟨h.main.settled, h.main.onChain, h.main.logged⟩
    have hhead : (d.forkDb.pushed item).head = some item := congrArg some hnew
    have hnum := ht.num
    obtain ⟨hmain', hlog, hfork⟩ := hmain.apply ht hhead List.mem_cons_self
      (h.cached hitem (by omega)) happly
    exact ⟨rfl, hmain', hlog, hfork⟩

omit [Node] in
/-- The back of a branch is on the line the branch was cut from. -/
theorem back_of_line [Env] {fdb : ForkDatabase} {i : ForkItem} {br : Branch}
    (h : ∃ below, fdb.lineage i = br.items.reverse ++ below) :
    (i :: i.ancestors)[br.rest.length]? = some br.back := by
  obtain ⟨below, h⟩ := h
  obtain ⟨rest, hrest⟩ := fdb.lineage_prefix i
  rw [← hrest, h, Branch.items, List.reverse_cons, List.append_assoc, List.append_assoc,
    List.getElem?_append_right (by rw [List.length_reverse]), List.length_reverse, Nat.sub_self]
  rfl

/-- Where both branches of a switch are found, the new item is one higher than the chain. -/
theorem forked (h : Kept pushed chain d) (hitem : d.forkDb.Linked b item)
    (hhigher : chain.length < item.num) {first second : Branch}
    (hfetch : (d.forkDb.pushed item).fetchBranchFrom item.id (headIdOf chain) =
      .ok (first, second)) :
    item.num = chain.length + 1 ∧ ∃ s ∈ (d.forkDb.pushed item).index, s.id = headIdOf chain ∧
      (d.forkDb.pushed item).Forked item s first second := by
  have hmem : item ∈ (d.forkDb.pushed item).index :=
    (h.forest.mem_pushed hhigher).mpr (.inr rfl)
  obtain ⟨f, s, hf, hs, hforked⟩ := ForkDatabase.fetchBranchFrom_eq_ok hfetch
  obtain ⟨hfmem, hfid⟩ := ForkDatabase.fetchBlock_eq_some.mp hf
  obtain ⟨hsmem, hsid⟩ := ForkDatabase.fetchBlock_eq_some.mp hs
  obtain rfl : f = item := (d.forkDb.pushed item).index_unique hfmem hmem hfid
  refine ⟨Nat.le_antisymm (h.forest.num_le hitem fun hnone => ?_) hhigher, s, hsmem, hsid, hforked⟩
  -- In a fork database of one item there is no second branch.
  obtain ⟨hindex, rfl⟩ := h.forest.fresh hnone
  rcases (h.forest.mem_pushed hhigher).mp hsmem with hold | rfl
  · rw [hindex] at hold
    exact absurd hold List.not_mem_nil
  · have hzero : s.num = 0 := by
      rw [ForkItem.num, ← numFromId_id s.data.toSignedBlockHeader]
      exact (congrArg numFromId hsid).trans numFromId_null
    omega

/-- A switch that is carried through: the chain goes back to where the branches part, and from there
the line of the new item is applied. -/
theorem switch (h : Kept pushed chain d) (hitem : d.forkDb.Linked b item)
    (hnew : d.forkDb.raisedHead item = item) (hhigher : d.headBlockNum < item.num)
    {answer : Bool} (hrun : (switchForks skipNothing item).run { d with forkDb := d.forkDb.pushed item } =
      .ok answer d') :
    answer = true ∧ OnMain item.blocks d' ∧ d'.LogsUpTo d item.num ∧
      item.num = chain.length + 1 ∧
      ∃ first second depth,
        (d.forkDb.pushed item).fetchBranchFrom item.id (headIdOf chain) = .ok (first, second) ∧
        (item :: item.ancestors)[depth]? = some first.back ∧
        Tops first.back (chain.drop depth) ∧
        Trimmed (item.num - cacheDepth) ((d.forkDb.pushed item).setHead first.back) d'.forkDb := by
  rw [h.headBlockNum] at hhigher
  have hid : Database.headBlockId { d with forkDb := d.forkDb.pushed item } = headIdOf chain :=
    h.headBlockId
  rw [run_switchForks, hid] at hrun
  cases hfetch : (d.forkDb.pushed item).fetchBranchFrom item.id (headIdOf chain) with
  | error e =>
    simp only [hfetch] at hrun
    cases hrun
  | ok branches =>
    obtain ⟨first, second⟩ := branches
    simp only [hfetch] at hrun
    obtain ⟨hnum, s, -, -, hforked⟩ := h.forked hitem hhigher hfetch
    cases hpop : (NewsChain.popUntil second.back.data.previous (Database.popRounds
        { d with forkDb := (d.forkDb.pushed item).hold (first.items ++ second.items) })).run
        { d with forkDb := (d.forkDb.pushed item).hold (first.items ++ second.items) } with
    | error e d₂ =>
      simp only [hpop] at hrun
      cases hrun
    | ok _ d₂ =>
      simp only [hpop] at hrun
      obtain ⟨rfl, hitems⟩ := applyBranch_eq_ok hrun
      have hmain : OnMain chain
          { d with forkDb := (d.forkDb.pushed item).hold (first.items ++ second.items) } :=
        ⟨h.main.settled, h.main.onChain, h.main.logged⟩
      have hhead : (d.forkDb.pushed item).head = some item := congrArg some hnew
      obtain ⟨j, head, hj, htop, hmain₂, hfork₂, hlog₂, hid₂⟩ := hmain.popUntil hhead hpop
      -- The numbers say that the head of the fork database is the back of the new branch.
      have hheadnum : numFromId (headIdOf (chain.drop j)) = (chain.drop j).length := by
        rw [← hmain₂.onChain.headBlockId, ← hmain₂.onChain.store.head.number,
          hmain₂.onChain.headBlockNum]
      have hprev₂ : first.back.data.previous = headIdOf (chain.drop j) := by
        rw [hforked.previous, ← hid₂]
        exact hmain₂.onChain.headBlockId
      have hlength : (chain.drop j).length = chain.length - j := List.length_drop
      have hbacknum : first.back.num = (chain.drop j).length + 1 := by
        have hlt := item.data.blockNum_lt
        change item.num < 2 ^ 32 at hlt
        rw [ForkItem.num, BlockHeader.blockNum, hprev₂, hheadnum]
        omega
      have hback := back_of_line hforked.firstLine
      have hdepth : first.rest.length = j := by
        have := (ForkItem.ancestors_getElem hback).2
        omega
      rw [hdepth] at hback
      obtain rfl : head = first.back := Option.some.inj (htop.symm.trans hback)
      have hlog : d₂.blockLog = d.blockLog := hlog₂
      have hjle : j ≤ cacheDepth := by
        have hwindow := h.main.onChain.window
        have hframes := hmain₂.onChain.frames
        rw [hlog] at hframes
        simp only [cacheDepth, irreversibleBlockNum] at hwindow ⊢
        omega
      have ht : Tops first.back (chain.drop j) :=
        ⟨h.forest.blocks_eq hitem (List.mem_of_getElem? hback) hjle hprev₂ hbacknum, hbacknum,
          hprev₂⟩
      have hclimbs := ForkDatabase.climbs_of_line hforked.firstLine
      have hfront : first.front = item := ForkDatabase.front_of_line hforked.firstLine
      have hcached : Cached d₂.forkDb first.front (d₂.blockLog.blocks.length + 1) := by
        rw [hfork₂, hlog, hfront]
        exact h.cached hitem hhigher
      have hhead₂ : d₂.forkDb.head = some first.back := by rw [hfork₂]; rfl
      obtain ⟨hmain', hlog', htrim⟩ := hmain₂.applyBranch ht hclimbs hhead₂ hcached hitems
      rw [hfront] at hmain' hlog' htrim
      rw [Database.LogsUpTo, hlog] at hlog'
      refine ⟨rfl, hmain', hlog', hnum, first, second, j, rfl, hback, ht, ?_⟩
      rw [hfork₂] at htrim
      exact ⟨htrim.head, htrim.subset, htrim.kept⟩

/-- Where the head of the fork database is higher than the new item it is no child of the head. -/
theorem head_stays (h : Kept pushed chain d) {head : ForkItem} (hhead : d.forkDb.head = some head) :
    head.data.previous ≠ d.headBlockId := by
  intro hprev
  obtain ⟨hle, hpos⟩ := h.forest.head head hhead
  have hnum : head.num = chain.length + 1 := h.blockNum_of_previous hprev hpos
  omega

/-- **One push.** A push that returns leaves a main chain, and does one of three things. -/
theorem step (h : Kept pushed chain d) {answer : Bool}
    (hrun : (releaseItems (pushBlockImpl skipNothing b)).run d = .ok answer d') :
    ∃ chain', Step chain d.forkDb b answer chain' d'.forkDb ∧ OnMain chain' d' ∧
      d'.LogsUpTo d chain'.length := by
  rw [run_releaseItems, run_pushBlockImpl] at hrun
  cases hpush : d.forkDb.pushBlock b with
  | error e =>
    simp only [hpush] at hrun
    cases hrun
  | ok r =>
    obtain ⟨newBlock, fdb⟩ := r
    obtain ⟨item, hlink, rfl, rfl⟩ := ForkDatabase.pushBlock_eq_ok.mp hpush
    have hitem := ForkDatabase.link_eq_ok hlink
    have hkeep : OnMain chain { d with forkDb := (d.forkDb.pushed item).hold [] } :=
      ⟨h.main.settled, h.main.onChain, h.main.logged⟩
    have hlogs : d.LogsUpTo d chain.length := (Nat.max_eq_left h.logs.ge).symm
    simp only [hpush] at hrun
    rcases d.forkDb.raisedHead_cases item with ⟨hnew, -⟩ | ⟨hold, hle⟩
    · rw [hnew, hitem.data] at hrun
      by_cases hprev : b.previous = d.headBlockId
      · rw [if_neg (not_not.mpr hprev)] at hrun
        cases happly : (applyPushed skipNothing b).run
            { d with forkDb := d.forkDb.pushed item } with
        | error e d₁ =>
          simp only [happly] at hrun
          cases hrun
        | ok a d₁ =>
          simp only [happly] at hrun
          cases hrun
          obtain ⟨rfl, hmain, hlog, hfork⟩ := h.extend hitem hnew hprev happly
          have ht := h.tops hitem hprev
          refine ⟨item.blocks, ?_, ⟨hmain.settled, hmain.onChain, hmain.logged⟩, ?_⟩
          · simp only [hfork]
            exact .extended hitem hnew ht
          · rw [ht.length]
            exact hlog
      · rw [if_pos hprev] at hrun
        by_cases hhigher : d.headBlockNum < item.num
        · rw [if_pos hhigher] at hrun
          cases hswitch : (switchForks skipNothing item).run
              { d with forkDb := d.forkDb.pushed item } with
          | error e d₁ =>
            simp only [hswitch] at hrun
            cases hrun
          | ok a d₁ =>
            simp only [hswitch] at hrun
            cases hrun
            obtain ⟨rfl, hmain, hlog, hnum, first, second, depth, hfetch, hback, ht, htrim⟩ :=
              h.switch hitem hnew hhigher hswitch
            refine ⟨item.blocks, ?_, ⟨hmain.settled, hmain.onChain, hmain.logged⟩, ?_⟩
            · rw [h.headBlockId] at hprev
              exact .switched hitem hprev hnum hfetch hback ht
                ⟨htrim.head, htrim.subset, htrim.kept⟩
            · rw [ht.length_above hback]
              exact hlog
        · rw [if_neg hhigher] at hrun
          cases hrun
          rw [h.headBlockNum] at hhigher
          exact ⟨chain, .ignored hitem (Nat.le_of_not_lt hhigher), hkeep, hlogs⟩
    · obtain ⟨hlow, -⟩ := h.forest.head _ hold
      rw [if_pos (h.head_stays hold), h.headBlockNum, if_neg (Nat.not_lt.mpr hlow)] at hrun
      cases hrun
      exact ⟨chain, .ignored hitem (Nat.le_trans hle hlow), hkeep, hlogs⟩

end Kept

namespace Step

variable {pushed chain' : List SignedBlock} {fdb fdb' : ForkDatabase} {b : SignedBlock}
  {answer : Bool}

/-- The index stays one of the main chain. -/
theorem forest (hstep : Step chain fdb b answer chain' fdb') (h : Forest pushed chain fdb) :
    Forest (pushed ++ [b]) chain' fdb' := by
  cases hstep with
  | ignored hitem hle => exact (h.ignored hitem hle).hold []
  | @extended item hitem hnew ht =>
    have hnum := ht.num
    have hhead : (fdb.pushed item).head = some item := congrArg some hnew
    have htrim : Trimmed (item.num - cacheDepth) ((fdb.pushed item).setHead item)
        ((fdb.pushed item).setMaxSize (min item.num irreversibleBlockNum + 1)) := by
      have := trimmed_setMaxSize hhead List.mem_cons_self
      exact ⟨this.head.trans hhead, this.subset, this.kept⟩
    refine (h.grown hitem hnum ?_ (fun hroot => ?_) ⟨by omega, Nat.le_refl _⟩ htrim).hold []
    · exact ht.length
    · have hblocks := ht.blocks
      rw [ForkItem.blocks, hroot, List.map_nil, List.cons.injEq] at hblocks
      rw [← hitem.data, ht.previous, ← hblocks.2]
      rfl
  | @switched item first second depth _ hitem hprev hnum hfetch hback ht htrim =>
    obtain ⟨-, hbacknum⟩ := ForkItem.ancestors_getElem hback
    refine h.grown hitem hnum (ht.length_above hback) (fun hroot => ?_) ⟨?_, by omega⟩ htrim
    · -- An item without ancestors would be the back of its branch, on top of the chain.
      rw [item.ancestors_eq_nil.mpr hroot] at hback
      have hdepth := (List.getElem?_eq_some_iff.mp hback).1
      obtain rfl : depth = 0 := by simpa using hdepth
      have hsame := ht.previous
      rw [← Option.some.inj hback, hitem.data] at hsame
      exact absurd hsame hprev
    · have := ht.num
      omega

/-- The chain grows by one block, or stays. -/
theorem length (hstep : Step chain fdb b answer chain' fdb') :
    chain'.length = if answer then chain.length + 1 else chain.length := by
  cases hstep with
  | ignored => rfl
  | extended _ _ ht => exact ht.length.trans ht.num
  | switched _ _ hnum _ hback ht => exact (ht.length_above hback).trans hnum

/-- A chain that grows has the pushed block as its head, and one that stays is no lower than it. -/
theorem head (hstep : Step chain fdb b answer chain' fdb') :
    if answer then chain'.head? = some b ∧ b.blockNum = chain.length + 1
    else chain' = chain ∧ b.blockNum ≤ chain.length := by
  cases hstep with
  | ignored hitem hle =>
    rw [ForkItem.num, hitem.data] at hle
    exact ⟨rfl, hle⟩
  | extended hitem _ ht =>
    have hnum := ht.num
    rw [ForkItem.num, hitem.data] at hnum
    exact ⟨congrArg some hitem.data, hnum⟩
  | switched hitem _ hnum =>
    rw [ForkItem.num, hitem.data] at hnum
    exact ⟨congrArg some hitem.data, hnum⟩

end Step

/-- A push that returns keeps a main chain. -/
theorem Kept.returns {pushed : List SignedBlock} {b : SignedBlock} {answer : Bool}
    (h : Kept pushed chain d)
    (hrun : (releaseItems (pushBlockImpl skipNothing b)).run d = .ok answer d') :
    ∃ chain', Step chain d.forkDb b answer chain' d'.forkDb ∧ Kept (pushed ++ [b]) chain' d' := by
  obtain ⟨chain', hstep, hmain, hlogs⟩ := h.step hrun
  refine ⟨chain', hstep, hmain, ?_, hstep.forest h.forest⟩
  have hlength := hstep.length
  have hlogs₀ := h.logs
  rw [Database.LogsUpTo] at hlogs
  split at hlength <;> omega

end NewsChain
