import NewsChain.Laws.ForkWindow
import NewsChain.Laws.LinkedTree

/-!
# What a switch that fails leaves

A switch that fails takes the chain back to where the branches part, and applies the old branch
again. A chain determines its store, so what comes back is the store of before, wherever the way
there is open: the undo stack holds the old branch (`OnMain.popUntil_returns`), the blocks that are
popped are found, and what was applied before applies again (`OnMain.replays`).
-/

namespace NewsChain

open EStateM (Result)
open ForkDatabase (Linked Trimmed Detached cacheDepth)

variable [Node]

variable {chain : List SignedBlock} {d d' : Database} {t : ForkItem}

/-! ## Popping to a block -/

/-- The numbers tell the ends of a chain apart. -/
theorem OnChain.headIdOf_inj {s : Snapshots Objects} {log : BlockLog} (h : OnChain chain s log)
    {j k : Nat} (hj : j ≤ chain.length) (hk : k ≤ chain.length)
    (hid : headIdOf (chain.drop j) = headIdOf (chain.drop k)) : j = k := by
  have hlt := h.length_lt
  have hnumj := (h.linked.drop j).numFromId_headIdOf
  have hnumk := (h.linked.drop k).numFromId_headIdOf
  rw [hid, hnumk, List.length_drop, List.length_drop, Nat.mod_eq_of_lt (by omega),
    Nat.mod_eq_of_lt (by omega)] at hnumj
  omega

/-- A block that has an item is found by its id. -/
theorem fetchBlockById_of_mem {i : ForkItem} (hi : i ∈ d.forkDb.index) :
    d.fetchBlockById i.id = some i.data := by
  rw [Database.fetchBlockById, ForkDatabase.fetchBlock_eq_some.mpr ⟨hi, rfl⟩]

/-- The chain has been taken back some blocks, and the head of the fork database as many items down
its line. -/
structure TakenBack (chain : List SignedBlock) (d : Database) (top : ForkItem) (j : Nat)
    (x : Database) : Prop where
  main : OnMain (chain.drop j) x
  head : ∃ head, (top :: top.ancestors)[j]? = some head ∧ x.forkDb = d.forkDb.setHead head
  blockLog : x.blockLog = d.blockLog

theorem TakenBack.zero (h : OnMain chain d) {top : ForkItem} (hhead : d.forkDb.head = some top) :
    TakenBack chain d top 0 d where
  main := h
  head := ⟨top, rfl, by rw [ForkDatabase.setHead, ← hhead]⟩
  blockLog := rfl

/-- The way down from an item is open for some steps: the blocks that are popped have items, and the
items down the line are owned. -/
structure WayDown (chain : List SignedBlock) (fdb : ForkDatabase) (top : ForkItem) (n : Nat) :
    Prop where
  found : ∀ c ∈ chain.take n, ∃ i ∈ fdb.index, i.data = c
  owned : ∀ j, j ≤ n → ∃ i, (top :: top.ancestors)[j]? = some i ∧
    (0 < j → i ∈ fdb.index ++ fdb.held)

/-- The block that is popped next is found. -/
theorem TakenBack.fetches {top : ForkItem} {n j : Nat} {x : Database}
    (hway : WayDown chain d.forkDb top n) (hx : TakenBack chain d top j x) (hj : j < n)
    (hlt : j < chain.length) : x.fetchBlockById x.headBlockId = some chain[j] := by
  obtain ⟨head, -, hfork⟩ := hx.head
  have hc : chain[j]? = some chain[j] := List.getElem?_eq_getElem hlt
  have htake : chain[j] ∈ chain.take n := by
    refine List.mem_of_getElem? (i := j) ?_
    rw [List.getElem?_take_of_lt hj, hc]
  obtain ⟨i, hi, hdata⟩ := hway.found _ htake
  have hi' : i ∈ x.forkDb.index := by
    rw [hfork]
    exact hi
  have hid : x.headBlockId = i.id := by
    have hid' : x.headBlockId = headIdOf (chain.drop j) := hx.main.onChain.headBlockId
    rw [hid', headIdOf_drop hc, ForkItem.id, hdata]
  rw [hid, fetchBlockById_of_mem hi', hdata]

/-- One pop, where the way is open and there is a snapshot. -/
theorem TakenBack.pop {top : ForkItem} {n j : Nat} {x : Database}
    (hway : WayDown chain d.forkDb top n) (hx : TakenBack chain d top j x) (hj : j < n)
    (hn : n ≤ chain.length) (hframes : x.store.frames ≠ []) :
    ∃ x', popBlock.run x = .ok () x' ∧ TakenBack chain d top (j + 1) x' := by
  obtain ⟨head, hhead, hfork⟩ := hx.head
  obtain ⟨prev, hprev, howned⟩ := hway.owned (j + 1) hj
  have hlt : j < chain.length := by omega
  have hfound := hx.fetches hway hj hlt
  -- The item below the head is owned.
  have hfollows : head.Follows prev := by
    have hdrop := (ForkItem.ancestors_getElem hhead).1
    have hnext : (head :: head.ancestors)[1]? = some prev := by
      rw [hdrop, List.getElem?_drop]
      exact hprev
    cases hanc : head.ancestors with
    | nil => simp [hanc] at hnext
    | cons p ps =>
      obtain rfl : p = prev := by simpa [hanc] using hnext
      exact (head.ancestors_eq_cons hanc).1
  have howns : x.forkDb.owns prev.ptr = true := by
    rw [hfork]
    refine List.any_eq_true.mpr ⟨prev, ?_, beq_self_eq_true _⟩
    rcases List.mem_append.mp (howned (Nat.succ_pos j)) with hmem | hmem
    · exact List.mem_append_left _ (List.mem_append_left _ hmem)
    · exact List.mem_append_right _ hmem
  have hpop : x.forkDb.popBlock = .ok (x.forkDb.setHead prev) :=
    ForkDatabase.popBlock_eq_ok.mpr ⟨head, prev, by rw [hfork]; rfl, hfollows, howns, rfl⟩
  have honChain := hx.main.onChain
  have hlogged := hx.main.logged
  rw [List.drop_eq_getElem_cons hlt] at honChain hlogged
  refine ⟨_, by rw [run_popBlock hx.main.settled, hfound, hpop], ?_⟩
  exact ⟨⟨hx.main.settled, honChain.undo hframes, honChain.logged_undo hframes hlogged⟩,
    ⟨prev, hprev, by simp only [hfork, ForkDatabase.setHead]⟩, hx.blockLog⟩

/-- **Popping to a block** that the undo stack reaches, where the way down is open. -/
theorem OnMain.popUntil_returns (h : OnMain chain d) {top : ForkItem}
    (hhead : d.forkDb.head = some top) {n : Nat} (hframes : n ≤ d.store.frames.length)
    (hway : WayDown chain d.forkDb top n) :
    ∃ x, (NewsChain.popUntil (headIdOf (chain.drop n)) d.popRounds).run d = .ok () x ∧
      TakenBack chain d top n x := by
  have hcount := h.onChain.frames
  have hn : n ≤ chain.length := by omega
  let P (x : Database) : Prop := ∃ j ≤ n, TakenBack chain d top j x
  have hnot : ∀ x j, TakenBack chain d top j x → j ≤ n →
      x.headBlockId ≠ headIdOf (chain.drop n) → j < n ∧ x.store.frames ≠ [] := by
    intro x j hx hj hid
    have hlt : j < n := by
      refine Nat.lt_of_le_of_ne hj fun heq => hid ?_
      rw [← heq]
      exact hx.main.onChain.headBlockId
    refine ⟨hlt, fun hnil => ?_⟩
    have hcount' := hx.main.onChain.frames
    rw [hnil, hx.blockLog, List.length_drop] at hcount'
    simp only [List.length_nil] at hcount'
    omega
  have hpop : ∀ x x', P x → x.headBlockId ≠ headIdOf (chain.drop n) →
      popBlock.run x = .ok () x' → P x' := by
    rintro x x' ⟨j, hj, hx⟩ hid hrun
    obtain ⟨hlt, hne⟩ := hnot x j hx hj hid
    obtain ⟨x'', hrun', hx''⟩ := hx.pop hway hlt hn hne
    rw [hrun] at hrun'
    cases hrun'
    exact ⟨j + 1, hlt, hx''⟩
  rcases popUntil_cases (P := P) (fun x hx => hx.choose_spec.2.main.settled) hpop
    ⟨0, Nat.zero_le _, .zero h hhead⟩ (Nat.le_refl _) with
    ⟨x, hrun, ⟨j, hj, hx⟩, hid⟩ | ⟨e, x, -, ⟨j, hj, hx⟩, hid, herror⟩
  · have hsame : headIdOf (chain.drop j) = headIdOf (chain.drop n) := by
      rw [← hid]
      exact hx.main.onChain.headBlockId.symm
    obtain rfl := h.onChain.headIdOf_inj (by omega) hn hsame
    exact ⟨x, hrun, hx⟩
  · exfalso
    obtain ⟨hlt, hne⟩ := hnot x j hx hj hid
    obtain ⟨x', hrun', -⟩ := hx.pop hway hlt hn hne
    rw [herror] at hrun'
    cases hrun'

/-! ## Mounting a branch -/

/-- The items go on top of the chain, one above the other. -/
def Mounts : List SignedBlock → List ForkItem → Prop
  | _, [] => True
  | chain, t :: items => Tops t chain ∧ Mounts (t.data :: chain) items

/-- The chain under the items of a branch. -/
def mounted (chain : List SignedBlock) (items : List ForkItem) : List SignedBlock :=
  (items.map (·.data)).reverse ++ chain

theorem mounted_cons (chain : List SignedBlock) (t : ForkItem) (items : List ForkItem) :
    mounted chain (t :: items) = mounted (t.data :: chain) items := by
  simp [mounted]

theorem length_mounted (chain : List SignedBlock) (items : List ForkItem) :
    (mounted chain items).length = chain.length + items.length := by
  simp [mounted, Nat.add_comm]

theorem drop_mounted (chain : List SignedBlock) (items : List ForkItem) :
    (mounted chain items).drop items.length = chain := by
  refine List.drop_left' ?_
  rw [List.length_reverse, List.length_map]

theorem take_mounted (chain : List SignedBlock) (items : List ForkItem) :
    (mounted chain items).take items.length = (items.map (·.data)).reverse := by
  refine List.take_left' ?_
  rw [List.length_reverse, List.length_map]

theorem Tops.mounts (h : Tops t chain) {items : List ForkItem}
    (hclimbs : (t :: items).IsChain fun a b => b.Follows a) : Mounts chain (t :: items) := by
  induction items generalizing t chain with
  | nil => exact ⟨h, trivial⟩
  | cons u items ih =>
    obtain ⟨hfollows, hrest⟩ := List.isChain_cons_cons.mp hclimbs
    have hnext := h.next hfollows
    rw [h.blocks] at hnext
    exact ⟨h, ih hnext hrest⟩

theorem Mounts.append {front rest : List ForkItem} {i : ForkItem}
    (h : Mounts chain (front ++ i :: rest)) : Mounts chain front ∧ Tops i (mounted chain front) := by
  induction front generalizing chain with
  | nil => exact ⟨trivial, h.1⟩
  | cons t front ih =>
    obtain ⟨hfront, hi⟩ := ih h.2
    rw [mounted_cons]
    exact ⟨⟨h.1, hfront⟩, hi⟩

/-- The block of an item on top of the chain, at a height where nothing is logged. -/
theorem OnMain.mount_one (h : OnMain chain d) (ht : Tops t chain) {z : ForkItem}
    (hhead : d.forkDb.head = some z)
    (hheight : chain.length < d.blockLog.blocks.length + irreversibleBlockNum) {low : Nat}
    (hlow : z.num - (min (chain.length + 1) irreversibleBlockNum + 1) ≤ low)
    (hrun : (applyInSession skipNothing t.data).run d = .ok () d') :
    OnMain (t.data :: chain) d' ∧ d'.blockLog.blocks.length = d.blockLog.blocks.length ∧
      Trimmed low d.forkDb d'.forkDb := by
  have hnum := ht.num
  obtain ⟨hmain, hlog, hfork⟩ := h.applied ht (fun i hlength => by omega) hrun
  rw [ht.blocks] at hmain
  rw [Database.LogsUpTo] at hlog
  refine ⟨hmain, by omega, ?_⟩
  rw [hfork, hnum]
  refine ⟨ForkDatabase.setMaxSize_head _ _, fun i hi => (ForkDatabase.mem_setMaxSize.mp hi).1,
    fun i hi hi' => ForkDatabase.mem_setMaxSize.mpr ⟨hi, fun z' hz' => ?_⟩⟩
  rw [hhead] at hz'
  cases hz'
  omega

/-- A branch on top of the chain, at heights where nothing is logged. -/
theorem OnMain.mount {items : List ForkItem} (h : OnMain chain d) (hmounts : Mounts chain items)
    {z : ForkItem} (hhead : d.forkDb.head = some z)
    (hheight : chain.length + items.length ≤ d.blockLog.blocks.length + irreversibleBlockNum)
    {low : Nat} (hlow : z.num - (min (chain.length + 1) irreversibleBlockNum + 1) ≤ low)
    (hrun : (forM items fun i => applyInSession skipNothing i.data : DbM Unit).run d =
      .ok () d') :
    OnMain (mounted chain items) d' ∧
      d'.blockLog.blocks.length = d.blockLog.blocks.length ∧ Trimmed low d.forkDb d'.forkDb := by
  induction items generalizing chain d with
  | nil =>
    rw [List.forM_nil, EStateM.run_pure] at hrun
    cases hrun
    exact ⟨h, rfl, .refl _ _⟩
  | cons t items ih =>
    rw [List.forM_cons] at hrun
    obtain ⟨_, d₁, happly, hrest⟩ := bind_eq_ok.mp hrun
    rw [List.length_cons] at hheight
    obtain ⟨hmain, hlog, htrim⟩ := h.mount_one hmounts.1 hhead (by omega) hlow happly
    obtain ⟨hmain', hlog', htrim'⟩ := ih hmain hmounts.2 (htrim.head.trans hhead)
      (by rw [List.length_cons, hlog]; omega) (by rw [List.length_cons]; omega) hrest
    rw [mounted_cons]
    exact ⟨hmain', hlog'.trans hlog, htrim.trans htrim'⟩

/-- The blocks of a chain apply to genesis, one after the other. -/
def Plays (chain : List SignedBlock) : Prop :=
  Returned ((Objects.applyBlocks skipNothing chain.reverse).run genesis)

theorem Plays.tail {front : List SignedBlock} (h : Plays (front ++ chain)) : Plays chain := by
  induction front with
  | nil => exact h
  | cons b front ih =>
    obtain ⟨_, o, hrun⟩ := h
    obtain ⟨o', hrun', -⟩ := applyBlocks_cons.mp hrun
    exact ih ⟨(), o', hrun'⟩

/-- What was applied to a chain applies to it again. -/
theorem OnMain.replays {b : SignedBlock} (h : OnMain chain d) (hplays : Plays (b :: chain)) :
    Returned ((Objects.applyBlock skipNothing b).run d.store.content) := by
  obtain ⟨_, o, hrun⟩ := hplays
  obtain ⟨o', hrun', happly⟩ := applyBlocks_cons.mp hrun
  have hsame := hrun'.symm.trans h.onChain.tracks.content.run
  cases hsame
  exact ⟨(), o, happly⟩

/-- **A branch that was applied applies again**, at heights where nothing is logged. -/
theorem OnMain.remount {items : List ForkItem} (h : OnMain chain d) (hmounts : Mounts chain items)
    {z : ForkItem} (hhead : d.forkDb.head = some z)
    (hheight : chain.length + items.length ≤ d.blockLog.blocks.length + irreversibleBlockNum)
    (hplays : Plays (mounted chain items)) :
    ∃ d', (forM items fun i => applyInSession skipNothing i.data : DbM Unit).run d = .ok () d' := by
  induction items generalizing chain d with
  | nil => exact ⟨d, rfl⟩
  | cons t items ih =>
    rw [List.length_cons] at hheight
    rw [mounted_cons] at hplays
    have hnever : Findable d.forkDb d.blockLog t.blocks := by
      intro hlength
      rw [hmounts.1.blocks, List.length_cons] at hlength
      omega
    rcases h.next hmounts.1 hnever with ⟨d₁, happly, -⟩ | ⟨e, -, hrefused⟩
    · obtain ⟨hmain, hlog, htrim⟩ := h.mount_one hmounts.1 hhead (by omega) (Nat.le_refl _) happly
      obtain ⟨d', hrest⟩ := ih hmain hmounts.2 (htrim.head.trans hhead)
        (by rw [List.length_cons, hlog]; omega) hplays
      refine ⟨d', ?_⟩
      rw [List.forM_cons]
      exact bind_eq_ok.mpr ⟨(), d₁, happly, hrest⟩
    · exact absurd (h.replays hplays.tail) hrefused

/-! ## Where the branches part -/

/-- The branches of a switch that the undo stack can carry out: `first` ends in the pushed item and
`second` in the item of the head, both on top of the chain that is `n` blocks shorter. -/
structure Parted (chain : List SignedBlock) (d : Database) (item top : ForkItem) (n : Nat)
    (first second : Branch) : Prop where
  num : item.num = chain.length + 1
  topMem : top ∈ d.forkDb.index
  topBlocks : top.blocks = chain
  topNum : top.num = chain.length
  forked : (d.forkDb.pushed item).Forked item top first second
  firstLength : first.rest.length = n
  secondLength : second.items.length = n
  firstTops : Tops first.back (chain.drop n)
  secondTops : Tops second.back (chain.drop n)
  undoable : n ≤ d.store.frames.length

variable {pushed : List SignedBlock} {b : SignedBlock} {item top : ForkItem} {n : Nat}
  {first second : Branch}

theorem Kept.parted (h : Kept pushed chain d) (hitem : d.forkDb.Linked b item)
    (hhigher : chain.length < item.num)
    (hfetch : (d.forkDb.pushed item).fetchBranchFrom item.id (headIdOf chain) = .ok (first, second))
    (hundoable : second.items.length ≤ d.store.frames.length) :
    ∃ top, Parted chain d item top second.items.length first second := by
  obtain ⟨hnum, top, htop, hid, hforked⟩ := h.forked hitem hhigher hfetch
  obtain ⟨n, hn⟩ : ∃ n, second.rest.length = n := ⟨_, rfl⟩
  have hlength : second.items.length = n + 1 := by rw [Branch.items, List.length_cons, hn]
  have hframes := h.main.onChain.frames
  have hwindow := h.main.onChain.window
  have hdepth : n + 1 ≤ cacheDepth := by
    simp only [cacheDepth, irreversibleBlockNum] at hwindow ⊢
    omega
  have hlt : n < chain.length := by omega
  -- The second branch ends in the item of the main chain.
  obtain ⟨m, hm, hblocks, hmnum⟩ := h.forest.top (List.length_pos_iff.mp (by omega))
  have hmid : m.id = headIdOf chain := by
    rw [← hblocks]
    rfl
  have hmem : m ∈ (d.forkDb.pushed item).index := (h.forest.mem_pushed hhigher).mpr (.inl hm)
  obtain rfl : top = m := (d.forkDb.pushed item).index_unique htop hmem (hid.trans hmid.symm)
  have hlinked := h.main.onChain.linked.drop n
  rw [List.drop_eq_getElem_cons hlt] at hlinked
  -- Its back is the last of the blocks that go.
  have hback := Kept.back_of_line hforked.secondLine
  rw [hn] at hback
  have hbackBlocks := ForkItem.blocks_getElem hback
  have hbackNum := (ForkItem.ancestors_getElem hback).2
  rw [hblocks, List.drop_eq_getElem_cons hlt, ForkItem.blocks, List.cons.injEq] at hbackBlocks
  have hsecond : Tops second.back (chain.drop (n + 1)) := by
    refine ⟨?_, ?_, ?_⟩
    · rw [ForkItem.blocks, hbackBlocks.2]
    · rw [List.length_drop]
      omega
    · rw [hbackBlocks.1]
      exact hlinked.1
  -- The back of the other branch has the same previous id, and so the same number.
  have hfirst := Kept.back_of_line hforked.firstLine
  have hfirstNum := (ForkItem.ancestors_getElem hfirst).2
  have hprev : first.back.data.previous = headIdOf (chain.drop (n + 1)) := by
    rw [hforked.previous, hsecond.previous]
  have hsame : first.back.num = second.back.num := by
    rw [ForkItem.num, ForkItem.num, BlockHeader.blockNum, BlockHeader.blockNum, hprev,
      hsecond.previous]
  have hfirstTops : Tops first.back (chain.drop (n + 1)) :=
    ⟨h.forest.blocks_eq hitem (List.mem_of_getElem? hfirst) hdepth hprev
      (hsame.trans hsecond.num), hsame.trans hsecond.num, hprev⟩
  rw [hlength] at hundoable ⊢
  exact ⟨top, hnum, hm, hblocks, hmnum, hforked, by omega, hlength, hfirstTops, hsecond, hundoable⟩

/-! ## A branch that fails -/

/-- How many blocks of a list apply to the objects, each after the ones before it. -/
def appliesUpTo : Objects → List SignedBlock → Nat
  | _, [] => 0
  | o, b :: blocks =>
    match (Objects.applyBlock skipNothing b).run o with
    | .ok _ o' => appliesUpTo o' blocks + 1
    | .error _ _ => 0

theorem appliesUpTo_eq {front rest : List ForkItem} {i : ForkItem} {x : Database}
    (hrun : (forM front fun i => applyInSession skipNothing i.data : DbM Unit).run d = .ok () x)
    (hfails : ¬ Returned ((Objects.applyBlock skipNothing i.data).run x.store.content)) :
    appliesUpTo d.store.content ((front ++ i :: rest).map (·.data)) = front.length := by
  induction front generalizing d with
  | nil =>
    rw [List.forM_nil, EStateM.run_pure] at hrun
    cases hrun
    rw [List.nil_append, List.map_cons, appliesUpTo]
    split
    · rename_i happly
      exact absurd ⟨_, _, happly⟩ hfails
    · rfl
  | cons t front ih =>
    rw [List.forM_cons] at hrun
    obtain ⟨_, d₁, happly, hrest⟩ := bind_eq_ok.mp hrun
    obtain ⟨r, o, hobjects, hstore⟩ := applyInSession_eq_ok happly
    have hfront := ih hrest
    rw [hstore, Snapshots.put_content] at hfront
    rw [List.cons_append, List.map_cons, appliesUpTo, hobjects]
    simp only [hfront, List.length_cons]

/-- Where a list of blocks fails, what comes after it plays no part. -/
theorem appliesUpTo_append {o : Objects} {blocks rest : List SignedBlock}
    (h : appliesUpTo o (blocks ++ rest) < blocks.length) (rest' : List SignedBlock) :
    appliesUpTo o (blocks ++ rest') = appliesUpTo o (blocks ++ rest) := by
  induction blocks generalizing o with
  | nil => exact absurd h (Nat.not_lt_zero _)
  | cons b blocks ih =>
    rw [List.cons_append, appliesUpTo] at h ⊢
    rw [List.cons_append, appliesUpTo]
    cases hrun : (Objects.applyBlock skipNothing b).run o with
    | ok _ o' =>
      simp only [hrun, List.length_cons] at h ⊢
      rw [ih (Nat.lt_of_succ_lt_succ h)]
    | error e o' => rfl

/-- A branch that fails does so at one of its items, and what was before is restored from there. -/
theorem applyBranch_eq_error {old : Branch} {items : List ForkItem} {e : Exc}
    (h : (applyBranch skipNothing old items).run d = .error e d') :
    ∃ front i rest x e' y, items = front ++ i :: rest ∧
      (forM front fun i => applyInSession skipNothing i.data : DbM Unit).run d = .ok () x ∧
      (applyInSession skipNothing i.data).run x = .error e' y ∧
      (restoreBranch skipNothing (i :: rest) old e').run y = .error e d' := by
  induction items generalizing d with
  | nil => cases h
  | cons t items ih =>
    rw [run_applyBranch_cons] at h
    cases happly : (applyInSession skipNothing t.data).run d with
    | ok _ d₁ =>
      rw [happly] at h
      obtain ⟨front, i, rest, x, e', y, rfl, hfront, hi, hrestore⟩ := ih h
      refine ⟨t :: front, i, rest, x, e', y, rfl, ?_, hi, hrestore⟩
      rw [List.forM_cons]
      exact bind_eq_ok.mpr ⟨(), d₁, happly, hfront⟩
    | error e' y =>
      rw [happly] at h
      exact ⟨[], t, items, d, e', y, rfl, rfl, happly, h⟩

/-- A child that stays keeps its whole line. -/
theorem stays_of_detached {index : List ForkItem} {ids : List BlockId} (h : Detached index ids)
    {items : List ForkItem} (hchain : items.IsChain ForkItem.Follows)
    (hindex : ∀ i ∈ items, i ∈ index) (hhead : ∀ i ∈ items.head?, i.id ∉ ids) :
    ∀ i ∈ items, i.id ∉ ids := by
  induction items with
  | nil => exact fun i hi => absurd hi List.not_mem_nil
  | cons t items ih =>
    have ht := hhead t rfl
    intro i hi
    rcases List.mem_cons.mp hi with rfl | hi
    · exact ht
    · refine ih hchain.tail (fun j hj => hindex j (List.mem_cons_of_mem _ hj)) (fun u hu hid => ?_) i hi
      cases items with
      | nil => cases hu
      | cons v items =>
        cases hu
        have hfollows := (List.isChain_cons_cons.mp hchain).1
        exact ht (h u (hindex u (by simp)) hid t (hindex t List.mem_cons_self) hfollows)

/-- With ids removed that leave no child behind, the items that stay keep their recent ancestors. -/
theorem Forest.stays {fdb : ForkDatabase} (h : Forest pushed chain fdb) (hitem : fdb.Linked b item)
    (hnum : chain.length < item.num) {ids : List BlockId}
    (hdetached : Detached (fdb.pushed item).index ids) {i a : ForkItem}
    (hi : i ∈ (fdb.pushed item).index) (hid : i.id ∉ ids) (ha : a ∈ i.ancestors)
    (hlow : chain.length - cacheDepth ≤ a.num) :
    a ∈ (fdb.pushed item).index ∧ a.id ∉ ids := by
  have hmem : ∀ c ∈ i.ancestors, chain.length - cacheDepth ≤ c.num →
      c ∈ (fdb.pushed item).index := by
    intro c hc hlow
    refine (h.mem_pushed hnum).mpr (.inl ?_)
    rcases (h.mem_pushed hnum).mp hi with hold | rfl
    · exact h.closed i hold c hc hlow
    · exact h.ancestor_mem hitem hc hlow
  refine ⟨hmem a ha hlow, ?_⟩
  obtain ⟨k, hk⟩ := List.mem_iff_getElem?.mp (List.mem_cons_of_mem i ha)
  have hknum := (ForkItem.ancestors_getElem hk).2
  have hline : ∀ c ∈ (i :: i.ancestors).take (k + 1), c ∈ (fdb.pushed item).index := by
    intro c hc
    obtain ⟨j, hj⟩ := List.mem_iff_getElem?.mp hc
    rw [List.getElem?_take] at hj
    split at hj
    · have hjnum := (ForkItem.ancestors_getElem hj).2
      rcases List.mem_cons.mp (List.mem_of_getElem? hj) with rfl | hc
      · exact hi
      · exact hmem c hc (by omega)
    · cases hj
  have hchain : ((i :: i.ancestors).take (k + 1)).IsChain ForkItem.Follows := by
    have hprefix := List.take_prefix (k + 1) (i :: i.ancestors)
    exact i.follows_chain.prefix hprefix
  refine stays_of_detached hdetached hchain hline (fun c hc => ?_) a
    (List.mem_of_getElem? (i := k) ?_)
  · cases hc
    exact hid
  · rw [List.getElem?_take_of_lt (Nat.lt_succ_self k), hk]

/-- A switch that fails leaves the main chain in the index, where no child is left behind and nothing
recent is taken out besides. -/
theorem Forest.failed {fdb fdb' : ForkDatabase} (h : Forest pushed chain fdb)
    (hitem : fdb.Linked b item) (hnum : item.num = chain.length + 1) {ids : List BlockId}
    (hgone : item.id ∈ ids) (hhead : headIdOf chain ∉ ids)
    (hdetached : Detached (fdb.pushed item).index ids)
    (hsubset : ∀ i ∈ fdb'.index, i ∈ (fdb.pushed item).index ∧ i.id ∉ ids)
    (hkept : ∀ i ∈ (fdb.pushed item).index, i.id ∉ ids → chain.length - cacheDepth ≤ i.num →
      i ∈ fdb'.index) {z : ForkItem} (hz : fdb'.head = some z)
    (hbounds : z.num ≤ chain.length ∧ (chain ≠ [] → 0 < z.num)) :
    Forest (pushed ++ [b]) chain fdb' := by
  have hhigher : chain.length < item.num := by omega
  have hold : ∀ i ∈ fdb'.index, i ∈ fdb.index := fun i hi => by
    obtain ⟨hi, hid⟩ := hsubset i hi
    refine ((h.mem_pushed hhigher).mp hi).resolve_right fun heq => ?_
    rw [heq] at hid
    exact hid hgone
  refine ⟨fun i hi c hc => List.mem_append_left _ (h.known i (hold i hi) c hc),
    fun i hi => h.low i (hold i hi), fun z' hz' => ?_, fun hnone => ?_,
    fun i hi => h.rooted i (hold i hi), fun i hi a ha hlow => ?_, fun hne => ?_⟩
  · rw [hz] at hz'
    cases hz'
    exact hbounds
  · rw [hz] at hnone
    cases hnone
  · obtain ⟨hi, hid⟩ := hsubset i hi
    obtain ⟨hmem, hid'⟩ := h.stays hitem hhigher hdetached hi hid ha hlow
    exact hkept a hmem hid' hlow
  · obtain ⟨m, hm, hblocks, hmnum⟩ := h.top hne
    refine ⟨m, hkept m ((h.mem_pushed hhigher).mpr (.inl hm)) ?_ (by omega), hblocks, hmnum⟩
    have hid : m.id = headIdOf chain := by
      rw [← hblocks]
      rfl
    rwa [hid]

/-! ## A switch that fails -/

/-- The database in which a switch pops the old branch: the item is linked in, and the call owns both
branches. -/
def Database.switching (d : Database) (item : ForkItem) (first second : Branch) : Database :=
  { d with forkDb := (d.forkDb.pushed item).hold (first.items ++ second.items) }

/-- The database in which a switch that fails pops what it applied: the items from the failing one on
are removed, and the fork database is back at the old head. -/
def Database.restoring (y : Database) (failed : List ForkItem) (old : Branch) : Database :=
  { y with forkDb := (y.forkDb.removeAll failed).setHead old.front }

namespace Parted

/-- The items of the first branch are on the line of the pushed item. -/
theorem mem_line (h : Parted chain d item top n first second) {i : ForkItem}
    (hi : i ∈ first.items) : i ∈ item :: item.ancestors := by
  obtain ⟨below, hline⟩ := h.forked.firstLine
  refine (ForkDatabase.lineage_prefix (d.forkDb.pushed item) item).subset ?_
  rw [hline]
  exact List.mem_append_left _ (List.mem_reverse.mpr hi)

/-- A branch is not empty. -/
theorem pos (h : Parted chain d item top n first second) : 0 < n := by
  rw [← h.secondLength]
  exact Nat.succ_pos _

/-- The chain is at least as long as the old branch. -/
theorem le_length (h : Parted chain d item top n first second) (hd : Kept pushed chain d) :
    n + d.blockLog.blocks.length ≤ chain.length := by
  have hframes := hd.main.onChain.frames
  have hundoable := h.undoable
  omega

/-- The way down to where the branches part is open. -/
theorem wayDown (h : Parted chain d item top n first second) (hd : Kept pushed chain d) :
    WayDown chain (d.switching item first second).forkDb item n := by
  have hlength := h.le_length hd
  have hwindow := hd.main.onChain.window
  have hframes := hd.main.onChain.frames
  have hundoable := h.undoable
  have hnum := h.num
  constructor
  · intro c hc
    obtain ⟨j, hj⟩ := List.mem_iff_getElem?.mp hc
    rw [List.getElem?_take] at hj
    split at hj
    · rename_i hlt
      obtain ⟨a, ha, -, hdata⟩ := hd.forest.item_of_num (n := chain.length - j) (by omega)
        (by omega) (by simp only [cacheDepth, irreversibleBlockNum] at hwindow ⊢; omega)
      have hsame : chain.length - (chain.length - j) = j := by omega
      rw [hsame, hj, Option.some.injEq] at hdata
      exact ⟨a, (hd.forest.mem_pushed (by omega)).mpr (.inl ha), hdata.symm⟩
    · cases hj
  · intro j hj
    obtain ⟨below, hline⟩ := h.forked.firstLine
    have hlt : j < first.items.reverse.length := by
      rw [List.length_reverse, Branch.items, List.length_cons, h.firstLength]
      omega
    obtain ⟨rest, hrest⟩ := ForkDatabase.lineage_prefix (d.forkDb.pushed item) item
    have hitem : (item :: item.ancestors)[j]? = some first.items.reverse[j] := by
      rw [← hrest, hline, List.append_assoc, List.getElem?_append_left hlt,
        List.getElem?_eq_getElem hlt]
    refine ⟨_, hitem, fun _ => List.mem_append_right _ (List.mem_append_left _ ?_)⟩
    exact List.mem_reverse.mp (List.getElem_mem hlt)

/-- **The old branch is popped.** -/
theorem pops (h : Parted chain d item top n first second) (hd : Kept pushed chain d)
    (hnew : d.forkDb.raisedHead item = item) :
    ∃ x, (popUntil second.back.data.previous (d.switching item first second).popRounds).run
        (d.switching item first second) = .ok () x ∧
      TakenBack chain (d.switching item first second) item n x := by
  have hmain : OnMain chain (d.switching item first second) :=
    ⟨hd.main.settled, hd.main.onChain, hd.main.logged⟩
  have hhead : (d.switching item first second).forkDb.head = some item := congrArg some hnew
  rw [h.secondTops.previous]
  exact hmain.popUntil_returns hhead h.undoable (h.wayDown hd)

/-- Where the new branch fails: some of its blocks are applied, and of the fork database nothing
recent is taken out. -/
structure Fails (chain : List SignedBlock) (d : Database) (item : ForkItem) (n : Nat)
    (first : Branch) (front : List ForkItem) (y : Database) : Prop where
  main : OnMain (mounted (chain.drop n) front) y
  logs : y.blockLog.blocks.length = d.blockLog.blocks.length
  trim : Trimmed (chain.length - cacheDepth) ((d.forkDb.pushed item).setHead first.back) y.forkDb

/-- The back of the first branch, down the line of an item of the branch. -/
theorem back_mem_line {front rest : List ForkItem} {i : ForkItem}
    (hclimbs : first.items.IsChain fun a b => b.Follows a)
    (hsplit : first.items = front ++ i :: rest) : first.back ∈ i :: i.ancestors := by
  obtain ⟨items, hitems⟩ : ∃ items, front ++ [i] = first.back :: items := by
    cases front with
    | nil =>
      rw [Branch.items, List.nil_append, List.cons.injEq] at hsplit
      exact ⟨[], by rw [hsplit.1]; rfl⟩
    | cons t front =>
      rw [Branch.items, List.cons_append, List.cons.injEq] at hsplit
      exact ⟨front ++ [i], by rw [hsplit.1]; rfl⟩
  have hprefix : (front ++ [i]).IsChain fun a b => b.Follows a := by
    refine hclimbs.prefix ⟨rest, ?_⟩
    rw [hsplit, List.append_assoc]
    rfl
  have hlast : (front ++ [i]).getLast? = some i := List.getLast?_concat
  rw [hitems] at hprefix hlast
  exact mem_line_of_climbs hprefix hlast

/-- **The new branch fails** at one of its items, after as many as apply to the objects. -/
theorem fails (h : Parted chain d item top n first second) (hd : Kept pushed chain d)
    (hitem : d.forkDb.Linked b item) {x : Database} {e : Exc}
    (hx : TakenBack chain (d.switching item first second) item n x)
    (hrun : (applyBranch skipNothing second first.items).run x = .error e d') :
    ∃ front i rest e' y, first.items = front ++ i :: rest ∧
      appliesUpTo (Snapshots.undo^[n] d.store).content (first.items.map (·.data)) = front.length ∧
      Fails chain d item n first front y ∧
      (restoreBranch skipNothing (i :: rest) second e').run y = .error e d' ∧
      ∃ x₁, (forM front fun i => applyInSession skipNothing i.data : DbM Unit).run x = .ok () x₁ ∧
        (applyInSession skipNothing i.data).run x₁ = .error e' y ∧ y.forkDb = x₁.forkDb := by
  obtain ⟨front, i, rest, x₁, e', y, hsplit, hfront, hi, hrestore⟩ := applyBranch_eq_error hrun
  have hclimbs := ForkDatabase.climbs_of_line h.forked.firstLine
  have hmounts : Mounts (chain.drop n) first.items := h.firstTops.mounts hclimbs
  rw [hsplit] at hmounts
  obtain ⟨hmounted, htops⟩ := hmounts.append
  have hlength := congrArg List.length hsplit
  rw [Branch.items, List.length_cons, h.firstLength, List.length_append, List.length_cons] at hlength
  have hle := h.le_length hd
  have hwindow := hd.main.onChain.window
  have hnum := h.num
  have hdrop : (chain.drop n).length = chain.length - n := List.length_drop
  -- The store is that of the shorter chain, and the head of the fork database the back.
  have hstore : x.store = Snapshots.undo^[n] d.store := by
    refine hx.main.onChain.store_eq (hd.main.onChain.undos h.undoable).1 ?_
    rw [hx.blockLog]
    rfl
  have hlog : x.blockLog = d.blockLog := hx.blockLog
  obtain ⟨z, hz, hfork⟩ := hx.head
  have hback := Kept.back_of_line h.forked.firstLine
  rw [h.firstLength] at hback
  obtain rfl : z = first.back := Option.some.inj (hz.symm.trans hback)
  have hbackNum := (ForkItem.ancestors_getElem hback).2
  have hhead : x.forkDb.head = some first.back := by rw [hfork]; rfl
  have hpos := h.pos
  have hlow : first.back.num - (min ((chain.drop n).length + 1) irreversibleBlockNum + 1) ≤
      chain.length - cacheDepth := by
    simp only [cacheDepth, irreversibleBlockNum] at hwindow ⊢
    omega
  obtain ⟨hmain, hlog₁, htrim⟩ := hx.main.mount hmounted hhead (by rw [hlog]; omega) hlow hfront
  rw [hfork] at htrim
  rw [hlog] at hlog₁
  -- So the failing block is one that the objects refuse.
  have hfind : Findable x₁.forkDb x₁.blockLog i.blocks := by
    rw [htops.blocks]
    refine htops.findable htrim.head (back_mem_line hclimbs hsplit) (by omega) (fun a ha hlow => ?_) _
    have hline : a ∈ item :: item.ancestors :=
      ForkItem.ancestors_trans (h.mem_line (hsplit ▸ by simp)) (List.mem_cons_of_mem _ ha)
    refine htrim.kept a (hd.cached hitem (by omega) a hline (by omega)) ?_
    simp only [cacheDepth, irreversibleBlockNum] at hwindow ⊢
    omega
  rcases hmain.next htops hfind with ⟨x₂, happly, -⟩ | ⟨e₂, herror, hrefused⟩
  · rw [hi] at happly
    cases happly
  · rw [hi] at herror
    cases herror
    have happlies : appliesUpTo x.store.content (first.items.map (·.data)) = front.length := by
      rw [hsplit]
      exact appliesUpTo_eq hfront hrefused
    rw [hstore] at happlies
    have hfails : Fails chain d item n first front (x₁.noting i.data) :=
      ⟨⟨hmain.settled, hmain.onChain, hmain.logged⟩, hlog₁,
        ⟨htrim.head, htrim.subset, htrim.kept⟩⟩
    exact ⟨front, i, rest, e', _, hsplit, happlies, hfails, hrestore, x₁, hfront, hi, rfl⟩

/-- The second branch is what the chain is longer by. -/
theorem mounted_second (h : Parted chain d item top n first second) :
    mounted (chain.drop n) second.items = chain := by
  have htake := ForkDatabase.data_of_line h.forked.secondLine
  rw [h.topBlocks, h.secondLength] at htake
  rw [mounted, htake, List.reverse_reverse, List.take_append_drop]

/-- The pushed item is among those from the failing one on. -/
theorem item_mem (h : Parted chain d item top n first second) {front rest : List ForkItem}
    {i : ForkItem} (hsplit : first.items = front ++ i :: rest) : item ∈ i :: rest := by
  have hlast : first.items.getLast? = some item :=
    (List.getLast_eq_iff_getLast?_eq_some (List.cons_ne_nil _ _)).mp
      (ForkDatabase.front_of_line h.forked.firstLine)
  rw [hsplit, List.getLast?_append_of_ne_nil _ (List.cons_ne_nil _ _)] at hlast
  exact List.mem_of_getLast? hlast

/-- Where the failing item is not the pushed one, the parent of that is among those from there on. -/
theorem parent_mem (h : Parted chain d item top n first second) {front rest : List ForkItem}
    {i : ForkItem} (hsplit : first.items = front ++ i :: rest) (hrest : rest ≠ []) :
    ∃ r ∈ i :: rest, r.id = item.data.previous := by
  have hlast : first.items.getLast? = some item :=
    (List.getLast_eq_iff_getLast?_eq_some (List.cons_ne_nil _ _)).mp
      (ForkDatabase.front_of_line h.forked.firstLine)
  obtain ⟨lower, last, rfl⟩ : ∃ lower last, rest = lower ++ [last] :=
    ⟨_, _, (List.dropLast_append_getLast hrest).symm⟩
  obtain ⟨below, r, hbelow⟩ : ∃ below r, i :: lower = below ++ [r] :=
    ⟨_, _, (List.dropLast_append_getLast (List.cons_ne_nil i lower)).symm⟩
  have hitems : first.items = (front ++ below) ++ r :: last :: [] := by
    rw [hsplit, ← List.cons_append, hbelow, List.append_assoc, List.append_assoc]
    rfl
  have hclimbs := ForkDatabase.climbs_of_line h.forked.firstLine
  rw [hitems] at hlast hclimbs
  obtain rfl : last = item := by simpa using hlast
  have hfollows := (List.isChain_append_cons_cons.mp hclimbs).2.1
  refine ⟨r, ?_, hfollows.previous.symm⟩
  rw [← List.cons_append, hbelow]
  simp

/-- The head of the chain is not on the first branch, unless the pushed block builds on it. -/
theorem top_not_mem (h : Parted chain d item top n first second)
    (hprev : item.data.previous ≠ headIdOf chain) {r : ForkItem} (hr : r ∈ first.items) :
    r.id ≠ headIdOf chain := by
  intro hid
  have htop : top.id = headIdOf chain := by
    rw [← h.topBlocks]
    rfl
  have hnum : r.num = top.num := blockNum_eq_of_id_eq (hid.trans htop.symm)
  have htopNum := h.topNum
  have hitemNum := h.num
  obtain ⟨k, hk⟩ := List.mem_iff_getElem?.mp (h.mem_line hr)
  have hknum := (ForkItem.ancestors_getElem hk).2
  obtain rfl : k = 1 := by omega
  cases hanc : item.ancestors with
  | nil => simp [hanc] at hk
  | cons p ps =>
    obtain rfl : p = r := by simpa [hanc] using hk
    have hfollows := (item.ancestors_eq_cons hanc).1
    exact hprev (hfollows.previous.trans hid)

/-- The items of the first branch are numbered upwards. -/
theorem front_lt (h : Parted chain d item top n first second) {front rest : List ForkItem}
    {i : ForkItem} (hsplit : first.items = front ++ i :: rest) {g r : ForkItem} (hg : g ∈ front)
    (hr : r ∈ i :: rest) : g.num < r.num := by
  have hclimbs := ForkDatabase.climbs_of_line h.forked.firstLine
  have hlt : (first.items.map (·.num)).IsChain (· < ·) := by
    rw [List.isChain_map]
    exact hclimbs.imp fun a b hfollows => by
      have := hfollows.num
      omega
  rw [List.isChain_iff_pairwise, List.pairwise_map, hsplit, List.pairwise_append] at hlt
  exact hlt.2.2 g hg r hr

/-- The head of the chain stays when the items from the failing one on are removed. -/
theorem top_stays (h : Parted chain d item top n first second)
    (hprev : item.data.previous ≠ headIdOf chain) {front rest : List ForkItem} {i : ForkItem}
    (hsplit : first.items = front ++ i :: rest) : headIdOf chain ∉ (i :: rest).map (·.id) := by
  intro hmem
  obtain ⟨r, hr, hid⟩ := List.mem_map.mp hmem
  exact h.top_not_mem hprev (hsplit ▸ List.mem_append_right _ hr) hid

/-- What is recent and not removed is still in the index. -/
theorem Fails.kept {front failed : List ForkItem} {old : Branch} {y : Database}
    (hy : Fails chain d item n first front y) {g : ForkItem}
    (hg : g ∈ (d.forkDb.pushed item).index) (hid : g.id ∉ failed.map (·.id))
    (hlow : chain.length - cacheDepth ≤ g.num) : g ∈ (y.restoring failed old).forkDb.index :=
  ForkDatabase.mem_removeAll.mpr ⟨hy.trim.kept g hg hlow, hid⟩

/-- What is in the index was there before and is not removed. -/
theorem Fails.subset {front failed : List ForkItem} {old : Branch} {y : Database}
    (hy : Fails chain d item n first front y) {g : ForkItem}
    (hg : g ∈ (y.restoring failed old).forkDb.index) :
    g ∈ (d.forkDb.pushed item).index ∧ g.id ∉ failed.map (·.id) := by
  obtain ⟨hmem, hid⟩ := ForkDatabase.mem_removeAll.mp hg
  exact ⟨hy.trim.subset g hmem, hid⟩

/-- The head of the fork database, when what was applied of the new branch is popped. -/
theorem restoring_head (h : Parted chain d item top n first second) (y : Database)
    (failed : List ForkItem) : (y.restoring failed second).forkDb.head = some top := by
  rw [← ForkDatabase.front_of_line h.forked.secondLine]
  rfl

/-- Something of the chain stays below what was applied of the new branch. -/
theorem front_length_lt (h : Parted chain d item top n first second) (hd : Kept pushed chain d)
    {front rest : List ForkItem} {i : ForkItem} (hsplit : first.items = front ++ i :: rest)
    (hrooted : second.back.data.previous = .null → front.length ≠ n) :
    front.length < chain.length := by
  have hle := h.le_length hd
  have hlength := congrArg List.length hsplit
  rw [Branch.items, List.length_cons, h.firstLength, List.length_append, List.length_cons] at hlength
  by_cases hall : front.length = n
  · refine Nat.lt_of_le_of_ne (by omega) fun heq => hrooted ?_ hall
    rw [h.secondTops.previous, List.drop_eq_nil_of_le (by omega)]
    rfl
  · omega

/-- **The way back is open**: what was applied of the new branch can be popped, down the line of the
old head, where the removed items leave no child behind and there is an item to pop down to. -/
theorem wayBack (h : Parted chain d item top n first second) (hd : Kept pushed chain d)
    (hitem : d.forkDb.Linked b item) (hprev : b.previous ≠ headIdOf chain)
    {front rest : List ForkItem} {i : ForkItem} {y : Database}
    (hsplit : first.items = front ++ i :: rest) (hy : Fails chain d item n first front y)
    (hdetached : Detached (d.forkDb.pushed item).index ((i :: rest).map (·.id)))
    (hrooted : second.back.data.previous = .null → front.length ≠ n) :
    OnMain (mounted (chain.drop n) front) (y.restoring (i :: rest) second) ∧
      front.length ≤ (y.restoring (i :: rest) second).store.frames.length ∧
      WayDown (mounted (chain.drop n) front) (y.restoring (i :: rest) second).forkDb top
        front.length := by
  have hpos := h.pos
  have hnum := h.num
  have hle := h.le_length hd
  have hwindow := hd.main.onChain.window
  have hhigher : chain.length < item.num := by omega
  have hlength := congrArg List.length hsplit
  rw [Branch.items, List.length_cons, h.firstLength, List.length_append, List.length_cons] at hlength
  have hdrop : (chain.drop n).length = chain.length - n := List.length_drop
  have hback := Kept.back_of_line h.forked.firstLine
  rw [h.firstLength] at hback
  have hbackNum := (ForkItem.ancestors_getElem hback).2
  have hitemPrev : item.data.previous ≠ headIdOf chain := by
    rw [hitem.data]
    exact hprev
  have htopMem : top ∈ (d.forkDb.pushed item).index := (hd.forest.mem_pushed hhigher).mpr (.inl h.topMem)
  have htopStays : top.id ∉ (i :: rest).map (·.id) := by
    have htopId : top.id = headIdOf chain := by
      rw [← h.topBlocks]
      rfl
    rw [htopId]
    exact h.top_stays hitemPrev hsplit
  have hline : ∀ a ∈ top.ancestors, chain.length - cacheDepth ≤ a.num →
      a ∈ (y.restoring (i :: rest) second).forkDb.index := by
    intro a ha hlow
    obtain ⟨hmem, hid⟩ := hd.forest.stays hitem hhigher hdetached htopMem htopStays ha hlow
    exact hy.kept hmem hid hlow
  have hmain : OnMain (mounted (chain.drop n) front) (y.restoring (i :: rest) second) :=
    ⟨hy.main.settled, hy.main.onChain, hy.main.logged⟩
  have hlog : (y.restoring (i :: rest) second).blockLog.blocks.length = d.blockLog.blocks.length :=
    hy.logs
  have hframes := hmain.onChain.frames
  rw [length_mounted, hlog] at hframes
  have hlonger := h.front_length_lt hd hsplit hrooted
  refine ⟨hmain, by omega, fun c hc => ?_, fun j hj => ?_⟩
  · rw [take_mounted, List.mem_reverse] at hc
    obtain ⟨g, hg, rfl⟩ := List.mem_map.mp hc
    have hgline := h.mem_line (hsplit ▸ List.mem_append_left _ hg)
    have hgback : first.back.num ≤ g.num := by
      obtain ⟨before, after, hfront⟩ := List.append_of_mem hg
      rw [hfront, List.append_assoc] at hsplit
      exact ForkItem.num_le_of_mem (back_mem_line
        (ForkDatabase.climbs_of_line h.forked.firstLine) hsplit)
    have hrecent : chain.length - cacheDepth ≤ g.num := by
      simp only [cacheDepth, irreversibleBlockNum] at hwindow ⊢
      omega
    have hgmem : g ∈ (d.forkDb.pushed item).index := by
      refine (hd.forest.mem_pushed hhigher).mpr ?_
      rcases List.mem_cons.mp hgline with rfl | hgline
      · exact .inr rfl
      · exact .inl (hd.forest.ancestor_mem hitem hgline hrecent)
    refine ⟨g, hy.kept hgmem (fun hmem => ?_) hrecent, rfl⟩
    obtain ⟨r, hr, hid⟩ := List.mem_map.mp hmem
    have hlt := h.front_lt hsplit hg hr
    have hsame : r.num = g.num := blockNum_eq_of_id_eq hid
    omega
  · have hlt : j < (top :: top.ancestors).length := by
      rw [← ForkItem.length_blocks, h.topBlocks]
      omega
    have hget := List.getElem?_eq_getElem hlt
    have hjnum := (ForkItem.ancestors_getElem hget).2
    have htopNum := h.topNum
    refine ⟨_, hget, fun hjpos => List.mem_append_left _ (hline _ ?_ ?_)⟩
    · obtain ⟨k, rfl⟩ : ∃ k, j = k + 1 := ⟨j - 1, by omega⟩
      exact List.getElem_mem _
    · simp only [cacheDepth, irreversibleBlockNum] at hwindow ⊢
      omega

/-- The recovery of a switch that fails: what was applied of the new branch is popped, down the line
of the old head, and the old branch is applied again. -/
structure Recovers (chain : List SignedBlock) (top : ForkItem) (n a : Nat) (second : Branch)
    (y w d' : Database) : Prop where
  main : OnMain (chain.drop n) w
  head : ∃ z, (top :: top.ancestors)[a]? = some z ∧ w.forkDb = y.forkDb.setHead z
  blockLog : w.blockLog = y.blockLog
  applied : (forM second.items fun i => applyInSession skipNothing i.data : DbM Unit).run w =
    .ok () d'

/-- **The recovery is carried through**, where the removed items leave no child behind and there is an
item to pop down to. -/
theorem recovers (h : Parted chain d item top n first second) (hd : Kept pushed chain d)
    (hitem : d.forkDb.Linked b item) (hprev : b.previous ≠ headIdOf chain)
    {front rest : List ForkItem} {i : ForkItem} {y : Database} (e' : Exc)
    (hsplit : first.items = front ++ i :: rest) (hy : Fails chain d item n first front y)
    (hdetached : Detached (d.forkDb.pushed item).index ((i :: rest).map (·.id)))
    (hrooted : second.back.data.previous = .null → front.length ≠ n) :
    ∃ w d', (restoreBranch skipNothing (i :: rest) second e').run y = .error e' d' ∧
      Recovers chain top n front.length second (y.restoring (i :: rest) second) w d' := by
  have hpos := h.pos
  have hle := h.le_length hd
  have hwindow := hd.main.onChain.window
  have hdrop : (chain.drop n).length = chain.length - n := List.length_drop
  obtain ⟨hmain₁, hframes₁, hway⟩ := h.wayBack hd hitem hprev hsplit hy hdetached hrooted
  have hlog₁ : (y.restoring (i :: rest) second).blockLog.blocks.length =
      d.blockLog.blocks.length := hy.logs
  obtain ⟨w, hpop, hw⟩ :=
    hmain₁.popUntil_returns (h.restoring_head y (i :: rest)) hframes₁ hway
  rw [drop_mounted, ← h.secondTops.previous] at hpop
  have hwMain := hw.main
  rw [drop_mounted] at hwMain
  obtain ⟨z, hz, hwFork⟩ := hw.head
  have hmounts : Mounts (chain.drop n) second.items :=
    h.secondTops.mounts (ForkDatabase.climbs_of_line h.forked.secondLine)
  have hheight : (chain.drop n).length + second.items.length ≤
      w.blockLog.blocks.length + irreversibleBlockNum := by
    rw [hw.blockLog, hlog₁, h.secondLength]
    omega
  have hplays : Plays (mounted (chain.drop n) second.items) := by
    rw [h.mounted_second]
    exact ⟨(), _, hd.main.onChain.tracks.content.run⟩
  obtain ⟨d', hitems⟩ := hwMain.remount hmounts (by rw [hwFork]; rfl) hheight hplays
  refine ⟨w, d', ?_, hwMain, ⟨z, hz, hwFork⟩, hw.blockLog, hitems⟩
  have hstart : ({ y with forkDb := (y.forkDb.removeAll (i :: rest)).setHead second.front } :
      Database) = y.restoring (i :: rest) second := rfl
  rw [run_restoreBranch]
  simp only [hstart, hpop, hitems]

/-- **The old branch is restored**, where applying it again prunes nothing recent besides. -/
theorem restores (h : Parted chain d item top n first second) (hd : Kept pushed chain d)
    (hitem : d.forkDb.Linked b item) (hprev : b.previous ≠ headIdOf chain)
    {front rest : List ForkItem} {i : ForkItem} {y w : Database}
    (hsplit : first.items = front ++ i :: rest) (hy : Fails chain d item n first front y)
    (hdetached : Detached (d.forkDb.pushed item).index ((i :: rest).map (·.id)))
    (hrooted : second.back.data.previous = .null → front.length ≠ n)
    (hprunes : chain.length - front.length - (min (chain.length + 1 - n) irreversibleBlockNum + 1) ≤
      chain.length - cacheDepth)
    (hw : Recovers chain top n front.length second (y.restoring (i :: rest) second) w d') :
    Kept (pushed ++ [b]) chain d' ∧ d'.forkDb.maxSize = NewsChain.forkWindow d'.gpo ∧
      (∀ g ∈ d'.forkDb.index, g.id ∉ (i :: rest).map (·.id)) ∧
      ∀ g ∈ (d.forkDb.pushed item).index, g.id ∉ (i :: rest).map (·.id) →
        chain.length - cacheDepth ≤ g.num → g ∈ d'.forkDb.index := by
  have hpos := h.pos
  have hnum := h.num
  have hle := h.le_length hd
  have hwindow := hd.main.onChain.window
  have hdrop : (chain.drop n).length = chain.length - n := List.length_drop
  have hitemPrev : item.data.previous ≠ headIdOf chain := by
    rw [hitem.data]
    exact hprev
  have hgone : item.id ∈ (i :: rest).map (·.id) := List.mem_map_of_mem (h.item_mem hsplit)
  have hlonger := h.front_length_lt hd hsplit hrooted
  have hlog : w.blockLog.blocks.length = d.blockLog.blocks.length := by
    rw [hw.blockLog]
    exact hy.logs
  obtain ⟨z, hz, hwFork⟩ := hw.head
  have hznum := (ForkItem.ancestors_getElem hz).2
  have htopNum := h.topNum
  have hwHead : w.forkDb.head = some z := by rw [hwFork]; rfl
  have hmounts : Mounts (chain.drop n) second.items :=
    h.secondTops.mounts (ForkDatabase.climbs_of_line h.forked.secondLine)
  have hheight : (chain.drop n).length + second.items.length ≤
      w.blockLog.blocks.length + irreversibleBlockNum := by
    rw [hlog, h.secondLength]
    omega
  have hlow : z.num - (min ((chain.drop n).length + 1) irreversibleBlockNum + 1) ≤
      chain.length - cacheDepth := by
    have hsame : (chain.drop n).length + 1 = chain.length + 1 - n := by omega
    rw [hsame]
    omega
  obtain ⟨hmain₃, hlog₃, htrim₃⟩ := hw.main.mount hmounts hwHead hheight hlow hw.applied
  rw [h.mounted_second] at hmain₃
  have hwIndex : w.forkDb.index = (y.restoring (i :: rest) second).forkDb.index := by
    rw [hwFork]
    rfl
  have hsubset : ∀ g ∈ d'.forkDb.index,
      g ∈ (d.forkDb.pushed item).index ∧ g.id ∉ (i :: rest).map (·.id) := fun g hg =>
    hy.subset (hwIndex ▸ htrim₃.subset g hg)
  have hkeeps : ∀ g ∈ (d.forkDb.pushed item).index, g.id ∉ (i :: rest).map (·.id) →
      chain.length - cacheDepth ≤ g.num → g ∈ d'.forkDb.index := fun g hg hid hlow =>
    htrim₃.kept g (hwIndex ▸ hy.kept hg hid hlow) hlow
  refine ⟨⟨hmain₃, by rw [hlog₃, hlog, hd.logs], ?_⟩,
    maxSize_applyItems (List.cons_ne_nil _ _) hw.applied, fun g hg => (hsubset g hg).2, hkeeps⟩
  exact hd.forest.failed hitem hnum hgone (h.top_stays hitemPrev hsplit) hdetached hsubset hkeeps
    (htrim₃.head.trans hwHead) ⟨by omega, fun _ => by omega⟩

end Parted

/-- The blocks of `first` that apply once those of `second` are undone. -/
def Database.switchTakes (d : Database) (first second : Branch) : Nat :=
  appliesUpTo (Snapshots.undo^[second.items.length] d.store).content (first.items.map (·.data))

/-- What it takes to restore a switch that fails. The undo stack reaches down to where the branches
part; the items from the failing one on have no other children; there is an item to pop down to; and
applying the old branch again prunes nothing that is recent. -/
structure Recoverable (d : Database) (fdb : ForkDatabase) (first second : Branch) : Prop where
  undoable : second.items.length ≤ d.store.frames.length
  leaves : Detached fdb.index ((first.items.drop (d.switchTakes first second)).map (·.id))
  rooted : second.back.data.previous = .null →
    d.switchTakes first second ≠ second.items.length
  recent : d.switchTakes first second ≤ second.items.length →
    d.headBlockNum - d.switchTakes first second -
      (min (d.headBlockNum + 1 - second.items.length) irreversibleBlockNum + 1) ≤
        d.headBlockNum - cacheDepth

/-- **A switch that fails** leaves the main chain where it was, and has sized the fork database. -/
theorem Kept.switch_fails (h : Kept pushed chain d) (hitem : d.forkDb.Linked b item)
    (hnew : d.forkDb.raisedHead item = item) (hprev : b.previous ≠ headIdOf chain)
    (hhigher : chain.length < item.num)
    (hfetch : (d.forkDb.pushed item).fetchBranchFrom item.id (headIdOf chain) = .ok (first, second))
    (hrecoverable : Recoverable d (d.forkDb.pushed item) first second) {e : Exc}
    (hrun : (switchForks skipNothing item).run { d with forkDb := d.forkDb.pushed item } =
      .error e d') :
    Kept (pushed ++ [b]) chain d' ∧ d'.forkDb.maxSize = NewsChain.forkWindow d'.gpo := by
  obtain ⟨top, hparted⟩ := h.parted hitem hhigher hfetch hrecoverable.undoable
  have hid : Database.headBlockId { d with forkDb := d.forkDb.pushed item } = headIdOf chain :=
    h.headBlockId
  obtain ⟨x, hpop, hx⟩ := hparted.pops h hnew
  have hstart : ({ d with forkDb := (d.forkDb.pushed item).hold (first.items ++ second.items) } :
      Database) = d.switching item first second := rfl
  rw [run_switchForks, hid] at hrun
  simp only [hfetch, hstart, hpop] at hrun
  obtain ⟨front, i, rest, e', y, hsplit, htakes, hy, hrestore, -⟩ :=
    hparted.fails h hitem hx hrun
  change d.switchTakes first second = front.length at htakes
  have hlength := congrArg List.length hsplit
  have hfirst := hparted.firstLength
  have hsecond := hparted.secondLength
  rw [Branch.items, List.length_cons, hfirst, List.length_append, List.length_cons] at hlength
  obtain ⟨-, hleaves, hrooted, hrecent⟩ := hrecoverable
  rw [htakes, hsplit, List.drop_left] at hleaves
  rw [htakes] at hrooted hrecent
  rw [h.headBlockNum] at hrecent
  obtain ⟨w, d₁, hrun₁, hw⟩ := hparted.recovers h hitem hprev e' hsplit hy hleaves hrooted
  rw [hrestore] at hrun₁
  cases hrun₁
  obtain ⟨hkept, hsize, -⟩ :=
    hparted.restores h hitem hprev hsplit hy hleaves hrooted (hrecent (by omega)) hw
  exact ⟨hkept, hsize⟩

end NewsChain
