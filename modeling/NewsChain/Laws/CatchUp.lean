import NewsChain.Laws.Agreement
import NewsChain.Laws.Atomicity
import NewsChain.Laws.BranchMeeting
import NewsChain.Laws.ForkWindow

/-!
# Catching up

A node that is behind another one gets the blocks it misses, oldest first. `returnedRun_catchesUp` says
that it takes them all: as long as its own chain left the longer one no lower than its last irreversible
block, every push returns, and it ends in the state of the other node. The blocks below its head are
kept as a fork, the first one above it makes it switch, and the rest goes on top.
-/

namespace NewsChain

open EStateM (Result)
open ForkDatabase (Linked cacheDepth)

section Chains

variable [Node] {pushed chain line : List SignedBlock} {d d' : Database} {b : SignedBlock}
  {item : ForkItem} {answer : Bool} {fdb : ForkDatabase}

/-! ## Linking on -/

/-- The blocks of a line, newest first, have an item. -/
def HasLine (fdb : ForkDatabase) (line : List SignedBlock) : Prop :=
  line = [] ∨ ∃ t ∈ fdb.index, t.blocks = line ∧ t.num = line.length

theorem HasLine.eq_nil_of_null (h : HasLine fdb line) (hnull : headIdOf line = .null) :
    line = [] := by
  rcases h with hnil | ⟨t, -, rfl, hnum⟩
  · exact hnil
  · exfalso
    have hid : t.id = .null := hnull
    have hzero : t.num = 0 := by
      rw [ForkItem.num, ← numFromId_id t.data.toSignedBlockHeader]
      exact (congrArg numFromId hid).trans numFromId_null
    rw [ForkItem.blocks, List.length_cons] at hnum
    omega

/-- What goes on a line that has an item has that item as its parent. -/
theorem HasLine.blocks_eq (h : HasLine fdb line) {i : ForkItem}
    (hprev : i.data.previous = headIdOf line) (hroot : i.line = [] → line = [])
    (hparent : ∀ p, i.Follows p → p ∈ fdb.index) : i.blocks = i.data :: line := by
  cases hancestors : i.ancestors with
  | nil =>
    have hnil := i.ancestors_eq_nil.mp hancestors
    rw [hroot hnil, ForkItem.blocks, hnil, List.map_nil]
  | cons p ps =>
    obtain ⟨hfollows, -⟩ := i.ancestors_eq_cons hancestors
    rcases h with rfl | ⟨t, ht, rfl, -⟩
    · exact absurd hprev hfollows.buildsOn.1
    · have hid : p.id = t.id := hfollows.previous.symm.trans hprev
      obtain rfl : p = t := fdb.index_unique (hparent p hfollows) ht hid
      rw [ForkItem.blocks, hfollows]
      rfl

/-- The fork database takes in blocks as far down as there are undo states. -/
def Wide (d : Database) : Prop := min d.headBlockNum irreversibleBlockNum + 1 ≤ d.forkDb.maxSize

/-- A block on a line that has an item is linked in, on top of it. -/
theorem Kept.links (h : Kept pushed chain d) (hwide : Wide d) (hline : HasLine d.forkDb line)
    (hprev : b.previous = headIdOf line) (hnum : b.blockNum = line.length + 1)
    (hrecent : chain.length ≤ line.length + irreversibleBlockNum) :
    ∃ item, d.forkDb.link b = .ok item ∧ item.blocks = b :: line := by
  rw [Wide, h.headBlockNum] at hwide
  have hlink : ∃ item, d.forkDb.link b = .ok item := by
    apply ForkDatabase.link_returns
    · intro head hhead
      have hle := (h.forest.head head hhead).1
      simp only [irreversibleBlockNum] at hwide hrecent
      omega
    · rcases hline with rfl | ⟨t, ht, rfl, -⟩
      · exact .inl hprev
      · right
        have hfetch : d.forkDb.fetchBlock b.previous = some t :=
          ForkDatabase.fetchBlock_eq_some.mpr ⟨ht, hprev.symm⟩
        rw [hfetch]
        exact Option.some_ne_none t
  obtain ⟨item, hitem⟩ := hlink
  have hlinked := ForkDatabase.link_eq_ok hitem
  refine ⟨item, hitem, ?_⟩
  rw [← hlinked.data]
  apply hline.blocks_eq
  · rw [hlinked.data, hprev]
  · intro hroot
    rcases hlinked.line with ⟨-, hnone | hnull⟩ | ⟨p, -, hfollows⟩
    · rcases hline with hnil | ⟨t, ht, -⟩
      · exact hnil
      · rw [(h.forest.fresh hnone).1] at ht
        exact absurd ht List.not_mem_nil
    · exact hline.eq_nil_of_null (hprev.symm.trans hnull)
    · rw [hfollows] at hroot
      cases hroot
  · intro p hp
    apply h.forest.ancestor_mem hlinked
    · rw [hp.ancestors]
      exact List.mem_cons_self
    · have hpnum := hp.num
      have hitemNum : item.num = b.blockNum := by rw [ForkItem.num, hlinked.data]
      simp only [cacheDepth, irreversibleBlockNum] at hrecent ⊢
      omega

/-- A block that is already there is there on the same line. -/
theorem Kept.blocks_of_known (h : Kept pushed chain d) (hline : HasLine d.forkDb line)
    (hprev : b.previous = headIdOf line) (hnum : b.blockNum = line.length + 1)
    (hrecent : chain.length ≤ line.length + irreversibleBlockNum)
    (hids : ∀ c ∈ pushed, c.id = b.id → c = b) {i : ForkItem} (hi : i ∈ d.forkDb.index)
    (hid : i.id = b.id) : i.blocks = b :: line := by
  have hdata : i.data = b := hids _ (h.forest.known i hi _ List.mem_cons_self) hid
  have hinum : i.num = line.length + 1 := by rw [ForkItem.num, hdata, hnum]
  rw [← hdata]
  apply hline.blocks_eq
  · rw [hdata, hprev]
  · intro hroot
    rcases h.forest.rooted i hi hroot with hnull | hzero
    · apply hline.eq_nil_of_null
      rw [← hprev, ← hdata, hnull]
    · omega
  · intro p hp
    apply h.forest.closed i hi
    · rw [hp.ancestors]
      exact List.mem_cons_self
    · have hpnum := hp.num
      simp only [cacheDepth, irreversibleBlockNum] at hrecent ⊢
      omega

/-- An item above the chain becomes the head of the fork database. -/
theorem Kept.raises (h : Kept pushed chain d) (hhigher : chain.length < item.num) :
    d.forkDb.raisedHead item = item := by
  rcases d.forkDb.raisedHead_cases item with ⟨hnew, -⟩ | ⟨hold, hle⟩
  · exact hnew
  · have hlow := (h.forest.head _ hold).1
    omega

/-! ## Below the head -/

/-- A block that is no higher than the head is kept, and that is all. -/
theorem Kept.ignores (h : Kept pushed chain d) (hlink : d.forkDb.link b = .ok item)
    (hle : item.num ≤ chain.length) :
    (releaseItems (pushBlockImpl skipNothing b)).run d =
      .ok false { d with forkDb := (d.forkDb.pushed item).hold [] } := by
  have hitem := ForkDatabase.link_eq_ok hlink
  have hpush := ForkDatabase.pushBlock_eq_ok.mpr ⟨item, hlink, rfl, rfl⟩
  have hstays : (d.forkDb.raisedHead item).data.previous ≠ d.headBlockId ∧
      ¬ d.headBlockNum < (d.forkDb.raisedHead item).num := by
    rw [h.headBlockNum]
    rcases d.forkDb.raisedHead_cases item with ⟨hnew, -⟩ | ⟨hold, -⟩
    · rw [hnew]
      refine ⟨fun hprev => ?_, Nat.not_lt.mpr hle⟩
      rw [hitem.data] at hprev
      have hnum := (h.tops hitem hprev).num
      omega
    · exact ⟨h.head_stays hold, Nat.not_lt.mpr (h.forest.head _ hold).1⟩
  rw [run_releaseItems, run_pushBlockImpl, hpush]
  simp only [if_pos hstays.1, if_neg hstays.2]

/-- The line goes on in the index. -/
theorem Kept.hasLine_pushed (h : Kept pushed chain d) (hline : HasLine d.forkDb line)
    (hprev : b.previous = headIdOf line) (hnum : b.blockNum = line.length + 1)
    (hrecent : chain.length ≤ line.length + irreversibleBlockNum)
    (hids : ∀ c ∈ pushed, c.id = b.id → c = b) (hblocks : item.blocks = b :: line) :
    HasLine (d.forkDb.pushed item) (b :: line) := by
  have hdata : item.data = b := (List.cons.inj hblocks).1
  right
  by_cases hknown : item.id ∈ d.forkDb.index.map (·.id)
  · obtain ⟨i, hi, hid⟩ := List.mem_map.mp hknown
    have hid' : i.id = b.id := by rw [hid, ForkItem.id, hdata]
    have hiblocks := h.blocks_of_known hline hprev hnum hrecent hids hi hid'
    refine ⟨i, ForkDatabase.mem_insert.mpr (.inl hi), hiblocks, ?_⟩
    rw [ForkItem.num, (List.cons.inj hiblocks).1, hnum, List.length_cons]
  · refine ⟨item, ForkDatabase.mem_insert.mpr (.inr ⟨rfl, hknown⟩), hblocks, ?_⟩
    rw [ForkItem.num, hdata, hnum, List.length_cons]

/-! ## On the head -/

/-- A block on the head that plays is applied. -/
theorem Kept.extends (h : Kept pushed chain d) (hlink : d.forkDb.link b = .ok item)
    (hprev : b.previous = headIdOf chain) (hplays : Plays (b :: chain)) :
    ∃ d', (releaseItems (pushBlockImpl skipNothing b)).run d = .ok true d' := by
  have hitem := ForkDatabase.link_eq_ok hlink
  have hprev' : b.previous = d.headBlockId := hprev.trans h.headBlockId.symm
  have hnum := (h.tops hitem hprev').num
  have hnew : d.forkDb.raisedHead item = item := h.raises (by omega)
  have hpush := ForkDatabase.pushBlock_eq_ok.mpr ⟨item, hlink, rfl, rfl⟩
  have hstays : ¬ (d.forkDb.raisedHead item).data.previous ≠ d.headBlockId := by
    rw [hnew, hitem.data]
    exact not_not.mpr hprev'
  rw [run_releaseItems, run_pushBlockImpl, hpush]
  simp only [if_neg hstays]
  rcases (Standing.kept h).direct hitem hprev with ⟨d', happly, -⟩ | ⟨e, d', -, -, -, hrefused, -⟩
  · rw [happly]
    exact ⟨_, rfl⟩
  · exact absurd (h.main.replays hplays) hrefused

/-! ## Switching -/

/-- The blocks that a chain goes on with apply one after the other. -/
theorem appliesUpTo_of_plays {blocks : List SignedBlock} {o : Objects}
    (hrun : (Objects.applyBlocks skipNothing chain.reverse).run genesis = .ok () o)
    (hplays : Plays (blocks.reverse ++ chain)) : appliesUpTo o blocks = blocks.length := by
  induction blocks generalizing chain o with
  | nil => rfl
  | cons b blocks ih =>
    rw [List.reverse_cons, List.append_assoc, List.singleton_append] at hplays
    obtain ⟨_, o', hnext⟩ := hplays.tail
    obtain ⟨o₁, hrun₁, happly⟩ := applyBlocks_cons.mp hnext
    rw [hrun] at hrun₁
    cases hrun₁
    rw [appliesUpTo, happly]
    simp only [ih hnext hplays, List.length_cons]

/-- An item of the line at a depth, with the chain below it. -/
theorem lineage_of_line (fdb : ForkDatabase) (item : ForkItem) {n : Nat}
    (hlinked : LinkedChain item.blocks) (hlt : n < item.blocks.length)
    (hcached : ∀ a ∈ item.ancestors, item.num ≤ a.num + n → a ∈ fdb.index) :
    ∃ x ∈ fdb.lineage item, x.num + n = item.num ∧
      x.data.previous = headIdOf (item.blocks.drop (n + 1)) := by
  have hlt' : n < (item :: item.ancestors).length := by rwa [← item.length_blocks]
  have hx := List.getElem?_eq_getElem hlt'
  generalize (item :: item.ancestors)[n] = x at hx
  have hnum := (ForkItem.ancestors_getElem hx).2
  have hblocks := ForkItem.blocks_getElem hx
  have hmem : x ∈ fdb.lineage item := by
    apply List.mem_of_getElem?
    apply ForkDatabase.lineage_getElem hx
    intro c hc hle
    exact hcached c hc (by omega)
  refine ⟨x, hmem, hnum, ?_⟩
  have hdrop := hlinked.drop n
  have hrest : item.blocks.drop (n + 1) = x.line.map (·.data) := by
    rw [← List.tail_drop, ← hblocks]
    rfl
  rw [← hblocks] at hdrop
  rw [hrest]
  exact hdrop.1

/-- The first branch is what the line of the pushed item is longer by. -/
theorem Parted.mounted_first {top : ForkItem} {n : Nat} {first second : Branch}
    (h : Parted chain d item top n first second) :
    mounted (chain.drop n) first.items = item.blocks := by
  obtain ⟨below, hline⟩ := h.forked.firstLine
  obtain ⟨rest, hrest⟩ := ForkDatabase.lineage_prefix (d.forkDb.pushed item) item
  have hbegins : (first.items.map (·.data)).reverse <+: item.blocks := by
    rw [← ForkItem.map_data_ancestors, ← List.map_reverse]
    refine List.IsPrefix.map _ ⟨below ++ rest, ?_⟩
    rw [← hrest, hline, List.append_assoc]
  have htake := List.prefix_iff_eq_take.mp hbegins
  have hback := Kept.back_of_line h.forked.firstLine
  rw [h.firstLength] at hback
  have hdrop : item.blocks.drop (n + 1) = chain.drop n := by
    rw [← List.tail_drop, ← ForkItem.blocks_getElem hback, h.firstTops.blocks, List.tail_cons]
  rw [List.length_reverse, List.length_map, Branch.items, List.length_cons, h.firstLength] at htake
  rw [mounted, Branch.items, htake, ← hdrop, List.take_append_drop]

/-- A block above the head on a line that plays, where the line leaves the chain no deeper than there
are undo states: the chain is left for the line. -/
theorem Kept.switches (h : Kept pushed chain d) (hlink : d.forkDb.link b = .ok item) {n : Nat}
    {front : List SignedBlock} (hblocks : item.blocks = b :: (front ++ chain.drop n))
    (hlength : front.length = n) (hle : n ≤ d.store.frames.length) (hnum : item.num = chain.length + 1)
    (hlinked : LinkedChain item.blocks) (hprev : b.previous ≠ headIdOf chain)
    (hplays : Plays item.blocks) :
    ∃ d', (releaseItems (pushBlockImpl skipNothing b)).run d = .ok true d' := by
  have hitem := ForkDatabase.link_eq_ok hlink
  have hpush := ForkDatabase.pushBlock_eq_ok.mpr ⟨item, hlink, rfl, rfl⟩
  have hhigher : chain.length < item.num := by omega
  have hnew := h.raises hhigher
  have hframes := h.main.onChain.frames
  have hwindow := h.main.onChain.window
  have hpos : 0 < n := by
    rcases Nat.eq_zero_or_pos n with rfl | hpos
    · rw [List.length_eq_zero_iff.mp hlength, List.nil_append, List.drop_zero] at hblocks
      rw [hblocks] at hlinked
      exact absurd hlinked.1 hprev
    · exact hpos
  have hswitches : (d.forkDb.raisedHead item).data.previous ≠ d.headBlockId ∧
      d.headBlockNum < (d.forkDb.raisedHead item).num := by
    rw [hnew, hitem.data, h.headBlockId, h.headBlockNum]
    exact ⟨hprev, hhigher⟩
  -- The two lines come to items with one previous id where they part.
  obtain ⟨m, hm, hmblocks, hmnum⟩ := h.forest.top (List.length_pos_iff.mp (by omega))
  have hmem : item ∈ (d.forkDb.pushed item).index := (h.forest.mem_pushed hhigher).mpr (.inr rfl)
  have hmmem : m ∈ (d.forkDb.pushed item).index := (h.forest.mem_pushed hhigher).mpr (.inl hm)
  have hmid : m.id = headIdOf chain := by
    rw [← hmblocks]
    rfl
  have hitemLength : n < item.blocks.length := by
    rw [hblocks, List.length_cons, List.length_append]
    omega
  obtain ⟨x, hx, hxnum, hxprev⟩ := lineage_of_line (d.forkDb.pushed item) item hlinked hitemLength
    (fun a ha hlow => (h.forest.mem_pushed hhigher).mpr (.inl (h.forest.ancestor_mem hitem ha
      (by simp only [cacheDepth, irreversibleBlockNum] at hwindow ⊢; omega))))
  obtain ⟨y, hy, hynum, hyprev⟩ := lineage_of_line (d.forkDb.pushed item) m (n := n - 1)
    (hmblocks ▸ h.main.onChain.linked) (by rw [hmblocks]; omega)
    (fun a ha hlow => (h.forest.mem_pushed hhigher).mpr (.inl (h.forest.closed m hm a ha
      (by simp only [cacheDepth, irreversibleBlockNum] at hwindow ⊢; omega))))
  have hsame : x.data.previous = y.data.previous := by
    have hn : n - 1 + 1 = n := by omega
    have hdrop : (front ++ chain.drop n).drop n = chain.drop n := by
      rw [← hlength, List.drop_left]
    rw [hxprev, hyprev, hblocks, hmblocks, List.drop_succ_cons, hn, hdrop]
  have hfetchItem := ForkDatabase.fetchBlock_eq_some.mpr ⟨hmem, rfl⟩
  have hfetchTop := ForkDatabase.fetchBlock_eq_some.mpr ⟨hmmem, hmid⟩
  obtain ⟨first, second, hfetch⟩ := ForkDatabase.fetchBranchFrom_returns hfetchItem hfetchTop hx hy
    (by omega) hsame
  -- So the undo stack reaches down to where the branches part.
  have hundoable : second.items.length ≤ d.store.frames.length := by
    obtain ⟨f, s, hf, hs, hmeeting⟩ := ForkDatabase.meeting_of_fetchBranchFrom hfetch
    rw [hfetchItem] at hf
    rw [hfetchTop] at hs
    cases hf
    cases hs
    have hback := ForkDatabase.num_of_lineage (ForkDatabase.back_getElem hmeeting.secondPath)
    have hmeet := hmeeting.num_le hx hy (by omega) hsame
    have hmeetNum := hmeeting.num
    rw [Branch.items, List.length_cons]
    omega
  obtain ⟨top, hparted⟩ := h.parted hitem hhigher hfetch hundoable
  obtain ⟨d₁, hpop, htaken⟩ := hparted.pops h hnew
  rw [run_releaseItems, run_pushBlockImpl, hpush]
  simp only [if_pos hswitches.1, if_pos hswitches.2]
  rw [hnew]
  have hid : Database.headBlockId { d with forkDb := d.forkDb.pushed item } = headIdOf chain :=
    h.headBlockId
  rw [run_switchForks, hid]
  rw [Database.switching] at hpop
  simp only [hfetch, hpop]
  cases happly : (applyBranch skipNothing second first.items).run d₁ with
  | ok a d₂ =>
    obtain ⟨rfl, -⟩ := applyBranch_eq_ok happly
    exact ⟨_, rfl⟩
  | error e d₂ =>
    exfalso
    obtain ⟨done, i, rest, _, _, hsplit, hfails, -, -⟩ := hparted.fails h hitem htaken happly
    have hmounted := hparted.mounted_first
    rw [mounted] at hmounted
    rw [← hmounted] at hplays
    have hundone := (h.main.onChain.undos hundoable).1.tracks.content.run
    have hall := appliesUpTo_of_plays hundone hplays
    rw [hfails, hsplit, List.length_map, List.length_append, List.length_cons] at hall
    omega

/-! ## One block after the other -/

theorem Kept.known (h : Kept pushed chain d) : ∀ c ∈ chain, c ∈ pushed := by
  intro c hc
  obtain ⟨m, hm, hblocks, -⟩ := h.forest.top (List.ne_nil_of_mem hc)
  exact h.forest.known m hm c (hblocks ▸ hc)

/-- The fork database stays wide. -/
theorem Kept.wide (h : Kept pushed chain d) (hwide : Wide d)
    (hrun : (releaseItems (pushBlockImpl skipNothing b)).run d = .ok answer d') : Wide d' := by
  obtain ⟨chain', -, hkept'⟩ := h.returns hrun
  have hwindow := hkept'.forkWindow
  rw [run_releaseItems] at hrun
  cases himpl : (pushBlockImpl skipNothing b).run d with
  | error e c => simp [himpl] at hrun
  | ok a c =>
    rw [himpl] at hrun
    cases hrun
    rcases maxSize_pushBlockImpl himpl with ⟨hsame, hgpo⟩ | hsized
    · have hnum : c.headBlockNum = d.headBlockNum := by
        rw [Database.headBlockNum, Database.headBlockNum, hgpo]
      change min c.headBlockNum irreversibleBlockNum + 1 ≤ c.forkDb.maxSize
      rw [hsame, hnum]
      exact hwide
    · rw [Wide, hkept'.headBlockNum, ← hwindow]
      exact hsized.ge

theorem ReturnedRun.wide {P : Database → SignedBlock → Prop} (h : ReturnedRun P pushed d) :
    Wide d.settled := by
  induction h with
  | genesis =>
    rw [Wide, Database.settled_of_idle rfl rfl, kept_genesis.headBlockNum]
    exact Nat.le_add_left 1 1023
  | push b hd _ hrun ih =>
    obtain ⟨-, chain, hkept⟩ := hd.kept
    exact hkept.wide ih (settled_pushBlock hrun).1

/-- What is below a line has an item, as far down as items are kept. -/
theorem Kept.hasLine_below (h : Kept pushed chain d) (hline : HasLine d.forkDb line) {n : Nat}
    (hrecent : chain.length + n ≤ line.length + cacheDepth) : HasLine d.forkDb (line.drop n) := by
  by_cases hlt : n < line.length
  · obtain ⟨t, ht, hblocks, hnum⟩ := hline.resolve_left (List.length_pos_iff.mp (by omega))
    have hlt' : n < (t :: t.ancestors).length := by rwa [← t.length_blocks, hblocks]
    have hx := List.getElem?_eq_getElem hlt'
    generalize (t :: t.ancestors)[n] = x at hx
    have hxnum := (ForkItem.ancestors_getElem hx).2
    have hxblocks := ForkItem.blocks_getElem hx
    have hxmem : x ∈ d.forkDb.index := by
      rcases List.mem_cons.mp (List.mem_of_getElem? hx) with rfl | hancestor
      · exact ht
      · apply h.forest.closed t ht x hancestor
        omega
    refine .inr ⟨x, hxmem, by rw [hxblocks, hblocks], ?_⟩
    rw [List.length_drop]
    omega
  · exact .inl (List.drop_eq_nil_of_le (Nat.le_of_not_lt hlt))

/-- The main chain has one. -/
theorem Kept.hasLine (h : Kept pushed chain d) : HasLine d.forkDb chain := by
  cases chain with
  | nil => exact .inl rfl
  | cons c rest => exact .inr (h.forest.top (List.cons_ne_nil _ _))

/-- While a node catches up it has the blocks of `line`: as a fork that leaves its main chain `n`
blocks down, or as its main chain. -/
inductive CatchingUp (start : List SignedBlock) (n : Nat) (pushed line : List SignedBlock)
    (d : Database) : Prop
  | behind (front : List SignedBlock) : Kept pushed start d → Wide d → HasLine d.forkDb line →
      line = front ++ start.drop n → line.length ≤ start.length →
      CatchingUp start n pushed line d
  | ahead : Kept pushed line d → Wide d → CatchingUp start n pushed line d

/-- A block on the line that becomes the head: the line is then the main chain. -/
theorem CatchingUp.of_true {start : List SignedBlock} {n : Nat} (h : Kept pushed chain d)
    (hwide : Wide d) (hlength : line.length = chain.length) (hlinked : LinkedChain (b :: line))
    (hids : Unmistakable (pushed ++ [b]) (b :: line))
    (hrun : (releaseItems (pushBlockImpl skipNothing b)).run d = .ok true d') :
    CatchingUp start n (pushed ++ [b]) (b :: line) d' := by
  obtain ⟨chain', hstep, hkept'⟩ := h.returns hrun
  have hlength' := hstep.length
  have hhead := hstep.head
  rw [if_pos rfl] at hlength' hhead
  obtain rfl : chain' = b :: line := by
    apply hkept'.main.onChain.linked.eq_of_headIdOf hlinked
    · intro x hx y hy
      exact hids x (hkept'.known x hx) y hy
    · rw [hlength', List.length_cons, hlength]
    · cases chain' with
      | nil => cases hhead.1
      | cons c rest =>
        have hc : c = b := Option.some.inj hhead.1
        rw [hc]
        rfl
  exact .ahead hkept' (h.wide hwide hrun)

/-- The undo states reach as far down as the last irreversible block. -/
theorem Kept.frames_length (h : Kept pushed chain d) :
    d.store.frames.length = min chain.length irreversibleBlockNum := by
  have hframes := h.main.onChain.frames
  have hlogs := h.logs
  omega

/-- **One more block.** The next block of a line that plays is taken. -/
theorem CatchingUp.push {start : List SignedBlock} {n : Nat}
    (h : CatchingUp start n pushed line d) (hn : n ≤ start.length) (hundo : n ≤ irreversibleBlockNum)
    (hlinked : LinkedChain (b :: line)) (hlt : (b :: line).length < 2 ^ 32)
    (hids : Unmistakable (pushed ++ [b]) (b :: line)) (hplays : Plays (b :: line)) :
    ∃ answer d', (releaseItems (pushBlockImpl skipNothing b)).run d = .ok answer d' ∧
      CatchingUp start n (pushed ++ [b]) (b :: line) d' := by
  have hnum : b.blockNum = line.length + 1 := by
    rw [hlinked.blockNum (k := 0) rfl, Nat.sub_zero, Nat.mod_eq_of_lt hlt, List.length_cons]
  have hprev := hlinked.1
  cases h with
  | behind front hkept hwide hline hfront hle =>
    have hrecent : start.length ≤ line.length + irreversibleBlockNum := by
      rw [hfront, List.length_append, List.length_drop]
      omega
    have hknown : ∀ c ∈ pushed, c.id = b.id → c = b := fun c hc =>
      hids c (List.mem_append_left _ hc) b List.mem_cons_self
    obtain ⟨item, hlink, hblocks⟩ := hkept.links hwide hline hprev hnum hrecent
    have hitem := ForkDatabase.link_eq_ok hlink
    have hitemNum : item.num = line.length + 1 := by rw [ForkItem.num, hitem.data, hnum]
    by_cases hlow : (b :: line).length ≤ start.length
    · -- Still below the head: the block is one more of the fork.
      have hrun := hkept.ignores hlink (by rw [hitemNum]; exact hlow)
      obtain ⟨chain', hstep, hkept'⟩ := hkept.returns hrun
      have hhead := hstep.head
      rw [if_neg Bool.false_ne_true] at hhead
      obtain rfl := hhead.1
      have hline' := hkept.hasLine_pushed hline hprev hnum hrecent hknown hblocks
      exact ⟨false, _, hrun, .behind (b :: front) hkept' (hkept.wide hwide hrun) hline'
        (by rw [hfront, List.cons_append]) hlow⟩
    · rw [List.length_cons] at hlow
      have hlength : line.length = start.length := by omega
      have hreturns : ∃ d', (releaseItems (pushBlockImpl skipNothing b)).run d = .ok true d' := by
        by_cases hsame : b.previous = headIdOf start
        · -- The fork is the main chain.
          have hsameLine : line = start := by
            apply hlinked.2.eq_of_headIdOf hkept.main.onChain.linked
            · intro x hx y hy hxy
              have hy' := List.mem_append_left [b] (hkept.known y hy)
              exact (hids y hy' x (List.mem_cons_of_mem _ hx) hxy.symm).symm
            · exact hlength
            · rw [← hprev, hsame]
          rw [hsameLine] at hplays
          exact hkept.extends hlink hsame hplays
        · have hfrontLength : front.length = n := by
            have hlengths := congrArg List.length hfront
            rw [List.length_append, List.length_drop] at hlengths
            omega
          have hdepth : n ≤ d.store.frames.length := by
            rw [hkept.frames_length]
            omega
          rw [← hblocks] at hlinked hplays
          rw [hfront] at hblocks
          exact hkept.switches hlink hblocks hfrontLength hdepth (by omega) hlinked hsame hplays
      obtain ⟨d', hrun⟩ := hreturns
      exact ⟨true, d', hrun, .of_true hkept hwide hlength hlinked hids hrun⟩
  | ahead hkept hwide =>
    obtain ⟨item, hlink, -⟩ := hkept.links hwide hkept.hasLine hprev hnum (Nat.le_add_right _ _)
    obtain ⟨d', hrun⟩ := hkept.extends hlink hprev hplays
    exact ⟨true, d', hrun, .of_true hkept hwide rfl hlinked hids hrun⟩

/-- The next block of a line, whatever is pending. -/
theorem CatchingUp.pushBlock {start : List SignedBlock} {n : Nat}
    (h : CatchingUp start n pushed line d.settled) (hn : n ≤ start.length)
    (hundo : n ≤ irreversibleBlockNum) (hlinked : LinkedChain (b :: line))
    (hlt : (b :: line).length < 2 ^ 32) (hids : Unmistakable (pushed ++ [b]) (b :: line))
    (hplays : Plays (b :: line)) :
    ∃ answer d', (NewsChain.pushBlock skipNothing b).run d = .ok answer d' ∧ Pending d' ∧
      CatchingUp start n (pushed ++ [b]) (b :: line) d'.settled := by
  obtain ⟨answer, c, hrun, hc⟩ := h.push hn hundo hlinked hlt hids hplays
  have hpush : (NewsChain.pushBlock skipNothing b).run d =
      .ok answer (c.repended skipNothing d.pendingTrx) := by
    rw [run_pushBlock, hrun]
  obtain ⟨hsettled, hpending⟩ := settled_pushBlock hpush
  rw [hrun] at hsettled
  obtain ⟨-, hc'⟩ := Result.ok.inj hsettled
  rw [hc'] at hc
  exact ⟨answer, _, hpush, hpending, hc⟩

/-- The chain below some blocks. -/
theorem LinkedChain.of_append {xs ys : List SignedBlock} (h : LinkedChain (xs ++ ys)) :
    LinkedChain ys := by
  have hdrop := h.drop xs.length
  rwa [List.drop_left] at hdrop

/-- **All blocks of a line** that plays are taken. -/
theorem CatchingUp.pushBlocks {start : List SignedBlock} {n : Nat} (blocks : List SignedBlock)
    (hd : Pending d) (h : CatchingUp start n pushed line d.settled) (hn : n ≤ start.length)
    (hundo : n ≤ irreversibleBlockNum) (hlinked : LinkedChain (blocks.reverse ++ line))
    (hlt : (blocks.reverse ++ line).length < 2 ^ 32)
    (hids : Unmistakable (pushed ++ blocks) (blocks.reverse ++ line))
    (hplays : Plays (blocks.reverse ++ line)) :
    ∃ d', (NewsChain.pushBlocks blocks).run d = .ok () d' ∧ Pending d' ∧
      CatchingUp start n (pushed ++ blocks) (blocks.reverse ++ line) d'.settled := by
  induction blocks generalizing pushed line d with
  | nil =>
    rw [List.append_nil]
    exact ⟨d, rfl, hd, h⟩
  | cons b blocks ih =>
    rw [List.reverse_cons, List.append_assoc, List.singleton_append] at *
    have hids₁ : Unmistakable (pushed ++ [b]) (b :: line) := by
      intro x hx y hy
      apply hids x _ y (List.mem_append_right _ hy)
      rcases List.mem_append.mp hx with hx | hx
      · exact List.mem_append_left _ hx
      · exact List.mem_append_right _ (List.mem_singleton.mp hx ▸ List.mem_cons_self)
    obtain ⟨answer, c, hpush, hpending, hc⟩ := h.pushBlock hn hundo hlinked.of_append
      (by rw [List.length_append] at hlt; omega) hids₁ hplays.tail
    obtain ⟨d', hrest, hd', hcaught⟩ := ih hpending hc hlinked hlt
      (by rwa [List.append_assoc, List.singleton_append]) hplays
    rw [List.append_assoc, List.singleton_append] at hcaught
    refine ⟨d', ?_, hd', hcaught⟩
    rw [NewsChain.pushBlocks, List.forM_cons]
    exact bind_eq_ok.mpr ⟨(), c, bind_eq_ok.mpr ⟨answer, c, hpush, rfl⟩, hrest⟩

/-- **Catching up.** A node reached by pushes that returned is given the blocks that another such node
is ahead by, oldest first. Where its own main chain left the other one no lower than its last
irreversible block, every push returns, and it ends up with the head, the objects, the undo states and
the log of the other node. -/
theorem returnedRun_catchesUp {P Q : Database → SignedBlock → Prop} {pushed' : List SignedBlock}
    (h : ReturnedRun P pushed d) (h' : ReturnedRun Q pushed' d')
    (hids : Unmistakable (pushed ++ pushed') pushed') :
    ∃ chain chain', MainChain pushed chain d ∧ MainChain pushed' chain' d' ∧
      ∀ older newer common, chain = older ++ common → chain' = newer ++ common →
        d.gpo.lastIrreversibleBlockNum ≤ common.length → d.headBlockNum < d'.headBlockNum →
        ∃ d'', (pushBlocks newer.reverse).run d = .ok () d'' ∧ Agree d'' d' := by
  obtain ⟨hpending, chain, hkept⟩ := h.kept
  obtain ⟨hpending', chain', hkept'⟩ := h'.kept
  have hmain := hkept.mainChain hpending
  have hmain' := hkept'.mainChain hpending'
  refine ⟨chain, chain', hmain, hmain', ?_⟩
  rintro older newer common rfl rfl hlast hbehind
  rw [(hkept.final hpending).lastIrreversible, hmain.headBlockNum, List.length_append] at hlast
  rw [hmain.headBlockNum, hmain'.headBlockNum] at hbehind
  have hdrop : (older ++ common).drop older.length = common := List.drop_left
  have hdepth : older.length ≤ irreversibleBlockNum := by omega
  have hline := hkept.hasLine_below hkept.hasLine (n := older.length)
    (by simp only [cacheDepth, irreversibleBlockNum] at hdepth ⊢; omega)
  rw [hdrop] at hline
  have hstart : CatchingUp (older ++ common) older.length pushed common d.settled :=
    .behind [] hkept h.wide hline (by rw [hdrop, List.nil_append])
      (by rw [List.length_append]; omega)
  have hnewer : newer.reverse.reverse ++ common = newer ++ common := by rw [List.reverse_reverse]
  obtain ⟨d'', hrun, hpending'', hcaught⟩ := hstart.pushBlocks newer.reverse hpending
    (by rw [List.length_append]; omega) hdepth (by rw [hnewer]; exact hmain'.linked)
    (by rw [hnewer]; exact hkept'.main.onChain.length_lt)
    (by
      rw [hnewer]
      intro x hx y hy
      apply hids x _ y (hmain'.known y hy)
      rcases List.mem_append.mp hx with hx | hx
      · exact List.mem_append_left _ hx
      · have hxmem := List.mem_append_left common (List.mem_reverse.mp hx)
        exact List.mem_append_right _ (hmain'.known x hxmem))
    (by rw [hnewer]; exact ⟨(), _, hmain'.objects⟩)
  rw [hnewer] at hcaught
  refine ⟨d'', hrun, ?_⟩
  cases hcaught with
  | behind front _ _ _ _ hle => omega
  | ahead hkept'' _ => exact .of_kept hpending'' hpending' hkept'' hkept'

end Chains

/-- A node on a first block of its own catches up with one that has two other blocks. -/
theorem returnedRun_catchesUp_sibling :
    ∃ (d d' d'' : @Database smallNode) (blocks : List SignedBlock),
      (@pushBlocks smallNode blocks).run d = .ok () d'' ∧ @Agree smallNode d'' d' ∧
      @Database.headBlockNum smallNode d = 1 ∧ @Database.headBlockNum smallNode d' = 2 := by
  let _ : Node := smallNode
  let x : SignedBlock := blockOn .null genesisTime []
  let y : SignedBlock := blockOn .null (genesisTime + 3) []
  let z : SignedBlock := blockOn x.id (genesisTime + 6) []
  have hrun := ReturnedRun.genesis.pushBlocks [y] (by decide +kernel)
  have hrun' := ReturnedRun.genesis.pushBlocks [x, z] (by decide +kernel)
  obtain ⟨chain, chain', -, -, hcatches⟩ := returnedRun_catchesUp hrun hrun' (by decide +kernel)
  obtain ⟨d'', hpushes, hagree⟩ := hcatches chain chain' [] (List.append_nil _).symm
    (List.append_nil _).symm (by decide +kernel) (by decide +kernel)
  exact ⟨_, _, d'', _, hpushes, hagree, by decide +kernel, by decide +kernel⟩

end NewsChain
