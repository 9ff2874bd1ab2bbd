import NewsChain.Laws.BlockSummary
import NewsChain.Laws.Linkage

/-!
# The store and the log of a main chain

`OnChain` says what the store and the block log hold of a chain of blocks, newest first: the objects
are what the chain makes of genesis, every snapshot is what a shorter chain makes of it, and the log
and the snapshots count the whole chain between them. It is kept by the two things `push_block` does
to a chain, the application of the next block (`OnChain.apply`) and the undo of the newest
(`OnChain.undo`).

That the log holds the oldest blocks of the chain (`Logged`) also takes a fork database that finds
them.
-/

namespace NewsChain

open EStateM (Result)

/-! ## How many snapshots a commit leaves -/

theorem Stacked.length_commit {o : Objects} {fs : List (Frame Objects)} (h : Stacked o fs) (r : Nat) :
    (fs.rdropWhile fun f => f.revision ≤ (r : Int)).length =
      min fs.length (o.gpo.headBlockNum - r) := by
  induction fs generalizing o with
  | nil => simp
  | cons f fs ih =>
    obtain ⟨-, hnum, hrevision, hstacked⟩ := h
    have hrest := ih hstacked
    rw [rdropWhile_cons]
    split
    · rename_i hnil
      rw [hnil, List.length_nil] at hrest
      simp only [hrevision, Nat.cast_le, decide_eq_true_eq]
      split
      · simp only [List.length_nil, List.length_cons]
        omega
      · simp only [List.length_nil, List.length_cons]
        omega
    · rename_i hne
      have hpos := List.length_pos_iff.mpr hne
      simp only [List.length_cons, hrest]
      omega

/-- The session of a snapshot is numbered by its depth. -/
theorem Stacked.revision {o : Objects} {fs : List (Frame Objects)} (h : Stacked o fs) {k : Nat}
    {f : Frame Objects} (hf : fs[k]? = some f) : f.revision + k = o.gpo.headBlockNum := by
  induction fs generalizing o k with
  | nil => simp at hf
  | cons g fs ih =>
    obtain ⟨-, hnum, hrevision, hstacked⟩ := h
    cases k with
    | zero =>
      obtain rfl : g = f := by simpa using hf
      simpa using hrevision
    | succ k =>
      have hrest := ih hstacked (k := k) (by simpa using hf)
      omega

section Chains

variable [Node]

/-! ## The chain of a store -/

/-- The objects are what a chain, newest first, makes of genesis. -/
structure Replayed (chain : List SignedBlock) (o : Objects) : Prop where
  run : (Objects.applyBlocks skipNothing chain.reverse).run genesis = .ok () o
  headBlockId : o.gpo.headBlockId = headIdOf chain
  headBlockNum : o.gpo.headBlockNum = chain.length

theorem replayed_genesis : Replayed [] genesis := by
  refine ⟨?_, ?_, headBlockNum_genesis⟩
  · rw [List.reverse_nil, Objects.applyBlocks, List.forM_nil, EStateM.run_pure]
  · rw [blank_genesis.1]
    rfl

/-- The newest block of a chain is applied to what the others make of genesis. -/
theorem applyBlocks_cons {chain : List SignedBlock} {b : SignedBlock} {o' : Objects} :
    (Objects.applyBlocks skipNothing (b :: chain).reverse).run genesis = .ok () o' ↔
      ∃ o, (Objects.applyBlocks skipNothing chain.reverse).run genesis = .ok () o ∧
        (Objects.applyBlock skipNothing b).run o = .ok () o' := by
  rw [List.reverse_cons, Objects.applyBlocks, List.forM_append]
  constructor
  · intro h
    obtain ⟨_, o, hrest, hlast⟩ := bind_eq_ok.mp h
    rw [List.forM_cons] at hlast
    obtain ⟨_, o₁, happly, hend⟩ := bind_eq_ok.mp hlast
    rw [List.forM_nil, EStateM.run_pure] at hend
    cases hend
    exact ⟨o, hrest, happly⟩
  · rintro ⟨o, hrest, happly⟩
    refine bind_eq_ok.mpr ⟨(), o, hrest, ?_⟩
    rw [List.forM_cons]
    exact bind_eq_ok.mpr ⟨(), o', happly, by rw [List.forM_nil]; rfl⟩

theorem Replayed.cons {chain : List SignedBlock} {o o' : Objects} {b : SignedBlock}
    (h : Replayed chain o) (hhead : HeadOk o) (hnum : b.blockNum = chain.length + 1)
    (hrun : (Objects.applyBlock skipNothing b).run o = .ok () o') : Replayed (b :: chain) o' := by
  obtain ⟨-, hnum', hid⟩ := hhead.applyBlock (by rw [h.headBlockNum, hnum]) hrun
  exact ⟨applyBlocks_cons.mpr ⟨o, h.run, hrun⟩, hid, hnum'.trans hnum⟩

/-- What a linked chain makes of genesis has its newest block as head, and its summaries. -/
theorem ring_of_applyBlocks {chain : List SignedBlock} {o : Objects} (hlinked : LinkedChain chain)
    (h : (Objects.applyBlocks skipNothing chain.reverse).run genesis = .ok () o) :
    AtHead chain o ∧ Ring chain o := by
  induction chain generalizing o with
  | nil =>
    rw [List.reverse_nil, Objects.applyBlocks, List.forM_nil, EStateM.run_pure] at h
    rw [← (Result.ok.inj h).2]
    exact ⟨atHead_genesis, ring_genesis⟩
  | cons b rest ih =>
    obtain ⟨o₁, hrest, happly⟩ := applyBlocks_cons.mp h
    obtain ⟨hhead, hring⟩ := ih hlinked.2 hrest
    have hprev : b.previous = o₁.gpo.headBlockId := by rw [hlinked.1, hhead.headBlockId]
    exact ⟨hhead.applyBlock happly, hring.applyBlock hhead hprev happly⟩

/-- The log holds the oldest blocks of a chain. -/
def Logged (chain : List SignedBlock) (log : BlockLog) : Prop := log.blocks <+: chain.reverse

omit [Node] in
/-- A block of the log, on the chain. -/
theorem Logged.getElem {chain : List SignedBlock} {log : BlockLog} (h : Logged chain log) {k : Nat}
    {b : SignedBlock} (hb : log.blocks[k]? = some b) : chain[chain.length - 1 - k]? = some b := by
  have hlt := (List.getElem?_eq_some_iff.mp hb).1
  have hle := List.IsPrefix.length_le h
  rw [List.length_reverse] at hle
  obtain ⟨rest, hrest⟩ := h
  rw [← List.getElem?_reverse (by omega), ← hrest, List.getElem?_append_left hlt, hb]

theorem headIdOf_drop {chain : List SignedBlock} {k : Nat} {b : SignedBlock}
    (hb : chain[k]? = some b) : headIdOf (chain.drop k) = b.id := by
  obtain ⟨hlt, rfl⟩ := List.getElem?_eq_some_iff.mp hb
  rw [List.drop_eq_getElem_cons hlt]
  rfl

/-- The store of a chain, over a log of the blocks that have no snapshot any more. -/
structure OnChain (chain : List SignedBlock) (s : Snapshots Objects) (log : BlockLog) : Prop where
  linked : LinkedChain chain
  tracks : s.Tracks Replayed chain
  store : StoreOk s
  frames : s.frames.length + log.blocks.length = chain.length
  window : chain.length ≤ log.blocks.length + irreversibleBlockNum

/-- The block that becomes irreversible with a chain of some blocks is found in the fork database,
as it is on the chain. -/
def Findable (fdb : ForkDatabase) (log : BlockLog) (blocks : List SignedBlock) : Prop :=
  blocks.length = log.blocks.length + irreversibleBlockNum + 1 →
    ∃ i, fdb.fetchBlockOnMainBranchByNumber (log.blocks.length + 1) = some i ∧
      i.num = log.blocks.length + 1 ∧ blocks.reverse[log.blocks.length]? = some i.data

namespace OnChain

variable {chain : List SignedBlock} {s : Snapshots Objects} {log : BlockLog} {b : SignedBlock}

theorem genesis : OnChain [] Database.genesis.store {} where
  linked := trivial
  tracks := .initial replayed_genesis
  store := countedRun_genesis.counted.store
  frames := rfl
  window := Nat.zero_le _

theorem headBlockId (h : OnChain chain s log) : s.content.gpo.headBlockId = headIdOf chain :=
  h.tracks.content.headBlockId

theorem headBlockNum (h : OnChain chain s log) : s.content.gpo.headBlockNum = chain.length :=
  h.tracks.content.headBlockNum

/-- The chain does not wrap around. -/
theorem length_lt (h : OnChain chain s log) : chain.length < 2 ^ 32 := by
  rw [← h.headBlockNum, h.store.head.number]
  exact numFromId_lt _

theorem blockNum (h : OnChain chain s log) {k : Nat} (hb : chain[k]? = some b) :
    b.blockNum = chain.length - k := by
  have hlt := h.length_lt
  rw [h.linked.blockNum hb]
  omega

/-- Undoing the newest block, where there is a snapshot of it, goes back to the chain below. -/
theorem undo (h : OnChain (b :: chain) s log) (hs : s.frames ≠ []) : OnChain chain s.undo log := by
  have hpos := List.length_pos_iff.mpr hs
  have hframes := h.frames
  have hwindow := h.window
  have hlength : s.undo.frames.length + 1 = s.frames.length := by
    unfold Snapshots.undo
    cases hfs : s.frames with
    | nil => exact absurd hfs hs
    | cons f fs => rfl
  simp only [List.length_cons] at hframes hwindow
  exact ⟨h.linked.2, h.tracks.undo hs, h.store.undo, by omega, by omega⟩

/-- Undoing again and again goes back block by block, as long as there are snapshots. -/
theorem undos (h : OnChain chain s log) {k : Nat} (hk : k ≤ s.frames.length) :
    OnChain (chain.drop k) (Snapshots.undo^[k] s) log ∧
      (Snapshots.undo^[k] s).frames.length + k = s.frames.length := by
  induction k with
  | zero => exact ⟨h, rfl⟩
  | succ k ih =>
    obtain ⟨hdown, hlength⟩ := ih (by omega)
    have hne : (Snapshots.undo^[k] s).frames ≠ [] := List.length_pos_iff.mp (by omega)
    have hcount := hdown.frames
    have hpos := List.length_pos_iff.mpr hne
    rw [List.length_drop] at hcount
    rw [List.drop_eq_getElem_cons (show k < chain.length by omega)] at hdown
    have hdown' := hdown.undo hne
    have hcount' := hdown'.frames
    rw [List.length_drop] at hcount'
    rw [Function.iterate_succ_apply']
    exact ⟨hdown', by omega⟩

/-- **Unwinding.** With all sessions undone the store is that of the blocks in the log. -/
theorem undoAll (h : OnChain chain s log) :
    OnChain (chain.drop (chain.length - log.blocks.length)) s.undoAll log ∧
      s.undoAll.frames = [] := by
  have hcount := h.frames
  obtain ⟨hdown, hlength⟩ := h.undos (k := s.frames.length) (Nat.le_refl _)
  have hsame : chain.length - log.blocks.length = s.frames.length := by omega
  rw [hsame]
  exact ⟨hdown, List.length_eq_zero_iff.mp (show s.undoAll.frames.length = 0 by
    rw [Snapshots.undoAll]; omega)⟩

/-- **A chain determines its store**, up to the number of blocks that have left it for the log. -/
theorem store_eq {s' : Snapshots Objects} {log' : BlockLog} (h : OnChain chain s log)
    (h' : OnChain chain s' log') (hlog : log.blocks.length = log'.blocks.length) : s = s' := by
  have hunique : ∀ {l : List SignedBlock} {o o' : Objects}, Replayed l o → Replayed l o' → o = o' := by
    intro l o o' ho ho'
    have hrun := ho.run.symm.trans ho'.run
    exact (Result.ok.inj hrun).2
  have hcontent : s.content = s'.content := hunique h.tracks.content h'.tracks.content
  have hframes : s.frames = s'.frames := by
    refine List.ext_getElem? fun k => ?_
    have hlength : s.frames.length = s'.frames.length := by
      have := h.frames
      have := h'.frames
      omega
    cases hf : s.frames[k]? with
    | none =>
      rw [List.getElem?_eq_none_iff] at hf
      rw [List.getElem?_eq_none (by omega)]
    | some f =>
      have hlt := (List.getElem?_eq_some_iff.mp hf).1
      have hf' := List.getElem?_eq_getElem (l := s'.frames) (i := k) (by omega)
      rw [hf', Option.some.injEq]
      have hsaved := hunique (h.tracks.frames.getElem hf) (h'.tracks.frames.getElem hf')
      have hrevision := h.store.stacked.revision hf
      have hrevision' := h'.store.stacked.revision hf'
      rw [← hcontent] at hrevision'
      have hsame : f.revision = (s'.frames[k]).revision := by omega
      calc f = ⟨f.revision, f.saved⟩ := rfl
        _ = s'.frames[k] := by rw [hsame, hsaved]
  have hrevision : s.revision = s'.revision := by
    rw [h.store.revision, h'.store.revision, hcontent]
  obtain ⟨content, frames, revision⟩ := s
  cases hcontent
  cases hframes
  cases hrevision
  rfl

/-- The log of a chain is one of the chain below, where that is not shorter. -/
theorem logged_undo (h : OnChain (b :: chain) s log) (hs : s.frames ≠ [])
    (hlogged : Logged (b :: chain) log) : Logged chain log := by
  have hpos := List.length_pos_iff.mpr hs
  have hframes := h.frames
  rw [Logged, List.reverse_cons] at hlogged
  rw [List.length_cons] at hframes
  exact List.prefix_of_prefix_length_le hlogged (List.prefix_append _ _)
    (by rw [List.length_reverse]; omega)

/-- The number of blocks in the log after a block was applied to the chain. -/
def loggedAfter (chain : List SignedBlock) (log : BlockLog) : Nat :=
  max log.blocks.length (chain.length + 1 - irreversibleBlockNum)

/-- One block is logged, or none. -/
theorem appendToLog_one {fdb : ForkDatabase} {count n : Nat} {log log' : BlockLog} (hone : count ≤ 1)
    (h : (appendToLog fdb count n).run log = .ok () log') :
    count = 0 ∧ log' = log ∨ count = 1 ∧ ∃ i, fdb.fetchBlockOnMainBranchByNumber (n + 1) = some i ∧
      log.append i.data = .ok log' := by
  obtain rfl | rfl : count = 0 ∨ count = 1 := by omega
  · rw [appendToLog, EStateM.run_pure] at h
    cases h
    exact .inl ⟨rfl, rfl⟩
  · simp only [appendToLog] at h
    split at h
    · cases h
    · rename_i i hi
      simp only [EStateM.run_bind, EStateM.run_get] at h
      cases happend : log.append i.data with
      | error e =>
        rw [happend] at h
        cases h
      | ok log₁ =>
        rw [happend] at h
        cases h
        exact .inr ⟨rfl, i, hi, happend⟩

theorem run_logUpTo (fdb : ForkDatabase) (lib : Nat) (log : BlockLog) :
    (logUpTo skipNothing fdb lib).run log =
      (appendToLog fdb (lib - log.blocks.length) log.blocks.length).run log := by
  have hskip : (!skipNothing.has skipBlockLog) = true := by decide
  rw [logUpTo, run_onlyIf, if_pos hskip, EStateM.run_bind, EStateM.run_get, ← log.headNum_eq]

omit [Node] in
/-- A prefix with the next element is a prefix. -/
theorem concat_prefix {α : Type} {front l : List α} {a : α} (h : front <+: l)
    (ha : l[front.length]? = some a) : front ++ [a] <+: l := by
  obtain ⟨rest, rfl⟩ := h
  cases rest with
  | nil => simp at ha
  | cons c rest =>
    obtain rfl : c = a := by simpa using ha
    exact ⟨rest, by simp⟩

section Next

variable {fdb : ForkDatabase} {o o' : Objects} {log' : BlockLog}

theorem lastIrreversible (h : OnChain chain s log) (hnum : b.blockNum = chain.length + 1)
    (henter : (Objects.enterBlock skipNothing b).run s.content = .ok () o) :
    o.raised.gpo.lastIrreversibleBlockNum = chain.length + 1 - irreversibleBlockNum := by
  rw [← hnum]
  exact raised_lastIrreversible h.store.head (by rw [h.headBlockNum, hnum]) henter

/-- What is logged with the next block: the block that becomes irreversible, once the chain is long
enough. -/
theorem logUpTo_next (h : OnChain chain s log)
    (hlog : (logUpTo skipNothing fdb (chain.length + 1 - irreversibleBlockNum)).run log =
      .ok () log') :
    log'.blocks.length = loggedAfter chain log ∧ (log' = log ∨
      chain.length = log.blocks.length + irreversibleBlockNum ∧
        ∃ i, fdb.fetchBlockOnMainBranchByNumber (log.blocks.length + 1) = some i ∧
          log'.blocks = log.blocks ++ [i.data]) := by
  have hframes := h.frames
  have hwindow := h.window
  rw [run_logUpTo] at hlog
  simp only [irreversibleBlockNum] at hwindow hlog
  simp only [loggedAfter, irreversibleBlockNum]
  rcases appendToLog_one (by omega) hlog with ⟨hzero, rfl⟩ | ⟨hone, i, hi, happend⟩
  · exact ⟨by omega, .inl rfl⟩
  · obtain ⟨-, hblocks⟩ := BlockLog.append_eq_ok happend
    refine ⟨?_, .inr ⟨by omega, i, hi, hblocks⟩⟩
    rw [hblocks, List.length_append, List.length_singleton]
    omega

/-- The log is written where that block is found. -/
theorem logUpTo_returns (h : OnChain chain s log) (hfind : Findable fdb log (b :: chain)) :
    ∃ log', (logUpTo skipNothing fdb (chain.length + 1 - irreversibleBlockNum)).run log =
      .ok () log' := by
  have hwindow := h.window
  rw [run_logUpTo]
  by_cases hlength : chain.length = log.blocks.length + irreversibleBlockNum
  · obtain ⟨i, hi, hnum, -⟩ := hfind (by rw [List.length_cons, hlength])
    have hone : chain.length + 1 - irreversibleBlockNum - log.blocks.length = 1 := by
      simp only [irreversibleBlockNum] at hlength ⊢
      omega
    rw [ForkItem.num] at hnum
    simp only [hone, appendToLog, hi, EStateM.run_bind, EStateM.run_get, BlockLog.append,
      dif_pos hnum]
    exact ⟨_, rfl⟩
  · have hnone : chain.length + 1 - irreversibleBlockNum - log.blocks.length = 0 := by
      simp only [irreversibleBlockNum] at hlength hwindow ⊢
      omega
    rw [hnone]
    exact ⟨log, rfl⟩

/-- **The next block.** An application that returns is one on the longer chain. -/
theorem apply (h : OnChain chain s log) (hprev : b.previous = s.content.gpo.headBlockId)
    (hnum : b.blockNum = chain.length + 1)
    (henter : (Objects.enterBlock skipNothing b).run s.content = .ok () o)
    (hlog : (logUpTo skipNothing fdb o.raised.gpo.lastIrreversibleBlockNum).run log = .ok () log')
    (hleave : (Objects.leaveBlock b).run o.raised = .ok () o') :
    OnChain (b :: chain) ((s.commit o.raised.gpo.lastIrreversibleBlockNum).start.put o') log' := by
  have hheight := h.headBlockNum
  have hframes := h.frames
  have hwindow := h.window
  have hnum' : b.blockNum = s.content.gpo.headBlockNum + 1 := by rw [hheight, hnum]
  have happly := applyBlock_eq_ok.mpr ⟨o, henter, hleave⟩
  obtain ⟨hhead, hnum'', -⟩ := h.store.head.applyBlock hnum' happly
  have hlast := h.lastIrreversible hnum henter
  have hcommit := h.store.stacked.length_commit o.raised.gpo.lastIrreversibleBlockNum
  rw [hlast] at hlog
  have hlength := (h.logUpTo_next hlog).1
  have hleft : ((s.commit o.raised.gpo.lastIrreversibleBlockNum).start.put o').frames.length =
      min s.frames.length (chain.length - (chain.length + 1 - irreversibleBlockNum)) + 1 := by
    rw [← hlast, ← hheight]
    exact congrArg (· + 1) hcommit
  simp only [loggedAfter, irreversibleBlockNum] at hwindow hlength hleft
  refine ⟨?_, ?_, ?_, ?_, ?_⟩
  · exact ⟨by rw [hprev, h.headBlockId], h.linked⟩
  · exact (h.tracks.commit _).put_start (h.tracks.content.cons h.store.head hnum happly)
  · exact (h.store.commit _).put_start hhead (by rw [hnum'', hnum', Snapshots.commit_content])
  · rw [hleft, hlength, List.length_cons]
    omega
  · simp only [hlength, List.length_cons, irreversibleBlockNum]
    omega

/-- The log stays that of the chain, where the block that becomes irreversible is found as it is on
the chain. -/
theorem logged_apply (h : OnChain chain s log) (hlogged : Logged chain log)
    (hfetch : ∀ i, chain.length = log.blocks.length + irreversibleBlockNum →
      fdb.fetchBlockOnMainBranchByNumber (log.blocks.length + 1) = some i →
        (b :: chain).reverse[log.blocks.length]? = some i.data)
    (hlog : (logUpTo skipNothing fdb (chain.length + 1 - irreversibleBlockNum)).run log =
      .ok () log') : Logged (b :: chain) log' := by
  have hprefix : log.blocks <+: (b :: chain).reverse := by
    rw [List.reverse_cons]
    exact hlogged.trans (List.prefix_append _ _)
  rcases (h.logUpTo_next hlog).2 with rfl | ⟨hlength, i, hi, hblocks⟩
  · exact hprefix
  · rw [Logged, hblocks]
    exact concat_prefix hprefix (hfetch i hlength hi)

end Next

end OnChain

end Chains

end NewsChain
