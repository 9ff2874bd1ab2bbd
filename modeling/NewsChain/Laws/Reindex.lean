import NewsChain.Laws.ChainRun
import NewsChain.Laws.Linkage
import NewsChain.Laws.SharedMemory

/-!
# Reindexing gives the live objects

`reindex` applies the blocks of the log to a fresh store, with most checks skipped and outside any
session. A check writes nothing, so where all checks passed once the skipping run makes the same
objects (`applyBlock_skipping`); the session, the fork database, the commit and the log do not touch
them. `reindex_eq_live` puts the two runs side by side.
-/

namespace NewsChain

open EStateM (Result)

/-! ## Fewer checks -/

section Checks

variable {ε σ : Type}

/-- The state as it is: `Follows same m m'` says that `m'` returns what `m` does. -/
def same : Unit → σ → σ := fun _ s => s

theorem Follows.refl {α : Type} (m : EStateM ε σ α) : Follows same m m :=
  fun _ _ _ h r => ⟨r, h⟩

/-- Code that only checks can be left out. -/
theorem Follows.check {c c' : Prop} [Decidable c] [Decidable c'] {m : EStateM ε σ PUnit}
    (hm : ∀ I : σ → Prop, Keeps I m) (hc : c' → c) :
    Follows same (NewsChain.onlyIf c m) (NewsChain.onlyIf c' m) := by
  intro s s' a h r
  refine ⟨r, ?_⟩
  show (NewsChain.onlyIf c' m).run s = .ok a s'
  rw [run_onlyIf]
  split
  · rename_i hc'
    rwa [run_onlyIf, if_pos (hc hc')] at h
  · have hsame : s' = s := (Keeps.onlyIf fun _ => hm (· = s)).of_ok rfl h
    rw [hsame]

/-- So can a check that cannot fail. -/
theorem Follows.fcAssert_of {c c' : Prop} [Decidable c] [Decidable c'] {message : String}
    (hc' : c') :
    Follows same (NewsChain.fcAssert c message : EStateM Exc σ Unit)
      (NewsChain.fcAssert c' message) := by
  intro s s' a h r
  obtain ⟨-, rfl⟩ := fcAssert_eq_ok.mp h
  exact ⟨r, fcAssert_eq_ok.mpr ⟨hc', rfl⟩⟩

variable [Node] {skip : SkipFlags}

theorem checkTransaction_skipping (skip : SkipFlags) (trx : SignedTransaction) :
    Follows same (checkTransaction skipNothing trx) (checkTransaction skip trx) := by
  have hdupe : skip ||| skipTransactionDupeCheck ≠ 0 := fun h =>
    absurd (UInt64.or_eq_zero_iff.mp h).2 (by decide)
  refine (Follows.check (fun _ => validate_keeps _) fun _ => rfl).bind fun _ =>
    Follows.read (fun _ _ => rfl) fun o => (Follows.fcAssert_of (.inl hdupe)).bind fun _ =>
    Follows.read (fun _ _ => rfl) fun o' => Follows.bind ?_ fun _ =>
    Follows.check (fun _ => verifyAuthority_keeps trx) fun _ => rfl
  refine Follows.onlyIf (Follows.bind (Follows.check (fun _ => ?_) fun _ => rfl) fun _ => .refl _)
  exact Keeps.get.bind fun _ => Keeps.fcAssert

/-- A transaction that passes every check does the same where checks are skipped, the duplicate
check apart, whose flag leaves out a row. -/
theorem applyTransactionImpl_skipping (hskip : skip.has skipTransactionDupeCheck = false) (num : Nat)
    (trx : SignedTransaction) :
    Follows same (applyTransactionImpl skipNothing num trx) (applyTransactionImpl skip num trx) := by
  have hnothing : skipNothing.has skipTransactionDupeCheck = false := by decide
  refine ((checkTransaction_skipping skip trx).bind fun _ => ?_).bind fun _ => .refl _
  rw [hnothing, hskip]
  exact .refl _

/-- A block that passes every check makes the same objects where checks are skipped. -/
theorem applyBlock_skipping (hskip : skip.has skipTransactionDupeCheck = false) {b : SignedBlock}
    {o o' : Objects} (h : (Objects.applyBlock skipNothing b).run o = .ok () o') :
    (Objects.applyBlock skip b).run o = .ok () o' := by
  have hfollows : Follows same (Objects.applyBlock skipNothing b) (Objects.applyBlock skip b) := by
    refine Follows.bind ?_ fun _ => .refl _
    exact (Follows.refl _).bind fun _ => (Follows.check (fun _ => Keeps.fcAssert) fun _ => rfl).bind
      fun _ => (Follows.forM fun t => applyTransactionImpl_skipping hskip _ t).bind fun _ => .refl _
  obtain ⟨_, hrun⟩ := hfollows _ _ _ h ()
  exact hrun

end Checks

/-! ## Applying blocks without sessions -/

section Replay

variable [Node] {Stored : Type} {fresh : Stored}

/-- Where no session is open and the log is skipped, a block is what it does to the objects. -/
theorem run_applyBlock_logged (skip : SkipFlags) {d : Database} {b : SignedBlock} {o : Objects}
    (hlog : skip.has skipBlockLog = true) (hframes : d.store.frames = [])
    (h : (Objects.applyBlock skip b).run d.store.content = .ok () o) :
    ∃ d', (applyBlock skip b).run d = .ok () d' ∧ d'.store = d.store.put o ∧
      d'.blockLog = d.blockLog ∧ d'.pendingSession = d.pendingSession := by
  obtain ⟨o₁, henter, hleave⟩ := applyBlock_eq_ok.mp h
  have hcommit : ∀ (r : Int) (c : Objects), (d.store.put c).commit r = d.store.put c := fun r c => by
    simp [Snapshots.commit, Snapshots.put, hframes]
  have hlogged : ∀ lib, (logUpTo skip d.forkDb lib).run d.blockLog = .ok () d.blockLog := fun lib => by
    rw [logUpTo, run_onlyIf, if_neg (by simp [hlog])]
  simp only [applyBlock, applyBlockImpl, EStateM.run_bind, EStateM.run_modify, run_objects,
    run_updateLastIrreversibleBlock, henter, withObjects, hlogged, Snapshots.put_content,
    Snapshots.put_put, hcommit, hleave]
  exact ⟨_, rfl, rfl, rfl, rfl⟩

/-- The loop has come to the `i`-th block: what is behind it is in the objects, and the memory is
that of the loop. -/
structure AtRound (args : OpenDbArgs) (types : List IndexType) (log : BlockLog)
    (s : MappedDatabase Stored) : Prop where
  blockLog : s.database.blockLog = log
  frames : s.database.store.frames = []
  settled : s.database.pendingSession = false
  hardforks : HardforkOk s.database.store.content
  memory : Replaying args types s.memory

/-- A block of the log is applied, and leaves the memory as it was. -/
theorem AtRound.applyBlock {args : OpenDbArgs} {types : List IndexType} {log : BlockLog}
    {s : MappedDatabase Stored} (h : AtRound args types log s) {b : SignedBlock} {o : Objects}
    (happly : (Objects.applyBlock skipNothing b).run s.database.store.content = .ok () o) :
    ∃ s', (onDatabase (NewsChain.applyBlock reindexFlags b)).run s = .ok () s' ∧
      AtRound args types log s' ∧ s'.database.store = s.database.store.put o ∧
      s'.memory = s.memory := by
  have hskip : reindexFlags.has skipTransactionDupeCheck = false := by decide
  obtain ⟨d, hrun, hstore, hlog, hsettled⟩ := run_applyBlock_logged (d := s.database) reindexFlags
    (by decide) h.frames (applyBlock_skipping hskip happly)
  obtain ⟨-, hfork⟩ := gpo_applyBlock h.hardforks happly
  refine ⟨⟨d, s.memory⟩, ?_, ⟨hlog.trans h.blockLog, ?_, hsettled.trans h.settled, ?_, h.memory⟩,
    hstore, rfl⟩
  · rw [run_onDatabase, hrun, mapState_ok]
  · rw [hstore]
    exact h.frames
  · rw [hstore]
    exact hfork

/-- The loop of `reindex` from the `i`-th block on, up to the block before the `n`-th: it returns
exactly where every check passes, with what the blocks between make of the objects, and the block it
stops at. -/
theorem run_replay (fresh : Stored) (freeMem : Nat → UInt64) {args : OpenDbArgs}
    {types : List IndexType} {n : Nat} {log : BlockLog} (hn : n ≤ log.blocks.length)
    (count i rounds : Nat) {b : SignedBlock} {s : MappedDatabase Stored} {o : Objects}
    (hcount : i + count + 1 = n) (hrounds : count ≤ rounds)
    (hb : log.blocks[i]? = some b) (hs : AtRound args types log s)
    (h : (Objects.applyBlocks skipNothing ((log.blocks.drop i).take count)).run
      s.database.store.content = .ok () o) :
    ((∀ k, i < k → k ≤ i + count → RoundPasses args types (freeMem k)) →
      ∃ last s', (replay fresh freeMem n rounds (b, i + 1)).run s = .ok last s' ∧
        log.blocks[n - 1]? = some last ∧ AtRound args types log s' ∧
        s'.database.store = s.database.store.put o) ∧
    (Returned ((replay fresh freeMem n rounds (b, i + 1)).run s) →
      ∀ k, i < k → k ≤ i + count → RoundPasses args types (freeMem k)) := by
  induction count generalizing i rounds b s with
  | zero =>
    have hnum : b.blockNum = n := by
      rw [log.numbered _ _ hb]
      omega
    obtain rfl : s.database.store.content = o := by
      simp only [List.take_zero, Objects.applyBlocks, List.forM_nil, EStateM.run_pure] at h
      cases h
      rfl
    refine ⟨fun _ => ⟨b, s, ?_, by rw [← hb]; congr 1; omega, hs, rfl⟩, fun _ k hlt hle => by omega⟩
    cases rounds with
    | zero => rfl
    | succ rounds => simp only [replay, hnum, ne_eq, not_true_eq_false, if_false, EStateM.run_pure]
  | succ count ih =>
    obtain ⟨rounds, rfl⟩ : ∃ k, rounds = k + 1 := ⟨rounds - 1, by omega⟩
    obtain ⟨hi, rfl⟩ := List.getElem?_eq_some_iff.mp hb
    rw [List.drop_eq_getElem_cons hi, List.take_succ_cons, Objects.applyBlocks, List.forM_cons] at h
    obtain ⟨_, o₁, hfirst, hrest⟩ := bind_eq_ok.mp h
    obtain ⟨s₁, happly, hs₁, hstore, -⟩ := hs.applyBlock hfirst
    have hblockNum : log.blocks[i].blockNum = i + 1 := log.numbered _ _ hb
    have hnum : i + 1 ≠ n := by omega
    have hcheck := run_checkMemory fresh (freeMem (i + 1)) hs₁.settled
    obtain ⟨hreturns, hkept⟩ := hs₁.memory.check fresh (freeMem (i + 1))
    -- The loop, once the block is applied.
    have hrun : (replay fresh freeMem n (rounds + 1) (log.blocks[i], i + 1)).run s = (do
        checkMemory fresh (freeMem (i + 1))
        let next ← onDatabase (readLog (·.readBlock (i + 1)))
        replay fresh freeMem n rounds next).run s₁ := by
      simp only [replay, hnum, hblockNum, ne_eq, not_false_eq_true, if_true, EStateM.run_bind, happly]
    rw [hrun, EStateM.run_bind, hcheck]
    cases hresult : (checkFreeMemory fresh (freeMem (i + 1))).run s₁.memory.idle with
    | error e c =>
      rw [hresult] at hreturns
      have hfails : ¬ RoundPasses args types (freeMem (i + 1)) := fun hpasses =>
        not_returned_error _ _ (hreturns.mpr hpasses)
      refine ⟨fun hall => absurd (hall (i + 1) (by omega) (by omega)) hfails, fun hret => ?_⟩
      exact absurd hret (not_returned_error _ _)
    | ok _ c =>
      rw [hresult] at hreturns
      have hpasses : RoundPasses args types (freeMem (i + 1)) := hreturns.mp (returned_ok _ _)
      have hs₂ : AtRound args types log ⟨s₁.database, c⟩ :=
        ⟨hs₁.blockLog, hs₁.frames, hs₁.settled, hs₁.hardforks, hkept c hresult⟩
      have hnext : i + 1 < log.blocks.length := by omega
      have hread : (onDatabase (readLog (·.readBlock (i + 1)))).run
          (⟨s₁.database, c⟩ : MappedDatabase Stored) =
          .ok (log.blocks[i + 1], i + 1 + 1) ⟨s₁.database, c⟩ := by
        simp only [run_onDatabase, readLog, EStateM.run_bind, EStateM.run_get, hs₁.blockLog,
          BlockLog.readBlock, List.getElem?_eq_getElem hnext, EStateM.run_pure, mapState_ok]
      obtain ⟨hto, hfrom⟩ := ih (i + 1) rounds (s := ⟨s₁.database, c⟩) (by omega) (by omega)
        (List.getElem?_eq_getElem hnext) hs₂ (by rw [hstore]; exact hrest)
      simp only [mapState_ok, EStateM.run_bind, hread]
      constructor
      · intro hall
        obtain ⟨last, s', hloop, hlast, hs', hstore'⟩ := hto fun k hlt hle => hall k (by omega) (by omega)
        exact ⟨last, s', hloop, hlast, hs', by rw [hstore', hstore]; rfl⟩
      · intro hret k hlt hle
        by_cases hk : k = i + 1
        · rw [hk]
          exact hpasses
        · exact hfrom hret k (by omega) (by omega)

/-! ## The live node -/

/-- The database after blocks were pushed one by one at genesis. -/
def liveAfter (blocks : List SignedBlock) : Database :=
  blocks.foldl (fun d b => finalState ((pushBlock skipNothing b).run d)) .genesis

/-- The blocks are a chain that was accepted: each was pushed on the head, and the call returned. -/
def Accepted (blocks : List SignedBlock) : Prop :=
  ∀ k b, blocks[k]? = some b → b.previous = (liveAfter (blocks.take k)).headBlockId ∧
    Returned ((pushBlock skipNothing b).run (liveAfter (blocks.take k)))

/-- A node with no transactions that has accepted the blocks: the objects are what these make of
genesis, and the heads of the state and of the fork database are at the same height. -/
structure Live (blocks : List SignedBlock) (d : Database) : Prop where
  counted : CountedRun d
  pendingTrx : d.pendingTrx = []
  poppedTx : d.poppedTx = []
  heads : ∀ head, d.forkDb.head = some head → head.num = d.headBlockNum
  content : (Objects.applyBlocks skipNothing blocks).run genesis = .ok () d.store.content

theorem live_genesis : Live [] .genesis where
  counted := countedRun_genesis
  pendingTrx := rfl
  poppedTx := rfl
  heads head hhead := by
    rw [show Database.genesis.forkDb.head = none from rfl] at hhead
    cases hhead
  content := by
    have hstore : Database.genesis.store = { content := NewsChain.genesis } := rfl
    rw [hstore, Objects.applyBlocks, List.forM_nil, EStateM.run_pure]

/-- Without transactions `push_block` is `_push_block`. -/
theorem run_pushBlock_idle {d : Database} (b : SignedBlock) (hsession : d.pendingSession = false)
    (htrx : d.pendingTrx = []) (hpopped : (d.afterBlock b).poppedTx = []) :
    finalState ((pushBlock skipNothing b).run d) = d.afterBlock b ∧
      (Returned ((pushBlock skipNothing b).run d) →
        Returned ((releaseItems (pushBlockImpl skipNothing b)).run d)) := by
  have hagain : (d.afterBlock b).repended skipNothing d.pendingTrx = d.afterBlock b := by
    simp only [Database.repended, restorePending, EStateM.run_bind, EStateM.run_get, hpopped, htrx,
      List.forM_nil, EStateM.run_pure]
    rfl
  rw [Database.afterBlock] at hagain ⊢
  rw [run_pushBlock, Database.settled_of_idle hsession htrx]
  cases hrun : (releaseItems (pushBlockImpl skipNothing b)).run d with
  | ok a d' =>
    rw [hrun] at hagain
    exact ⟨hagain, fun _ => returned_ok _ _⟩
  | error e d' =>
    rw [hrun] at hagain
    exact ⟨hagain, fun hreturned => absurd hreturned (not_returned_error _ _)⟩

/-- A block on the head that the fork database accepts is the next one. -/
theorem CountedRun.blockNum {d : Database} {b : SignedBlock} {item : ForkItem} (hd : CountedRun d)
    (hitem : d.forkDb.Linked b item) (hprev : b.previous = d.headBlockId) :
    b.blockNum = d.headBlockNum + 1 := by
  refine hd.counted.blockNum hprev fun hzero => ?_
  cases hold : d.forkDb.head with
  | none =>
    -- The first block is applied to a head numbered 0, so it is numbered 1.
    have hnum := hd.counted.store.head.number
    have hfresh : d.store.content.gpo.headBlockNum = 0 := hd.fresh hold
    have hprev' : b.previous = d.store.content.gpo.headBlockId := hprev
    rw [hfresh, ← hprev'] at hnum
    simp [BlockHeader.blockNum, ← hnum] at hzero
  | some head =>
    have := hitem.recent head hold
    omega

/-- A block that is accepted on the head is applied to the objects, in a session. -/
theorem Live.push {blocks : List SignedBlock} {d : Database} {b : SignedBlock} (h : Live blocks d)
    (hprev : b.previous = d.headBlockId) (hreturned : Returned ((pushBlock skipNothing b).run d)) :
    Live (blocks ++ [b]) (finalState ((pushBlock skipNothing b).run d)) := by
  have hcounted := h.counted.afterBlock (b := b) (.inr (.inl hprev))
  -- The new item is higher than the fork database's head, so it becomes the head, and is applied.
  have hdirect : ∀ newBlock fdb, d.forkDb.pushBlock b = .ok (newBlock, fdb) →
      newBlock.data = b ∧ fdb.head = some newBlock ∧ b.blockNum = d.headBlockNum + 1 := by
    intro newBlock fdb hpush
    obtain ⟨item, hlink, rfl, rfl⟩ := ForkDatabase.pushBlock_eq_ok.mp hpush
    have hitem := ForkDatabase.link_eq_ok hlink
    have hnum := h.counted.blockNum hitem hprev
    have hnew : d.forkDb.raisedHead item = item := by
      rcases d.forkDb.raisedHead_cases item with ⟨heq, -⟩ | ⟨heq, hle⟩
      · exact heq
      · have hheads := h.heads _ heq
        rw [ForkItem.num, hitem.data] at hle
        omega
    exact ⟨hnew.symm ▸ hitem.data, rfl, hnum⟩
  have hout : (d.afterBlock b).poppedTx = [] ∧
      (Returned ((releaseItems (pushBlockImpl skipNothing b)).run d) →
        (∀ head, (d.afterBlock b).forkDb.head = some head →
          head.num = (d.afterBlock b).headBlockNum) ∧
        (Objects.applyBlock skipNothing b).run d.store.content =
          .ok () (d.afterBlock b).store.content) := by
    rw [Database.afterBlock, run_releaseItems, run_pushBlockImpl]
    cases hpush : d.forkDb.pushBlock b with
    | error e => exact ⟨h.poppedTx, fun hret => absurd hret (not_returned_error _ _)⟩
    | ok r =>
      obtain ⟨newBlock, fdb⟩ := r
      obtain ⟨hdata, hhead, hnum⟩ := hdirect newBlock fdb hpush
      have hsession := h.counted.counted.store.applyInSession
        (d := { d with forkDb := fdb }) hnum
      simp only [hdata, hprev, ne_eq, not_true_eq_false, if_false, run_applyPushed]
      generalize (applyInSession skipNothing b).run { d with forkDb := fdb } = r at hsession
      cases hsession with
      | refused => exact ⟨h.poppedTx, fun hret => absurd hret (not_returned_error _ _)⟩
      | unlogged => exact ⟨h.poppedTx, fun hret => absurd hret (not_returned_error _ _)⟩
      | @applied o o' log henter _ hleave =>
        have happly := applyBlock_eq_ok.mpr ⟨o, henter, hleave⟩
        obtain ⟨-, hnum', -⟩ := h.counted.counted.store.head.applyBlock hnum happly
        refine ⟨h.poppedTx, fun _ => ⟨fun head hhead' => ?_, happly⟩⟩
        have hsame : some newBlock = some head := by
          rw [← hhead']
          simp only [finalState_ok, ForkDatabase.hold_head, ForkDatabase.setMaxSize_head, hhead]
        obtain rfl : newBlock = head := Option.some.inj hsame
        rw [ForkItem.num, hdata]
        exact hnum'.symm
  obtain ⟨hpopped, hout⟩ := hout
  obtain ⟨hfinal, hret⟩ :=
    run_pushBlock_idle b h.counted.counted.settled h.pendingTrx hpopped
  obtain ⟨hheads, happly⟩ := hout (hret hreturned)
  rw [hfinal]
  refine ⟨hcounted, ?_, hpopped, hheads, ?_⟩
  · exact (pushBlockImpl_keeps_idle skipNothing b d ⟨h.counted.counted.settled, h.pendingTrx⟩).2
  · rw [Objects.applyBlocks, List.forM_append]
    exact bind_eq_ok.mpr ⟨_, _, h.content, by
      rw [List.forM_cons]
      exact bind_eq_ok.mpr ⟨_, _, happly, by rw [List.forM_nil]; rfl⟩⟩

theorem liveAfter_concat (blocks : List SignedBlock) (b : SignedBlock) :
    liveAfter (blocks ++ [b]) = finalState ((pushBlock skipNothing b).run (liveAfter blocks)) := by
  simp only [liveAfter, List.foldl_append, List.foldl_cons, List.foldl_nil]

/-- What was accepted was accepted up to every block. -/
theorem Accepted.take {blocks : List SignedBlock} (h : Accepted blocks) (n : Nat) :
    Accepted (blocks.take n) := by
  intro k b hb
  rw [List.getElem?_take] at hb
  split at hb
  · rename_i hk
    have hlive := h k b hb
    rwa [List.take_take, Nat.min_eq_left (Nat.le_of_lt hk)]
  · cases hb

theorem Accepted.live {blocks : List SignedBlock} (h : Accepted blocks) :
    Live blocks (liveAfter blocks) := by
  induction blocks using List.reverseRecOn with
  | nil => exact live_genesis
  | append_singleton blocks b ih =>
    have hrest := h.take blocks.length
    rw [List.take_left] at hrest
    obtain ⟨hprev, hreturned⟩ := h blocks.length b (by simp)
    rw [List.take_left] at hprev hreturned
    rw [liveAfter_concat]
    exact (ih hrest).push hprev hreturned

/-! ## Side by side -/

/-- The blocks `reindex` applies. -/
def replayedCount (stopReplayAt : Nat) (blocks : List SignedBlock) : Nat :=
  if 0 < stopReplayAt ∧ stopReplayAt < blocks.length then stopReplayAt else blocks.length

/-- A process that has just started, with objects and a log. -/
def started (o : Objects) (log : BlockLog) (applied : List Applied) : Database :=
  { store := { content := o }, blockLog := log, applied }

/-- `open` finds nothing to undo and no head. -/
theorem run_reopen_started {o : Objects} (ho : o.gpo.headBlockNum = 0) (log : BlockLog)
    (applied : List Applied) :
    reopen.run (started o log applied) = .ok () (started o log applied) := by
  have hfirst : (modify fun d => { store := d.store.undoAll, blockLog := d.blockLog, applied := d.applied } :
      DbM Unit).run (started o log applied) = .ok () (started o log applied) := rfl
  have hrevision : (started o log applied).store.revision = 0 := rfl
  have hnum : (started o log applied).headBlockNum = 0 := ho
  simp only [reopen, EStateM.run_bind, hfirst, EStateM.run_get, run_fcAssert, hrevision, hnum,
    Nat.cast_zero, if_true, run_onlyIf, ne_eq, not_true_eq_false, if_false]

section Started

variable {args : OpenDbArgs} {types : List IndexType} {o : Objects} {log : BlockLog}
  {applied : List Applied} {stopReplayAt : Nat} {freeMem : Nat → UInt64} {c : Chainbase Stored}

theorem run_onDatabase_ok {α : Type} {m : DbM α} {d d' : Database} {a : α} (h : m.run d = .ok a d')
    (c : Chainbase Stored) : (onDatabase m).run ⟨d, c⟩ = .ok a ⟨d', c⟩ := by
  rw [run_onDatabase, h, mapState_ok]

theorem run_onMemory_ok {α : Type} {m : ChainbaseM Stored α} {c c' : Chainbase Stored} {a : α}
    (h : m.run c = .ok a c') (d : Database) : (onMemory m).run ⟨d, c⟩ = .ok a ⟨d, c'⟩ := by
  rw [run_onMemory, h, mapState_ok]

theorem content_started (o : Objects) (log : BlockLog) (applied : List Applied)
    (c : Chainbase Stored) :
    (⟨started o log applied, c⟩ : MappedDatabase Stored).database.store.content = o := rfl

theorem atRound_started (log : BlockLog) (applied : List Applied) (hfork : HardforkOk o)
    (hmemory : Replaying args types c) :
    AtRound args types log ⟨started o log applied, c⟩ := ⟨rfl, rfl, rfl, hfork, hmemory⟩

/-- `reindex` opens the objects of a process that has just started. -/
theorem run_openMapped {c₁ c₂ : Chainbase Stored} (ho : o.gpo.headBlockNum = 0)
    (hopen : (do
      openSegment args.sharedMemDir args.sharedMemSize
      initializeIndexes fresh).run c₁ = .ok () c₂) :
    (openMapped fresh args).run ⟨started o log applied, c₁⟩ =
      .ok () ⟨started o log applied,
        { c₂ with
          sharedFileFullThreshold := args.sharedFileFullThreshold
          sharedFileScaleRate := args.sharedFileScaleRate }⟩ := by
  rw [openMapped, run_bind_of_ok (run_onMemory_ok hopen _),
    run_bind_of_ok (run_onDatabase_ok (run_reopen_started ho log applied) _)]
  rfl

/-- No directory is made without a name. -/
theorem not_returned_openMapped (hdir : args.sharedMemDir = "") (s : MappedDatabase Stored) :
    ¬ Returned ((openMapped fresh args).run s) := by
  intro h
  rw [openMapped] at h
  obtain ⟨_, s₁, hmapped, -⟩ := returned_bind.mp h
  have hreturned : Returned ((onMemory do
    openSegment args.sharedMemDir args.sharedMemSize
    initializeIndexes fresh).run s) := ⟨_, _, hmapped⟩
  rw [run_onMemory, returned_mapState] at hreturned
  obtain ⟨_, c₁, hsegment, -⟩ := returned_bind.mp hreturned
  rw [hdir, Chainbase.run_openSegment_empty] at hsegment
  cases hsegment

theorem run_readLog {α : Type} {f : BlockLog → Except Exc α} {d : Database} {a : α}
    (h : f d.blockLog = .ok a) : (readLog f).run d = .ok a d := by
  rw [readLog, EStateM.run_bind, EStateM.run_get]
  simp only [h]
  rfl

/-- The fork database is empty when it is reset. -/
theorem run_resetForkDb (o : Objects) (log : BlockLog) (applied : List Applied) :
    (modifyForkDb fun _ => {}).run (started o log applied) = .ok () (started o log applied) := rfl

/-- `reindex` after it was opened, from its loop on. -/
theorem run_reindexOpened {d : Database} {c₁ c₂ : Chainbase Stored}
    (hwipe : (wipeDatabase args.sharedMemDir : ChainbaseM Stored Unit).run c = .ok () c₁)
    (hopen : (do
      openSegment args.sharedMemDir args.sharedMemSize
      initializeIndexes fresh).run c₁ = .ok () c₂)
    {first head : SignedBlock} (hfirst : d.blockLog.blocks[0]? = some first)
    (hhead : d.blockLog.head = some head) :
    (reindex fresh args stopReplayAt freeMem).run ⟨d, c⟩ = (do
      let last ← replay fresh freeMem (replayedCount stopReplayAt d.blockLog.blocks)
        d.blockLog.blocks.length (first, 1)
      onDatabase (applyBlock reindexFlags last)
      onDatabase (setRevision (← get).database.headBlockNum)
      onDatabase (modifyForkDb (·.startBlock head))
      pure d.blockLog.blocks.length).run
        ⟨started genesis d.blockLog d.applied,
          { c₂ with
            sharedFileFullThreshold := args.sharedFileFullThreshold
            sharedFileScaleRate := args.sharedFileScaleRate }⟩ := by
  have hnum : head.blockNum = d.blockLog.blocks.length := by
    have hlength := d.blockLog.headNum_eq
    rwa [BlockLog.headNum, hhead] at hlength
  have hpos : head.blockNum ≠ 0 := by
    have := (List.getElem?_eq_some_iff.mp hfirst).1
    omega
  have hreset : (modify fun d => { blockLog := d.blockLog, applied := d.applied } : DbM Unit).run d =
      .ok () (started genesis d.blockLog d.applied) := rfl
  have hread : (readLog (·.readBlock 0)).run (started genesis d.blockLog d.applied) =
      .ok (first, 1) (started genesis d.blockLog d.applied) :=
    run_readLog (by simp only [BlockLog.readBlock, started, hfirst])
  have hreadHead : (readLog (·.readHead)).run (started genesis d.blockLog d.applied) =
      .ok head (started genesis d.blockLog d.applied) :=
    run_readLog (by simp only [BlockLog.readHead, started, hhead])
  rw [reindex, run_bind_of_ok (run_onMemory_ok hwipe _), run_bind_of_ok (run_onDatabase_ok hreset _),
    run_bind_of_ok (run_openMapped headBlockNum_genesis hopen),
    run_bind_of_ok (run_onDatabase_ok (run_resetForkDb _ _ _) _), run_bind_of_ok (run_onDatabase_ok hread _),
    run_bind_of_ok (run_onDatabase_ok hreadHead _), run_bind_of_ok (EStateM.run_get _)]
  simp only [onlyIf, if_pos hpos]
  rw [hnum]
  rfl

/-- What comes after the loop of `reindex`: the last block, the revision and the fork database. -/
theorem AtRound.finish {s : MappedDatabase Stored} (h : AtRound args types log s)
    {last : SignedBlock} (head : SignedBlock) {o' : Objects} (count : Nat)
    (happly : (Objects.applyBlock skipNothing last).run s.database.store.content = .ok () o') :
    ∃ s', (do
        onDatabase (NewsChain.applyBlock reindexFlags last)
        onDatabase (setRevision (← get).database.headBlockNum)
        onDatabase (modifyForkDb (·.startBlock head))
        pure count : MappedM Stored Nat).run s = .ok count s' ∧
      s'.database.store.content = o' ∧ s'.database.store.revision = s'.database.headBlockNum := by
  obtain ⟨s₁, hrun, hs₁, hstore, -⟩ := h.applyBlock happly
  have hframes : ¬ s₁.database.store.frames ≠ [] := not_not.mpr hs₁.frames
  simp only [EStateM.run_bind, hrun, EStateM.run_get, run_onDatabase, setRevision, run_onlyIf,
    if_neg hframes, EStateM.run_pure]
  refine ⟨_, rfl, ?_, rfl⟩
  simp only [Snapshots.setRevision, hstore, Snapshots.put_content]

/-- **The loop of `reindex` and what comes after it** return exactly where every check passes. -/
theorem AtRound.replayed (fresh : Stored) (freeMem : Nat → UInt64) {s : MappedDatabase Stored}
    (h : AtRound args types log s) {n : Nat} (hpos : 0 < n) (hn : n ≤ log.blocks.length)
    {first head : SignedBlock} (hfirst : log.blocks[0]? = some first) (count : Nat) {o' : Objects}
    (ho : s.database.store.content = o)
    (hlive : (Objects.applyBlocks skipNothing (log.blocks.take n)).run o = .ok () o')
    {m : MappedM Stored Nat}
    (hm : m = do
      let last ← replay fresh freeMem n log.blocks.length (first, 1)
      onDatabase (NewsChain.applyBlock reindexFlags last)
      onDatabase (setRevision (← get).database.headBlockNum)
      onDatabase (modifyForkDb (·.startBlock head))
      pure count) :
    ((∀ k, 0 < k → k < n → RoundPasses args types (freeMem k)) → ∃ s', m.run s = .ok count s' ∧
      s'.database.store.content = o' ∧ s'.database.store.revision = s'.database.headBlockNum) ∧
    (Returned (m.run s) → ∀ k, 0 < k → k < n → RoundPasses args types (freeMem k)) := by
  subst ho
  have hlast : n - 1 < log.blocks.length := by omega
  have hsplit : log.blocks.take n = log.blocks.take (n - 1) ++ [log.blocks[n - 1]] := by
    rw [← List.take_succ_eq_append_getElem hlast, Nat.sub_add_cancel hpos]
  rw [hsplit, Objects.applyBlocks, List.forM_append] at hlive
  obtain ⟨_, o₁, hfront, hback⟩ := bind_eq_ok.mp hlive
  rw [List.forM_cons, List.forM_nil] at hback
  obtain ⟨_, o₂, happly, hend⟩ := bind_eq_ok.mp hback
  rw [EStateM.run_pure] at hend
  cases hend
  obtain ⟨hto, hfrom⟩ := run_replay fresh freeMem hn (n - 1) 0
    log.blocks.length (by omega) (by omega) hfirst h (o := o₁)
    (by rw [List.drop_zero]; exact hfront)
  rw [hm]
  constructor
  · intro hall
    obtain ⟨last, s₁, hreplay, hlast', hs₁, hstore⟩ := hto fun k hk hle => hall k hk (by omega)
    rw [List.getElem?_eq_getElem hlast, Option.some.injEq] at hlast'
    subst hlast'
    obtain ⟨s', hrun, hfinish⟩ := hs₁.finish head count (by rw [hstore]; exact happly)
    exact ⟨s', (run_bind_of_ok hreplay _).trans hrun, hfinish⟩
  · intro hreturned k hk hlt
    obtain ⟨last, s₁, hreplay, -⟩ := returned_bind.mp hreturned
    exact hfrom ⟨_, _, hreplay⟩ k hk (by omega)

end Started

/-- Every check in `reindex` passes: none is made, or no size is asked for that does not fit, and the
file can grow, or need not. -/
def ReplayFits (args : OpenDbArgs) (initializations : Nat) (freeMem : Nat → UInt64) (n : Nat) :
    Prop :=
  n = 1 ∨ args.sharedFileFullThreshold = 0 ∨ args.sharedFileScaleRate = 0 ∨
    (args.sharedFileFullThreshold.toNat ≤ hundredPercent ∨ args.sharedMemSize = 0) ∧
      (initializations = 0 ∨ ∀ i, 0 < i → i < n →
        (fullMark args.sharedFileFullThreshold args.sharedMemSize).toNat ≤ (freeMem i).toNat)

omit [Node] in
theorem replayFits_iff {args : OpenDbArgs} {c : Chainbase Stored} {k n : Nat}
    (h : Initialized k c) (freeMem : Nat → UInt64) (hn : 0 < n) :
    ReplayFits args k freeMem n ↔
      ∀ i, 0 < i → i < n → RoundPasses args (c.indexTypes ++ objectTypes) (freeMem i) := by
  have hround : ∀ i, RoundPasses args (c.indexTypes ++ objectTypes) (freeMem i) ↔
      args.sharedFileFullThreshold = 0 ∨ args.sharedFileScaleRate = 0 ∨
        (args.sharedFileFullThreshold.toNat ≤ hundredPercent ∨ args.sharedMemSize = 0) ∧
          (k = 0 ∨
            (fullMark args.sharedFileFullThreshold args.sharedMemSize).toNat ≤ (freeMem i).toNat) := by
    intro i
    rw [RoundPasses, h.nodup_append]
  constructor
  · rintro (hone | hthreshold | hrate | ⟨hfits, hgrows⟩) i hi hlt
    · omega
    · exact .inl hthreshold
    · exact .inr (.inl hrate)
    · exact (hround i).mpr (.inr (.inr ⟨hfits, hgrows.imp_right fun hall => hall i hi hlt⟩))
  · intro hall
    by_cases hone : n = 1
    · exact .inl hone
    · refine .inr ?_
      rcases (hround 1).mp (hall 1 Nat.one_pos (by omega)) with hthreshold | hrate | ⟨hfits, -⟩
      · exact .inl hthreshold
      · exact .inr (.inl hrate)
      · by_cases hset : args.sharedFileFullThreshold = 0 ∨ args.sharedFileScaleRate = 0
        · exact hset.imp_right .inl
        · refine .inr (.inr ⟨hfits, ?_⟩)
          by_cases hk : k = 0
          · exact .inl hk
          · refine .inr fun i hi hlt => ?_
            rcases (hround i).mp (hall i hi hlt) with hthreshold | hrate | ⟨-, hpasses⟩
            · exact absurd (.inl hthreshold) hset
            · exact absurd (.inr hrate) hset
            · exact hpasses.resolve_left hk

/-- **Replay.** A node that finds an accepted chain in its log makes of it, up to the block it is to
stop at, the objects the live node had after that block, exactly where its memory lets it. -/
theorem reindex_eq_live_iff (fresh : Stored) (files : String → Option (SharedFile Stored))
    (threshold rate : UInt16) (calls : List (MemoryCall Stored)) {c : Chainbase Stored}
    (hcalls : c = runMemoryCalls fresh (constructed files threshold rate) calls)
    {blocks : List SignedBlock} {d : Database} (args : OpenDbArgs) (stopReplayAt : Nat)
    (freeMem : Nat → UInt64) (haccepted : Accepted blocks) (hne : blocks ≠ [])
    (hlog : d.blockLog.blocks = blocks) :
    (∃ s, (reindex fresh args stopReplayAt freeMem).run ⟨d, c⟩ = .ok blocks.length s ∧
      s.database.store.content =
        (liveAfter (blocks.take (replayedCount stopReplayAt blocks))).store.content ∧
      s.database.store.revision = s.database.headBlockNum) ↔
      args.sharedMemDir ≠ "" ∧ ReplayFits args (calls.map MemoryCall.initializations).sum freeMem
        (replayedCount stopReplayAt blocks) := by
  subst hlog
  have hstart : Initialized 0 (constructed files threshold rate) := ⟨rfl, rfl, fun _ => rfl⟩
  have hcount := hstart.runMemoryCalls fresh calls
  rw [← hcalls, Nat.zero_add] at hcount
  obtain ⟨n, hn⟩ : ∃ n, n = replayedCount stopReplayAt d.blockLog.blocks := ⟨_, rfl⟩
  have hlength : 0 < d.blockLog.blocks.length := List.length_pos_iff.mpr hne
  have hbounds : 0 < n ∧ n ≤ d.blockLog.blocks.length := by
    rw [hn, replayedCount]
    split <;> omega
  rw [← hn, replayFits_iff hcount freeMem hbounds.1]
  by_cases hdir : args.sharedMemDir = ""
  · refine iff_of_false ?_ fun h => h.1 hdir
    rintro ⟨s, hrun, -⟩
    have hreturned : Returned ((reindex fresh args stopReplayAt freeMem).run ⟨d, c⟩) := ⟨_, _, hrun⟩
    rw [reindex] at hreturned
    obtain ⟨_, s₁, -, hreturned⟩ := returned_bind.mp hreturned
    obtain ⟨_, s₂, -, hreturned⟩ := returned_bind.mp hreturned
    obtain ⟨_, s₃, hopened, -⟩ := returned_bind.mp hreturned
    exact not_returned_openMapped hdir s₂ ⟨_, _, hopened⟩
  have hlive := (haccepted.take n).live.content
  obtain ⟨head, hhead⟩ : ∃ head, d.blockLog.head = some head :=
    Option.ne_none_iff_exists'.mp fun hnone => hne (List.getLast?_eq_none_iff.mp hnone)
  obtain ⟨c₁, c₂, hwipe, hopen, hmemory⟩ := run_openIndexes fresh hdir c
  have hfirst := List.getElem?_eq_getElem hlength
  rw [run_reindexOpened hwipe hopen hfirst hhead, ← hn]
  have hround := atRound_started d.blockLog d.applied hardforkOk_genesis hmemory
  obtain ⟨hto, hfrom⟩ := hround.replayed fresh freeMem hbounds.1 hbounds.2
    hfirst d.blockLog.blocks.length (content_started _ _ _ _) hlive rfl
  constructor
  · rintro ⟨s, hrun, -⟩
    exact ⟨hdir, hfrom ⟨_, _, hrun⟩⟩
  · rintro ⟨-, hall⟩
    exact hto hall

end Replay

/-- Three blocks on a line. -/
def threeBlocks : List SignedBlock :=
  let _ : Node := smallNode
  let x : SignedBlock := blockOn .null genesisTime []
  let y : SignedBlock := blockOn x.id (genesisTime + 3) []
  [x, y, blockOn y.id (genesisTime + 6) []]

theorem get_of_getElem? {α : Type} {l : List α} {i : Nat} {a : α} (h : l[i]? = some a) :
    ∃ k : Fin l.length, k = i ∧ l.get k = a := by
  obtain ⟨hi, rfl⟩ := List.getElem?_eq_some_iff.mp h
  exact ⟨⟨i, hi⟩, rfl, rfl⟩

theorem accepted_threeBlocks : @Accepted smallNode threeBlocks := by
  intro i b hb
  obtain ⟨k, rfl, rfl⟩ := get_of_getElem? hb
  revert k
  decide +kernel

theorem numbered_threeBlocks (i : Nat) (b : SignedBlock) (h : threeBlocks[i]? = some b) :
    b.blockNum = i + 1 := by
  obtain ⟨k, rfl, rfl⟩ := get_of_getElem? h
  revert k
  decide +kernel

/-- The database of a process that finds the three blocks in its log. -/
def threeLogged : @Database smallNode :=
  let _ : Node := smallNode
  { blockLog := { blocks := threeBlocks, numbered := numbered_threeBlocks } }

theorem blocks_threeLogged : (@Database.blockLog smallNode threeLogged).blocks = threeBlocks := by
  rw [threeLogged]

/-- An object that was never opened replays three blocks, and its memory grows on the way. -/
theorem reindex_eq_live_three :
    let _ : Node := smallNode
    ∃ s : MappedDatabase Nat,
      (reindex 0 ⟨"blockchain", 1024, 9000, 5000⟩ 0 fun _ => 50).run
        ⟨threeLogged, constructed (fun _ => none) 0 0⟩ = .ok 3 s ∧
      s.database.store.content = (liveAfter threeBlocks).store.content ∧
      s.database.store.revision = s.database.headBlockNum := by
  dsimp only
  have hlength : threeBlocks.length = 3 := by decide
  have hcount : replayedCount 0 threeBlocks = threeBlocks.length := by decide
  have hfits : ReplayFits ⟨"blockchain", 1024, 9000, 5000⟩ 0 (fun _ => 50) threeBlocks.length :=
    .inr (.inr (.inr ⟨.inl (by decide), .inl rfl⟩))
  have hreplays := @reindex_eq_live_iff smallNode Nat 0 (fun _ => none) 0 0 [] _ rfl threeBlocks
    threeLogged ⟨"blockchain", 1024, 9000, 5000⟩ 0 (fun _ => 50) accepted_threeBlocks (by decide)
    blocks_threeLogged
  rw [hcount, List.take_length] at hreplays
  obtain ⟨s, hrun, hobjects⟩ := hreplays.mpr ⟨by decide, hfits⟩
  rw [hlength] at hrun
  exact ⟨s, hrun, hobjects⟩

/-- An object whose `open` found that the state does not match the block log: the first check of the
replay that asks for more memory throws. -/
theorem reindex_throws :
    let _ : Node := smallNode
    ¬ ∀ (calls : List (MemoryCall Nat)) (blocks : List SignedBlock) (d : Database)
      (args : OpenDbArgs) (stopReplayAt : Nat) (freeMem : Nat → UInt64),
      args.sharedMemDir ≠ "" → Accepted blocks → blocks ≠ [] → d.blockLog.blocks = blocks →
      ∃ s, (reindex 0 args stopReplayAt freeMem).run
          ⟨d, runMemoryCalls 0 (constructed (fun _ => none) 0 0) calls⟩ = .ok blocks.length s ∧
        s.database.store.content =
          (liveAfter (blocks.take (replayedCount stopReplayAt blocks))).store.content ∧
        s.database.store.revision = s.database.headBlockNum := by
  intro node h
  let args : OpenDbArgs := ⟨"blockchain", 1024, 9000, 5000⟩
  let calls : List (MemoryCall Nat) :=
    [.open args (.ok ()) ⟨fun _ x => x,
      .error (.assertion "Chain state does not match block log. Please reindex blockchain.")⟩]
  have hthrows : ¬ Returned ((reindex 0 args 0 fun _ => 50).run
      ⟨threeLogged, runMemoryCalls 0 (constructed (fun _ => none) 0 0) calls⟩) := by
    decide +kernel
  obtain ⟨s, hrun, -⟩ := h calls threeBlocks threeLogged args 0 (fun _ => 50) (by decide)
    accepted_threeBlocks (by decide) blocks_threeLogged
  exact hthrows ⟨_, _, hrun⟩

end NewsChain
