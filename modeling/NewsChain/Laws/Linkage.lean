import NewsChain.Laws.PushBlock

/-!
# Which head a block is applied to

`_push_block` decides on the head of the fork database whether the pushed block goes on top of the
present head. The two differ: after a block was refused on the direct path it stays the head of the
fork database, and a block that does not even build on the state's head is applied to it
(`pushBlock_misplaced`). Where that does not happen every block is applied to its parent
(`blockRun_linked`).

The invariant is about the store: each snapshot is one block lower than the next, and a session is
numbered as its block.
-/

namespace NewsChain

open EStateM (Result)

/-! ## The store counts blocks -/

/-- The head number is in the head id, and the last irreversible block is the right one. -/
structure HeadOk (o : Objects) : Prop where
  number : o.gpo.headBlockNum = numFromId o.gpo.headBlockId
  lastIrreversible : o.gpo.lastIrreversibleBlockNum = o.gpo.headBlockNum - irreversibleBlockNum
  hardfork : HardforkOk o

/-- Each snapshot is one block below the content above it, in a session numbered as that. -/
def Stacked : Objects → List (Frame Objects) → Prop
  | _, [] => True
  | o, f :: fs =>
    HeadOk f.saved ∧ o.gpo.headBlockNum = f.saved.gpo.headBlockNum + 1 ∧
      f.revision = o.gpo.headBlockNum ∧ Stacked f.saved fs

structure StoreOk (s : Snapshots Objects) : Prop where
  head : HeadOk s.content
  revision : s.revision = s.content.gpo.headBlockNum
  stacked : Stacked s.content s.frames

theorem Stacked.of_prefix {o : Objects} {fs fs' : List (Frame Objects)} (h : Stacked o fs)
    (hp : fs' <+: fs) : Stacked o fs' := by
  induction fs' generalizing o fs with
  | nil => trivial
  | cons f fs' ih =>
    obtain ⟨rest, rfl⟩ := hp
    exact ⟨h.1, h.2.1, h.2.2.1, ih h.2.2.2 ⟨rest, rfl⟩⟩

namespace StoreOk

variable {s : Snapshots Objects}

theorem commit (h : StoreOk s) (r : Int) : StoreOk (s.commit r) :=
  ⟨h.head, h.revision, h.stacked.of_prefix (List.rdropWhile_prefix _ _)⟩

theorem undo (h : StoreOk s) : StoreOk s.undo := by
  obtain ⟨content, frames, revision⟩ := s
  cases frames with
  | nil => exact h
  | cons f fs =>
    obtain ⟨hhead, hrev, hsaved, hnum, -, hstacked⟩ := h
    refine ⟨hsaved, ?_, hstacked⟩
    simp only [Snapshots.undo] at hrev hnum ⊢
    omega

theorem undo_headBlockNum (h : StoreOk s) :
    s.undo.content.gpo.headBlockNum ≤ s.content.gpo.headBlockNum := by
  obtain ⟨content, frames, revision⟩ := s
  cases frames with
  | nil => exact Nat.le_refl _
  | cons f fs =>
    have := h.stacked.2.1
    simp only [Snapshots.undo] at this ⊢
    omega

/-- A session with the next block in it. -/
theorem put_start (h : StoreOk s) {o : Objects} (ho : HeadOk o)
    (hnum : o.gpo.headBlockNum = s.content.gpo.headBlockNum + 1) : StoreOk (s.start.put o) := by
  refine ⟨ho, ?_, h.head, hnum, ?_, h.stacked⟩ <;>
  · have := h.revision
    simp only [Snapshots.start, Snapshots.put]
    omega

end StoreOk

section Calls

variable [Node]

/-! ## Applying the next block -/

/-- The last irreversible block after a block is entered. -/
theorem raised_lastIrreversible {o o' : Objects} {b : SignedBlock} (ho : HeadOk o)
    (hnum : b.blockNum = o.gpo.headBlockNum + 1)
    (h : (Objects.enterBlock skipNothing b).run o = .ok () o') :
    o'.raised.gpo.lastIrreversibleBlockNum = b.blockNum - irreversibleBlockNum := by
  have hlast := ho.lastIrreversible
  simp only [Objects.raised, gpo_enterBlock h, DynamicGlobalProperty.raised,
    DynamicGlobalProperty.entered]
  split
  · rfl
  · simp only
    omega

theorem HeadOk.applyBlock {o o' : Objects} {b : SignedBlock} (ho : HeadOk o)
    (hnum : b.blockNum = o.gpo.headBlockNum + 1)
    (h : (Objects.applyBlock skipNothing b).run o = .ok () o') :
    HeadOk o' ∧ o'.gpo.headBlockNum = b.blockNum ∧ o'.gpo.headBlockId = b.id := by
  obtain ⟨hgpo, hfork⟩ := gpo_applyBlock ho.hardfork h
  obtain ⟨o₁, henter, hleave⟩ := applyBlock_eq_ok.mp h
  have hlast := raised_lastIrreversible ho hnum henter
  simp only [Objects.raised, gpo_enterBlock henter] at hlast
  have hhead : o'.gpo.headBlockNum = b.blockNum := by simp [hgpo, DynamicGlobalProperty.entered]
  have hid : o'.gpo.headBlockId = b.id := by simp [hgpo, DynamicGlobalProperty.entered]
  refine ⟨⟨?_, ?_, hfork⟩, hhead, hid⟩
  · rw [hhead, hid, numFromId_id]
  · rw [hhead, hgpo, hlast]

/-- The next block has one of the three outcomes, as the session outlives its commit. -/
theorem StoreOk.applyInSession {d : Database} {b : SignedBlock} (hd : StoreOk d.store)
    (hnum : b.blockNum = d.headBlockNum + 1) :
    SessionOutcome skipNothing b d ((applyInSession skipNothing b).run d) := by
  refine applyInSession_cases hd.head.hardfork fun o h => ?_
  rw [raised_lastIrreversible hd.head hnum h, hd.revision]
  change b.blockNum = d.store.content.gpo.headBlockNum + 1 at hnum
  simp only [irreversibleBlockNum]
  omega

/-- Applying the next block keeps the count, whatever the outcome. -/
theorem StoreOk.finalState_applyInSession {d : Database} {b : SignedBlock} (hd : StoreOk d.store)
    (hnum : b.blockNum = d.headBlockNum + 1) :
    StoreOk (finalState ((NewsChain.applyInSession skipNothing b).run d)).store := by
  have hout := hd.applyInSession hnum
  generalize (NewsChain.applyInSession skipNothing b).run d = r at hout
  cases hout with
  | refused => exact hd
  | applied henter _ hleave =>
    obtain ⟨hhead, hnum', -⟩ :=
      hd.head.applyBlock hnum (applyBlock_eq_ok.mpr ⟨_, henter, hleave⟩)
    exact (hd.commit _).put_start hhead (by rw [hnum']; exact hnum)
  | unlogged => exact hd.commit _

/-! ## Linked applications -/

/-- The block was applied to its parent. -/
def Applied.Linked (r : Applied) : Prop :=
  r.block.previous = r.headBlockId ∧ r.block.blockNum = r.headBlockNum + 1

instance (r : Applied) : Decidable r.Linked := inferInstanceAs (Decidable (_ ∧ _))

/-- The fork database refuses the block, or the block builds on the head of the state, or the head
of the fork database is no block on that head that is at least as high. -/
def LinksUp (d : Database) (b : SignedBlock) : Prop :=
  (∃ e, d.forkDb.pushBlock b = .error e) ∨ b.previous = d.headBlockId ∨
    ∀ head, d.forkDb.head = some head → b.blockNum ≤ head.num →
      head.data.previous ≠ d.headBlockId

/-- Every block so far was applied to its parent, and the store counts them. -/
structure Counted (d : Database) : Prop where
  settled : d.pendingSession = false
  store : StoreOk d.store
  linked : ∀ r ∈ d.applied, r.Linked

theorem Counted.blockNum {d : Database} {b : SignedBlock} (hd : Counted d)
    (hprev : b.previous = d.headBlockId) (hb : b.blockNum ≠ 0) :
    b.blockNum = d.headBlockNum + 1 := by
  have hnum := hd.store.head.number
  have hlt := numFromId_lt d.headBlockId
  simp only [BlockHeader.blockNum, hprev] at hb ⊢
  change d.headBlockNum = numFromId d.headBlockId at hnum
  omega

/-- Applying a block to its parent keeps the count, and a head in the fork database. -/
theorem Counted.applyInSession {d : Database} {b : SignedBlock} (hd : Counted d)
    (hhead : d.forkDb.head ≠ none) (hprev : b.previous = d.headBlockId) (hb : b.blockNum ≠ 0) :
    Counted (finalState ((applyInSession skipNothing b).run d)) ∧
      (finalState ((applyInSession skipNothing b).run d)).forkDb.head ≠ none := by
  have hnum := hd.blockNum hprev hb
  have hlinked : ∀ r ∈ (d.noting b).applied, r.Linked := by
    intro r hr
    rcases List.mem_cons.mp hr with rfl | hr
    · exact ⟨hprev, hnum⟩
    · exact hd.linked r hr
  have hstore := hd.store.finalState_applyInSession hnum
  have hout := hd.store.applyInSession hnum
  generalize (NewsChain.applyInSession skipNothing b).run d = r at hout hstore
  cases hout with
  | refused => exact ⟨⟨hd.settled, hstore, hlinked⟩, hhead⟩
  | applied =>
    refine ⟨⟨hd.settled, hstore, hlinked⟩, ?_⟩
    simp only [finalState_ok, ForkDatabase.setMaxSize]
    split
    · exact absurd ‹_› hhead
    · exact hhead
  | unlogged => exact ⟨⟨hd.settled, hstore, hlinked⟩, hhead⟩

theorem counted_lowers :
    Lowers fun d => Counted d ∧ d.forkDb.head ≠ none :=
  fun _ hd => ⟨hd.1.store.head.number, hd.1.store.undo_headBlockNum⟩

theorem counted_pushInvariant : PushInvariant fun d => Counted d ∧ d.forkDb.head ≠ none where
  settled := fun hd => hd.1.settled
  hardfork := fun hd => hd.1.store.head.hardfork
  forkDb := fun _ hfdb hd => ⟨⟨hd.1.settled, hd.1.store, hd.1.linked⟩, hfdb hd.2⟩
  pop := fun _ hd => ⟨⟨hd.1.settled, hd.1.store.undo, hd.1.linked⟩, hd.2⟩
  apply := fun _ hd hprev hb => hd.1.applyInSession hd.2 hprev (hb counted_lowers)

/-! ## Runs -/

/-- The databases reached from genesis by pushing blocks, returning or throwing, where `P` is asked
of each block and the settled database before it. -/
inductive BlockRun (P : Database → SignedBlock → Prop) : Database → Prop
  | genesis : BlockRun P .genesis
  | push {d : Database} (b : SignedBlock) : BlockRun P d → P d.settled b →
      BlockRun P (finalState ((pushBlock skipNothing b).run d))

/-- What holds of a settled database between calls: no block was applied before there was a head
in the fork database. -/
structure CountedRun (d : Database) : Prop where
  counted : Counted d
  fresh : d.forkDb.head = none → d.headBlockNum = 0

/-- A block that links up keeps the count. -/
theorem CountedRun.afterBlock {d : Database} {b : SignedBlock} (hd : CountedRun d)
    (hb : LinksUp d b) : CountedRun (d.afterBlock b) := by
  cases hpush : d.forkDb.pushBlock b with
  | error e =>
    rw [afterBlock_of_refused hpush]
    exact ⟨⟨hd.counted.settled, hd.counted.store, hd.counted.linked⟩, hd.fresh⟩
  | ok r =>
    obtain ⟨newBlock, fdb⟩ := r
    obtain ⟨item, hlink, rfl, rfl⟩ := ForkDatabase.pushBlock_eq_ok.mp hpush
    have hitem := ForkDatabase.link_eq_ok hlink
    have hcounted : Counted { d with forkDb := d.forkDb.pushed item } :=
      ⟨hd.counted.settled, hd.counted.store, hd.counted.linked⟩
    have hsome : (d.forkDb.pushed item).head ≠ none := Option.some_ne_none _
    obtain ⟨hcounted', hhead⟩ := counted_pushInvariant.afterBlock hpush ⟨hcounted, hsome⟩ fun hnew => by
      have hprev : b.previous = d.headBlockId := by
        rcases hb with ⟨e, he⟩ | hprev | hhead
        · rw [hpush] at he
          cases he
        · exact hprev
        · rcases d.forkDb.raisedHead_cases item with ⟨heq, -⟩ | ⟨heq, hle⟩
          · rw [heq, hitem.data] at hnew
            exact hnew
          · refine absurd hnew (hhead _ heq ?_)
            rwa [ForkItem.num, hitem.data] at hle
      refine hcounted.applyInSession hsome hprev fun hzero => ?_
      cases hold : d.forkDb.head with
      | none =>
        -- The first block is applied to a head numbered 0, so it is numbered 1.
        have hnum := hd.counted.store.head.number
        have hfresh : d.store.content.gpo.headBlockNum = 0 := hd.fresh hold
        have hprev' : b.previous = d.store.content.gpo.headBlockId := hprev
        rw [hfresh, ← hprev'] at hnum
        simp [BlockHeader.blockNum, ← hnum] at hzero
      | some head =>
        have := hitem.recent head hold
        omega
    exact ⟨hcounted', fun h => absurd h hhead⟩

omit [Node] in
/-- A store of one content at height 0 counts no block yet. -/
theorem StoreOk.initial {o : Objects} (ho : HeadOk o) (hnum : o.gpo.headBlockNum = 0) :
    StoreOk { content := o } :=
  ⟨ho, by simp [hnum], trivial⟩

theorem headOk_genesis : HeadOk genesis := by
  refine ⟨?_, ?_, hardforkOk_genesis⟩ <;> rw [blank_genesis.1] <;> rfl

theorem headBlockNum_genesis : genesis.gpo.headBlockNum = 0 := by rw [blank_genesis.1]

theorem CountedRun.initial {o : Objects} (ho : HeadOk o) (hnum : o.gpo.headBlockNum = 0) :
    CountedRun { store := { content := o } } :=
  ⟨⟨rfl, StoreOk.initial ho hnum, fun _ h => by cases h⟩, fun _ => hnum⟩

theorem countedRun_genesis : CountedRun .genesis :=
  CountedRun.initial headOk_genesis headBlockNum_genesis

theorem BlockRun.counted {d : Database} (h : BlockRun LinksUp d) : CountedRun d.settled := by
  induction h with
  | genesis => exact countedRun_genesis
  | push b _ hb ih =>
    rw [(over_pushBlock b rfl).2]
    exact ih.afterBlock hb

/-- **Chain linkage.** In every run of pushed blocks that link up, every block that was ever
applied was applied to its parent, one number higher. -/
theorem blockRun_linked {d : Database} (h : BlockRun LinksUp d) : ∀ r ∈ d.applied, r.Linked :=
  h.counted.counted.linked

/-- Whatever becomes of an application, its start stays on record. -/
theorem applied_applyInSession (b : SignedBlock) (d : Database) :
    (finalState ((applyInSession skipNothing b).run d)).applied = (d.noting b).applied := by
  have hcontent : d.store.start.content = d.store.content := rfl
  simp only [applyInSession, run_withSession, applyBlock, applyBlockImpl, EStateM.run_bind,
    EStateM.run_modify, run_objects, run_updateLastIrreversibleBlock, hcontent]
  cases (Objects.enterBlock skipNothing b).run d.store.content with
  | error e o => rfl
  | ok _ o =>
    simp only [withObjects, Snapshots.put_content]
    cases (logUpTo skipNothing d.forkDb o.raised.gpo.lastIrreversibleBlockNum).run d.blockLog with
    | error e log => rfl
    | ok _ log =>
      simp only
      cases (Objects.leaveBlock b).run _ <;> rfl

/-- Where a block does not link up, it is applied to a head that is not its parent. -/
theorem afterBlock_misplaced {d : Database} {b : SignedBlock} (hb : ¬ LinksUp d b) :
    ∃ r ∈ (d.afterBlock b).applied, ¬ r.Linked := by
  obtain ⟨hpush, hprev, head, hhead, hle, hbuilds⟩ :
      (∀ e, d.forkDb.pushBlock b ≠ .error e) ∧ b.previous ≠ d.headBlockId ∧
        ∃ head, d.forkDb.head = some head ∧ b.blockNum ≤ head.num ∧
          head.data.previous = d.headBlockId := by
    simpa [LinksUp] using hb
  cases hrun : d.forkDb.pushBlock b with
  | error e => exact absurd hrun (hpush e)
  | ok r =>
    obtain ⟨newBlock, fdb⟩ := r
    obtain ⟨item, hlink, rfl, rfl⟩ := ForkDatabase.pushBlock_eq_ok.mp hrun
    have hnew : d.forkDb.raisedHead item = head := by
      have hitem : item.num = b.blockNum := by
        rw [ForkItem.num, (ForkDatabase.link_eq_ok hlink).data]
      simp only [ForkDatabase.raisedHead, hhead]
      rw [if_neg (by omega)]
    refine ⟨⟨b, d.headBlockId, d.headBlockNum⟩, ?_, fun h => hprev h.1⟩
    have hmem := applied_applyInSession b { d with forkDb := d.forkDb.pushed item }
    rw [Database.afterBlock, run_releaseItems, run_pushBlockImpl, hrun]
    simp only [hnew, ne_eq, hbuilds, not_true_eq_false, if_false, run_applyPushed]
    cases happly : (applyInSession skipNothing b).run
        { d with forkDb := d.forkDb.pushed item } <;>
    · rw [happly] at hmem
      simp only [finalState_ok, finalState_error] at hmem ⊢
      rw [hmem]
      exact List.mem_cons_self

end Calls

/-- The second block is left for its sibling and that one's child: four applications make a chain of
three. -/
theorem blockRun_linked_switch :
    let _ : Node := smallNode
    ∃ d : Database, d.headBlockNum = 3 ∧ d.applied.length = 4 ∧ ∀ r ∈ d.applied, r.Linked := by
  intro node
  let x : SignedBlock := blockOn .null genesisTime []
  let x' : SignedBlock := blockOn x.id (genesisTime + 3) []
  let y : SignedBlock := blockOn x.id (genesisTime + 6) []
  let z : SignedBlock := blockOn y.id (genesisTime + 9) []
  let push (b : SignedBlock) (d : Database) : Database := finalState ((pushBlock skipNothing b).run d)
  let d₂ := push x' (push x .genesis)
  let d := push z (push y d₂)
  have hx : LinksUp (Database.genesis).settled x := .inr (.inl (by decide +kernel))
  have hx' : LinksUp (push x .genesis).settled x' := .inr (.inl (by decide +kernel))
  have hy : LinksUp d₂.settled y := by
    have hhead : ∀ head ∈ d₂.settled.forkDb.head, y.blockNum ≤ head.num →
        head.data.previous ≠ d₂.settled.headBlockId := by decide +kernel
    exact .inr (.inr hhead)
  have hz : LinksUp (push y d₂).settled z := by
    have hhead : ∀ head ∈ (push y d₂).settled.forkDb.head, z.blockNum ≤ head.num →
        head.data.previous ≠ (push y d₂).settled.headBlockId := by decide +kernel
    exact .inr (.inr hhead)
  have hrun : BlockRun LinksUp d := .push z (.push y (.push x' (.push x .genesis hx) hx') hy) hz
  exact ⟨d, by decide +kernel, by decide +kernel, blockRun_linked hrun⟩

/-- The child of the head fails and stays the head of the fork database; so the next block, a
sibling of the head, is applied to its sibling. -/
theorem sibling_misplaced :
    ¬ ∀ d, @BlockRun smallNode (fun _ _ => True) d → ∀ r ∈ @Database.applied smallNode d,
      r.Linked := by
  let _ : Node := smallNode
  intro h
  let x : SignedBlock := blockOn .null genesisTime []
  let y : SignedBlock := { blockOn x.id (genesisTime + 3) [] with transactions := [unitTransfer 10] }
  let z : SignedBlock := blockOn .null (genesisTime + 3) []
  have hlinked := h _ (.push z (.push y (.push x (d := .genesis) .genesis trivial) trivial) trivial)
  revert hlinked
  decide +kernel

end NewsChain
