import NewsChain.Laws.GeneratedBlock
import NewsChain.Laws.Schedule

/-!
# The time of the head

Nothing compares the time of a block with the head's. What keeps it later is `miss_blocks`, the slot
of the block's time counted from the head, which must not be 0: the time is then not before the
first slot after the head. That slot is after the head's time unless its start does not fit 32 bits
(`slotAhead_iff`), and where it does not, a block is accepted whose time is not later
(`applyRun_headTime`).
-/

namespace NewsChain

/-- The first slot after the head starts in 32 bits. -/
def SlotAhead (gpo : DynamicGlobalProperty) : Prop :=
  if gpo.headBlockNum = 0 then gpo.time.toNat < 2 ^ 32 - blockInterval
  else gpo.time.toNat ≠ 2 ^ 32 - 1

/-- The first slot is after the head's time exactly where it does not wrap around: the head's own
slot starts at a multiple of the interval, and 2^32 - 1 is one. -/
theorem slotAhead_iff (gpo : DynamicGlobalProperty) :
    SlotAhead gpo ↔ gpo.time < gpo.slotTime 1 := by
  have htime := gpo.time.toNat_lt
  have hthree : ((1 : UInt32) * 3).toNat = 3 := by decide
  unfold SlotAhead DynamicGlobalProperty.slotTime
  rw [if_neg (show ¬ (1 : UInt32) = 0 by decide), UInt32.lt_iff_toNat_lt]
  split
  · rw [UInt32.toNat_add, hthree]
    simp only [blockInterval]
    omega
  · have hstart : (gpo.time / 3 * 3).toNat = gpo.time.toNat / 3 * 3 := by
      rw [UInt32.toNat_mul, UInt32.toNat_div]
      exact Nat.mod_eq_of_lt (by show gpo.time.toNat / 3 * 3 < _; omega)
    rw [UInt32.toNat_add, hthree, hstart]
    omega

instance (gpo : DynamicGlobalProperty) : Decidable (SlotAhead gpo) :=
  decidable_of_iff _ (slotAhead_iff gpo).symm

/-- A time whose slot is not 0 is not before the first slot. -/
theorem slotTime_le_of_slotAtTime {gpo : DynamicGlobalProperty} {t : TimePointSec}
    (h : gpo.slotAtTime t ≠ 0) : gpo.slotTime 1 ≤ t := by
  unfold DynamicGlobalProperty.slotAtTime at h
  split at h
  · exact absurd rfl h
  · exact UInt32.not_lt.mp ‹_›

theorem slotAtTime_slotTime (gpo : DynamicGlobalProperty) :
    gpo.slotAtTime (gpo.slotTime 1) = 1 := by
  unfold DynamicGlobalProperty.slotAtTime
  rw [if_neg (UInt32.lt_irrefl _), UInt32.sub_self]
  rfl

section Runs

variable [Node]

/-- The blocks applied and the stores reached from genesis by applying blocks in sessions, whatever
they build on, and by undoing the newest. The assertion on `miss_blocks` holds of every block, and
`P` of the objects it meets; everything outside the store may change freely. -/
inductive ApplyRun (P : Objects → Prop) : List SignedBlock → Snapshots Objects → Prop
  | genesis : ApplyRun P [] Database.genesis.store
  | apply {chain : List SignedBlock} {skip : SkipFlags} {b : SignedBlock} {d d' : Database} :
      ApplyRun P chain d.store → d.gpo.slotAtTime b.timestamp ≠ 0 → P d.store.content →
        (applyInSession skip b).run d = .ok () d' → ApplyRun P (b :: chain) d'.store
  | undo {chain : List SignedBlock} {b : SignedBlock} {s : Snapshots Objects} :
      ApplyRun P (b :: chain) s → s.frames ≠ [] → ApplyRun P chain s.undo

/-- The times of the heads, newest first. -/
def headTimes (chain : List SignedBlock) : List TimePointSec :=
  chain.map (·.timestamp) ++ [genesisTime]

/-- **The rule** of these runs: what holds at genesis and is kept by every block holds of every
content the store can go back to. -/
theorem ApplyRun.tracks {P : Objects → Prop} {I : List SignedBlock → Objects → Prop}
    {chain : List SignedBlock} {s : Snapshots Objects} (h : ApplyRun P chain s)
    (hgenesis : I [] NewsChain.genesis)
    (hstep : ∀ chain o o' skip b, HardforkOk o → I chain o → o.gpo.slotAtTime b.timestamp ≠ 0 →
      P o → (Objects.applyBlock skip b).run o = .ok () o' → I (b :: chain) o') :
    s.Tracks (fun chain o => HardforkOk o ∧ I chain o) chain := by
  induction h with
  | genesis => exact .initial ⟨hardforkOk_genesis, hgenesis⟩
  | apply _ hslot hP happly ih =>
    obtain ⟨r, o, hrun, hstore⟩ := applyInSession_eq_ok happly
    obtain ⟨hfork, hi⟩ := ih.content
    rw [hstore]
    exact (ih.put_start ⟨(gpo_applyBlock hfork hrun).2, hstep _ _ _ _ _ hfork hi hslot hP hrun⟩).commit r
  | undo _ hframes ih => exact ih.undo hframes

/-- The time of the head is that of its block. -/
theorem ApplyRun.time {P : Objects → Prop} {chain : List SignedBlock} {s : Snapshots Objects}
    (h : ApplyRun P chain s) :
    HardforkOk s.content ∧ (headTimes chain).head? = some s.content.gpo.time := by
  refine (h.tracks (I := fun chain o => (headTimes chain).head? = some o.gpo.time) ?_ ?_).content
  · rw [blank_genesis.1]
    rfl
  · intro chain o o' skip b hfork _ _ _ hrun
    simp [headTimes, (gpo_applyBlock hfork hrun).1, DynamicGlobalProperty.entered]

/-- Where every first slot is ahead, each head is later than the one before. -/
theorem ApplyRun.increasing {chain : List SignedBlock} {s : Snapshots Objects}
    (h : ApplyRun (fun o => SlotAhead o.gpo) chain s) :
    (headTimes chain).Pairwise (· > ·) ∧ (headTimes chain).head? = some s.content.gpo.time := by
  refine (h.tracks (I := fun chain o => (headTimes chain).Pairwise (· > ·) ∧
    (headTimes chain).head? = some o.gpo.time) ?_ ?_).content.2
  · rw [blank_genesis.1]
    exact ⟨List.pairwise_singleton _ _, rfl⟩
  · rintro chain o o' skip b hfork ⟨hsorted, hhead⟩ hslot hahead hrun
    have htime : o'.gpo.time = b.timestamp := by
      simp [(gpo_applyBlock hfork hrun).1, DynamicGlobalProperty.entered]
    have hlater : o.gpo.time < b.timestamp :=
      UInt32.lt_of_lt_of_le ((slotAhead_iff _).mp hahead) (slotTime_le_of_slotAtTime hslot)
    refine ⟨List.pairwise_cons.mpr ⟨fun t ht => ?_, hsorted⟩, by simp [headTimes, htime]⟩
    -- the times below are the head's and earlier ones
    obtain ⟨rest, hrest⟩ : ∃ rest, headTimes chain = o.gpo.time :: rest := by
      cases hl : headTimes chain with
      | nil => simp [hl] at hhead
      | cons t' rest =>
        rw [hl] at hhead
        exact ⟨rest, by rw [Option.some.inj hhead]⟩
    change t ∈ headTimes chain at ht
    rw [hrest] at ht hsorted
    rcases List.mem_cons.mp ht with rfl | ht
    · exact hlater
    · exact UInt32.lt_trans ((List.pairwise_cons.mp hsorted).1 t ht) hlater

/-- A block without transactions, on the head, in the first slot after it. -/
def firstSlotBlock (gpo : DynamicGlobalProperty) : SignedBlock where
  timestamp := gpo.slotTime 1
  producer := 0
  transactionMerkleRoot := merkleRoot []
  previous := gpo.headBlockId
  version := 1
  producerSignature := 0
  transactions := []

/-- A block whose parts run is applied. -/
theorem applyInSession_returns {skip : SkipFlags} {b : SignedBlock} {d : Database} {o o' : Objects}
    {log : BlockLog} (henter : (Objects.enterBlock skip b).run d.store.content = .ok () o)
    (hlog : (logUpTo skip d.forkDb o.raised.gpo.lastIrreversibleBlockNum).run d.blockLog = .ok () log)
    (hleave : (Objects.leaveBlock b).run o.raised = .ok () o') :
    ∃ d', (applyInSession skip b).run d = .ok () d' := by
  have hcontent : d.store.start.content = d.store.content := rfl
  simp only [applyInSession, run_withSession, applyBlock, applyBlockImpl, EStateM.run_bind,
    EStateM.run_modify, run_objects, run_updateLastIrreversibleBlock, hcontent, henter, withObjects,
    Snapshots.put_content, Snapshots.put_put, hlog, Snapshots.commit_content, hleave]
  exact ⟨_, rfl⟩

/-- It is applied wherever the hardforks are counted, when nothing is written to the log. -/
theorem firstSlotBlock_applies {d : Database} (h : HardforkOk d.store.content) :
    ∃ d', (applyInSession skipBlockLog (firstSlotBlock d.gpo)).run d = .ok () d' := by
  have hreturned : Returned
      ((Objects.enterBlock skipBlockLog (firstSlotBlock d.gpo)).run d.store.content) :=
    returned_enterBlock h rfl fun x => ⟨(), _, rfl⟩
  obtain ⟨_, o, henter⟩ := hreturned
  have hfork : HardforkOk o := (enterBlock_keeps_hardforkOk _ _).of_ok h henter
  obtain ⟨o', hleave, -⟩ := run_leaveBlock (o := o.raised) hfork (firstSlotBlock d.gpo)
  have hlog : (logUpTo skipBlockLog d.forkDb o.raised.gpo.lastIrreversibleBlockNum).run d.blockLog =
      .ok () d.blockLog := rfl
  exact applyInSession_returns henter hlog hleave

/-- **Head times increase until the slots wrap around.** Along every run in which the first slot
after each head starts in 32 bits, each head is later than the one before. And in every state of any
run, that is exactly when every block that is applied there is later than the head. -/
theorem applyRun_headTime :
    (∀ chain s, ApplyRun (fun o => SlotAhead o.gpo) chain s → (headTimes chain).Pairwise (· > ·) ∧
      (headTimes chain).head? = some s.content.gpo.time) ∧
    (∀ chain (d : Database), ApplyRun (fun _ => True) chain d.store →
      ((∀ skip b d', (applyInSession skip b).run d = .ok () d' →
        d.gpo.slotAtTime b.timestamp ≠ 0 → d.gpo.time < d'.gpo.time) ↔ SlotAhead d.gpo)) := by
  refine ⟨fun chain s h => h.increasing, fun chain d h => ⟨fun hall => ?_, ?_⟩⟩
  · have hfork := h.time.1
    obtain ⟨d', hrun⟩ := firstSlotBlock_applies hfork
    have hlater := hall _ _ _ hrun (by
      rw [show (firstSlotBlock d.gpo).timestamp = d.gpo.slotTime 1 from rfl, slotAtTime_slotTime]
      decide)
    obtain ⟨r, o, happly, hstore⟩ := applyInSession_eq_ok hrun
    have htime : d'.gpo.time = d.gpo.slotTime 1 := by
      rw [Database.gpo, hstore, Snapshots.put_content, (gpo_applyBlock hfork happly).1]
      simp [DynamicGlobalProperty.entered, firstSlotBlock]
    rw [htime] at hlater
    exact (slotAhead_iff _).mpr hlater
  · intro hahead skip b d' hrun hslot
    obtain ⟨r, o, happly, hstore⟩ := applyInSession_eq_ok hrun
    have htime : d'.gpo.time = b.timestamp := by
      rw [Database.gpo, hstore, Snapshots.put_content, (gpo_applyBlock h.time.1 happly).1]
      simp [DynamicGlobalProperty.entered]
    rw [htime]
    exact UInt32.lt_of_lt_of_le ((slotAhead_iff _).mp hahead) (slotTime_le_of_slotAtTime hslot)

end Runs

/-- The second block is undone for a later one, and a block behind that one is later than it. -/
theorem applyRun_headTime_undone :
    let _ : Node := smallNode
    ∃ (chain : List SignedBlock) (d : Database), chain.length = 2 ∧
      (headTimes chain).Pairwise (· > ·) ∧ (headTimes chain).head? = some d.gpo.time ∧
      ∀ skip b d', (applyInSession skip b).run d = .ok () d' →
        d.gpo.slotAtTime b.timestamp ≠ 0 → d.gpo.time < d'.gpo.time := by
  intro node
  let x : SignedBlock := blockOn .null (genesisTime + 3) []
  let x' : SignedBlock := blockOn x.id (genesisTime + 6) []
  let y : SignedBlock := blockOn x.id (genesisTime + 9) []
  let apply (b : SignedBlock) (d : Database) : Database :=
    finalState ((applyInSession skipNothing b).run d)
  let d₁ := apply x .genesis
  let d₂ := apply x' d₁
  let undone : Database := { d₂ with store := d₂.store.undo }
  let d := apply y undone
  have hx : Returned ((applyInSession skipNothing x).run .genesis) := by decide +kernel
  have hx' : Returned ((applyInSession skipNothing x').run d₁) := by decide +kernel
  have hy : Returned ((applyInSession skipNothing y).run undone) := by decide +kernel
  obtain ⟨_, hrun₁⟩ := eq_ok_of_returned hx
  obtain ⟨_, hrun₂⟩ := eq_ok_of_returned hx'
  obtain ⟨_, hrun⟩ := eq_ok_of_returned hy
  have hchain : ∀ P : Objects → Prop, P (Database.genesis).store.content → P d₁.store.content →
      P undone.store.content → ApplyRun P [y, x] d.store := by
    intro P hgenesis hfirst hundone
    have hrun₁ : ApplyRun P [x] d₁.store :=
      .apply (d := .genesis) .genesis (by decide +kernel) hgenesis hrun₁
    have hrun₂ : ApplyRun P [x', x] d₂.store :=
      .apply (d := d₁) hrun₁ (by decide +kernel) hfirst hrun₂
    exact .apply (d := undone) (.undo hrun₂ (by decide +kernel)) (by decide +kernel) hundone hrun
  have hahead : SlotAhead d.gpo := by decide +kernel
  obtain ⟨hincreasing, hiff⟩ := applyRun_headTime
  obtain ⟨hsorted, hlast⟩ := hincreasing [y, x] d.store
    (hchain (fun o => SlotAhead o.gpo) (by decide +kernel) (by decide +kernel) (by decide +kernel))
  exact ⟨[y, x], d, rfl, hsorted, hlast,
    (hiff [y, x] d (hchain (fun _ => True) trivial trivial trivial)).mpr hahead⟩

/-- A first block at the last second of 32 bits, and a block at second 2 on top of it: pushed one
after the other they become the head, and their application is a run whose times go back. -/
theorem headTime_falls :
    let b := @blockOn smallNode .null 4294967295 []
    let c := @blockOn smallNode (@SignedBlockHeader.id smallNode.toEnv b.toSignedBlockHeader) 2 []
    let d := finalState ((@pushBlock smallNode skipNothing b).run (@Database.genesis smallNode))
    let d' := finalState ((@pushBlock smallNode skipNothing c).run d)
    (@Database.gpo smallNode d).time = 4294967295 ∧
      (@Database.gpo smallNode d).slotAtTime c.timestamp = 1 ∧
      (@Database.gpo smallNode d').time = 2 ∧
      ¬ ∀ chain s, @ApplyRun smallNode (fun _ => True) chain s →
        (headTimes chain).Pairwise (· > ·) := by
  let _ : Node := smallNode
  intro b c d d'
  refine ⟨by decide +kernel, by decide +kernel, by decide +kernel, fun h => ?_⟩
  have hfirst : Returned ((applyInSession skipNothing b).run .genesis) := by decide +kernel
  have hsecond : Returned ((applyInSession skipNothing c).run
      (finalState ((applyInSession skipNothing b).run .genesis))) := by decide +kernel
  obtain ⟨_, hfirst⟩ := eq_ok_of_returned hfirst
  obtain ⟨_, hsecond⟩ := eq_ok_of_returned hsecond
  have hrun : ApplyRun (fun _ => True) [c, b]
      (finalState ((applyInSession skipNothing c).run
        (finalState ((applyInSession skipNothing b).run .genesis)))).store :=
    .apply (.apply (d := .genesis) .genesis (by decide +kernel) trivial hfirst) (by decide +kernel)
      trivial hsecond
  have hsorted := h _ _ hrun
  revert hsorted
  decide +kernel

end NewsChain
