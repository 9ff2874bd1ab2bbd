import NewsChain.Laws.ChainRun
import NewsChain.Laws.Slots

/-!
# The producer schedule

A slot is a block interval, counted from genesis. `current_aslot` is a sum of differences, each
between a block's time and the slot of the head before it; genesis lies at the start of an interval,
so the differences add up to the slot of the head (`OnSchedule`). The slot a time is in then depends
on the time alone, and with it the producer (`chainRun_scheduledProducer`).
-/

namespace NewsChain

/-- The block interval a time lies in. -/
def intervalOf (t : TimePointSec) : Nat := t.toNat / blockInterval

theorem intervalOf_lt (t : TimePointSec) : intervalOf t < 2 ^ 31 := by
  have := t.toNat_lt
  simp only [intervalOf, blockInterval]
  omega

/-- No slot of a head at this time wraps around: the interval after it ends in 32 bits. -/
def Unwrapped (t : TimePointSec) : Prop := t.toNat + blockInterval < 2 ^ 32

instance (t : TimePointSec) : Decidable (Unwrapped t) := inferInstanceAs (Decidable (_ < _))

section Slots

variable {gpo : DynamicGlobalProperty}

theorem slotsFit_one (hwrap : Unwrapped gpo.time) : gpo.SlotsFit 1 := by
  have hbase := gpo.slotBase_le.1
  simp only [Unwrapped, DynamicGlobalProperty.SlotsFit, Nat.one_mul] at *
  omega

/-- The slots are counted from the head's interval. A head of number 0 counts from its own time,
which must lie at the start of an interval. -/
theorem slotBase_eq (haligned : gpo.headBlockNum = 0 → gpo.time.toNat % blockInterval = 0) :
    gpo.slotBase = intervalOf gpo.time * blockInterval := by
  unfold DynamicGlobalProperty.slotBase intervalOf
  by_cases hnum : gpo.headBlockNum = 0
  · rw [if_pos hnum]
    exact (Nat.div_mul_cancel (Nat.dvd_of_mod_eq_zero (haligned hnum))).symm
  · rw [if_neg hnum]

/-- The first slot after the head is the interval after the head's. -/
theorem slotTime_one_toNat (haligned : gpo.headBlockNum = 0 → gpo.time.toNat % blockInterval = 0)
    (hwrap : Unwrapped gpo.time) :
    (gpo.slotTime 1).toNat = (intervalOf gpo.time + 1) * blockInterval := by
  have hone : (1 : UInt32).toNat = 1 := rfl
  rw [DynamicGlobalProperty.slotTime_toNat (by decide) (slotsFit_one hwrap), hone,
    slotBase_eq haligned, Nat.add_mul]

/-- The slot of a time is the number of intervals since the head's. -/
theorem slotAtTime_toNat (haligned : gpo.headBlockNum = 0 → gpo.time.toNat % blockInterval = 0)
    (hwrap : Unwrapped gpo.time) (t : TimePointSec) :
    (gpo.slotAtTime t).toNat = intervalOf t - intervalOf gpo.time := by
  rw [DynamicGlobalProperty.slotAtTime_toNat_of_fit (slotsFit_one hwrap), slotBase_eq haligned,
    Nat.mul_comm]
  exact Nat.sub_mul_div _ _ _

end Slots

section Chains

variable [Node]

/-- `current_aslot` is the slot of the head, and the chain is no longer than that. -/
structure OnSchedule (o : Objects) : Prop where
  unwrapped : Unwrapped o.gpo.time
  started : intervalOf genesisTime ≤ intervalOf o.gpo.time
  aligned : o.gpo.headBlockNum = 0 → o.gpo.time.toNat % blockInterval = 0
  aslot : o.gpo.currentAslot.toNat = intervalOf o.gpo.time - intervalOf genesisTime
  height : o.gpo.headBlockNum ≤ o.gpo.currentAslot.toNat

theorem onSchedule_genesis : OnSchedule genesis := by
  constructor <;> rw [blank_genesis.1] <;> decide

omit [Node] in
/-- The slot of a time after genesis is that time's alone. -/
theorem OnSchedule.slotAtTime {o : Objects} (h : OnSchedule o) (t : TimePointSec) :
    o.gpo.currentAslot.toNat + (o.gpo.slotAtTime t).toNat =
      max (intervalOf t) (intervalOf o.gpo.time) - intervalOf genesisTime := by
  have hslot := slotAtTime_toNat h.aligned h.unwrapped t
  have hstarted := h.started
  have haslot := h.aslot
  omega

omit [Node] in
/-- The number `get_scheduled_producer` counts with, for a time after the head's slot. -/
theorem OnSchedule.slotNumber {o : Objects} (h : OnSchedule o) {t : TimePointSec}
    (ht : o.gpo.slotTime 1 ≤ t) :
    o.gpo.currentAslot + o.gpo.slotAtTime t =
      UInt32.ofNat (intervalOf t - intervalOf genesisTime) := by
  have hlater : intervalOf o.gpo.time < intervalOf t := by
    rw [UInt32.le_iff_toNat_le, slotTime_one_toNat h.aligned h.unwrapped] at ht
    simp only [intervalOf, blockInterval] at ht ⊢
    omega
  apply UInt32.toNat_inj.mp
  rw [UInt32.toNat_add, h.slotAtTime, Nat.max_eq_left (Nat.le_of_lt hlater), UInt32.toNat_ofNat']

/-- What the schedule asks of a block: `miss_blocks` is not 0, and its time is not the last. -/
def Timely (o : Objects) (b : SignedBlock) : Prop :=
  o.gpo.slotAtTime b.timestamp ≠ 0 ∧ Unwrapped b.timestamp

instance (o : Objects) (b : SignedBlock) : Decidable (Timely o b) :=
  inferInstanceAs (Decidable (_ ∧ _))

theorem OnSchedule.applyBlock {chain : List SignedBlock} {o o' : Objects} {skip : SkipFlags}
    {b : SignedBlock} (h : OnSchedule o) (hhead : AtHead chain o)
    (hprev : b.previous = o.gpo.headBlockId) (hb : Timely o b)
    (hrun : (Objects.applyBlock skip b).run o = .ok () o') : OnSchedule o' := by
  obtain ⟨hmiss, hunwrapped⟩ := hb
  have hgpo := (gpo_applyBlock hhead.hardfork hrun).1
  have hslot := slotAtTime_toNat h.aligned h.unwrapped b.timestamp
  have htotal := h.slotAtTime b.timestamp
  have hpos : (o.gpo.slotAtTime b.timestamp).toNat ≠ 0 := fun hzero =>
    hmiss (UInt32.toNat_inj.mp (by rw [hzero]; rfl))
  have hstarted := h.started
  have hheight := h.height
  have hnum : b.blockNum = o.gpo.headBlockNum + 1 := by
    rw [BlockHeader.blockNum, hprev, hhead.headBlockId, ← hhead.headBlockNum, Nat.mod_eq_of_lt]
    have := intervalOf_lt o.gpo.time
    have := h.aslot
    omega
  have hlater : intervalOf o.gpo.time < intervalOf b.timestamp := by omega
  have haslot : o'.gpo.currentAslot.toNat =
      intervalOf b.timestamp - intervalOf genesisTime := by
    rw [hgpo, DynamicGlobalProperty.raised_currentAslot, DynamicGlobalProperty.entered,
      UInt32.toNat_add, htotal, Nat.max_eq_left (Nat.le_of_lt hlater), Nat.mod_eq_of_lt]
    have := intervalOf_lt b.timestamp
    omega
  have htime : o'.gpo.time = b.timestamp := by simp [hgpo, DynamicGlobalProperty.entered]
  have hnum' : o'.gpo.headBlockNum = b.blockNum := by
    simp [hgpo, DynamicGlobalProperty.entered]
  refine ⟨htime ▸ hunwrapped, ?_, ?_, htime ▸ haslot, ?_⟩
  · rw [htime]
    omega
  · omega
  · rw [hnum', haslot]
    omega

/-- Every state of a run is on schedule. -/
theorem chainRun_onSchedule {chain : List SignedBlock} {s : Snapshots Objects}
    (h : ChainRun Timely chain s) : OnSchedule s.content :=
  (h.tracks (I := fun _ o => OnSchedule o) onSchedule_genesis
    fun _ _ _ _ _ hhead ho hprev hb hrun => ho.applyBlock hhead hprev hb hrun).content.2

/-- From where both heads' slots have passed, every time has the same producer in both states. -/
def SameSchedule (o₁ o₂ : Objects) : Prop :=
  ∀ t : TimePointSec, o₁.gpo.slotTime 1 ≤ t → o₂.gpo.slotTime 1 ≤ t →
    o₁.gpo.scheduledProducer (o₁.gpo.slotAtTime t) = o₂.gpo.scheduledProducer (o₂.gpo.slotAtTime t)

/-- **The schedule does not depend on the fork.** On any two chains along which no block shares a
slot with its parent, the schedules are the same; and `current_aslot` counts the intervals from
genesis to the head's. -/
theorem chainRun_sameSchedule {chain₁ chain₂ : List SignedBlock} {s₁ s₂ : Snapshots Objects}
    (h₁ : ChainRun Timely chain₁ s₁) (h₂ : ChainRun Timely chain₂ s₂) :
    SameSchedule s₁.content s₂.content ∧
      s₁.content.gpo.currentAslot.toNat =
        intervalOf s₁.content.gpo.time - intervalOf genesisTime := by
  have ho₁ := chainRun_onSchedule h₁
  have ho₂ := chainRun_onSchedule h₂
  refine ⟨fun t ht₁ ht₂ => ?_, ho₁.aslot⟩
  simp only [DynamicGlobalProperty.scheduledProducer, ho₁.slotNumber ht₁, ho₂.slotNumber ht₂]

end Chains

/-- A block in the first slot and one in the second leave the same schedule. -/
theorem chainRun_sameSchedule_firstSlots :
    SameSchedule
      (@Database.store smallNode (finalState ((@applyInSession smallNode skipNothing
        (@blockOn smallNode .null (genesisTime + 4) [])).run (@Database.genesis smallNode)))).content
      (@Database.store smallNode (finalState ((@applyInSession smallNode skipNothing
        (@blockOn smallNode .null (genesisTime + 7) [])).run
          (@Database.genesis smallNode)))).content := by
  have hrun (t : TimePointSec) (ht : t = genesisTime + 4 ∨ t = genesisTime + 7) :
      @ChainRun smallNode (@Timely) [@blockOn smallNode .null t []]
        (@Database.store smallNode (finalState ((@applyInSession smallNode skipNothing
          (@blockOn smallNode .null t [])).run (@Database.genesis smallNode)))) := by
    let _ : Node := smallNode
    have hreturned : Returned ((applyInSession skipNothing (blockOn .null t [])).run .genesis) := by
      rcases ht with rfl | rfl <;> decide +kernel
    obtain ⟨_, hrun⟩ := eq_ok_of_returned hreturned
    refine .apply (d := .genesis) .genesis ?_ ?_ hrun <;> rcases ht with rfl | rfl <;>
      decide +kernel
  exact (@chainRun_sameSchedule smallNode _ _ _ _ (hrun _ (.inl rfl)) (hrun _ (.inr rfl))).1

end NewsChain
