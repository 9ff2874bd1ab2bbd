import NewsChain.Chain.Producer
import NewsChain.Laws.Pending
import Mathlib.Order.GaloisConnection.Basic

/-!
# Slots

The slots of a head start one block interval apart. As long as their starts fit 32 bits, a slot is
not after the slot of a time exactly where it does not start after it (`le_slotAtTime_iff`); what
else relates the two functions follows from that.

`maybe_produce_block` stamps a block with the start of its slot, which is later than the head. Two
blocks for one slot take a head that has gone back before the first (`productionRun_slots`), and a
fork switch can do that (`switch_reopens_slot`).
-/

namespace NewsChain

namespace DynamicGlobalProperty

variable {gpo : DynamicGlobalProperty} {n : UInt32} {t : TimePointSec}

/-- Where the slots are counted from: the head's time at genesis, later the start of the interval
the head's time is in. -/
def slotBase (gpo : DynamicGlobalProperty) : Nat :=
  if gpo.headBlockNum = 0 then gpo.time.toNat
  else gpo.time.toNat / blockInterval * blockInterval

/-- The slots up to the `n`th start in 32 bits. -/
def SlotsFit (gpo : DynamicGlobalProperty) (n : Nat) : Prop :=
  gpo.slotBase + n * blockInterval < 2 ^ 32

instance (gpo : DynamicGlobalProperty) (n : Nat) : Decidable (gpo.SlotsFit n) :=
  inferInstanceAs (Decidable (_ < _))

theorem SlotsFit.mono {m n : Nat} (h : gpo.SlotsFit n) (hle : m ≤ n) : gpo.SlotsFit m := by
  have := Nat.mul_le_mul_right blockInterval hle
  simp only [SlotsFit] at *
  omega

/-- The base is not after the head's time, and the first slot is. -/
theorem slotBase_le (gpo : DynamicGlobalProperty) :
    gpo.slotBase ≤ gpo.time.toNat ∧ gpo.time.toNat < gpo.slotBase + blockInterval := by
  unfold slotBase
  split <;> simp only [blockInterval] <;> omega

theorem slotTime_toNat (hn : n ≠ 0) (h : gpo.SlotsFit n.toNat) :
    (gpo.slotTime n).toNat = gpo.slotBase + n.toNat * blockInterval := by
  have hthree : (3 : UInt32).toNat = 3 := rfl
  simp only [SlotsFit, blockInterval] at h
  unfold slotTime
  rw [if_neg hn]
  have hmul : (n * 3).toNat = n.toNat * 3 := by
    rw [UInt32.toNat_mul, hthree]
    omega
  by_cases hnum : gpo.headBlockNum = 0
  · rw [slotBase, if_pos hnum] at h ⊢
    rw [if_pos hnum, UInt32.toNat_add, hmul, Nat.mod_eq_of_lt h, blockInterval]
  · rw [slotBase, if_neg hnum] at h ⊢
    have hstart : (gpo.time / 3 * 3).toNat = gpo.time.toNat / blockInterval * blockInterval := by
      rw [UInt32.toNat_mul, UInt32.toNat_div, hthree, blockInterval]
      have := gpo.time.toNat_lt
      omega
    rw [if_neg hnum, UInt32.toNat_add, hmul, hstart, Nat.mod_eq_of_lt h]
    rfl

theorem slotAtTime_toNat_of_fit (h : gpo.SlotsFit 1) (t : TimePointSec) :
    (gpo.slotAtTime t).toNat = (t.toNat - gpo.slotBase) / blockInterval := by
  have hfirst : (gpo.slotTime 1).toNat = gpo.slotBase + (1 : UInt32).toNat * blockInterval :=
    slotTime_toNat (by decide) h
  have hone : (1 : UInt32).toNat = 1 := rfl
  have hthree : (3 : UInt32).toNat = 3 := rfl
  have ht := t.toNat_lt
  simp only [hone, blockInterval, Nat.one_mul] at hfirst ⊢
  unfold slotAtTime
  by_cases hlt : t < gpo.slotTime 1
  · rw [if_pos hlt, UInt32.toNat_zero]
    rw [UInt32.lt_iff_toNat_lt, hfirst] at hlt
    omega
  · rw [if_neg hlt]
    rw [UInt32.lt_iff_toNat_lt, hfirst] at hlt
    have hsub : (t - gpo.slotTime 1).toNat = t.toNat - (gpo.slotBase + 3) := by
      rw [UInt32.toNat_sub_of_le _ _ (UInt32.le_iff_toNat_le.mpr (by omega)), hfirst]
    rw [UInt32.toNat_add, UInt32.toNat_div, hsub, hone, hthree]
    omega

/-- **The Galois connection**: a slot is at or before the slot of a time where it has started. -/
theorem le_slotAtTime_iff (hn : n ≠ 0) (h : gpo.SlotsFit n.toNat) :
    n ≤ gpo.slotAtTime t ↔ gpo.slotTime n ≤ t := by
  have hpos : 1 ≤ n.toNat := Nat.one_le_iff_ne_zero.mpr fun hzero =>
    hn (UInt32.toNat_inj.mp (hzero.trans UInt32.toNat_zero.symm))
  have hslots : n.toNat ≤ (t.toNat - gpo.slotBase) / blockInterval ↔
      n.toNat * blockInterval ≤ t.toNat - gpo.slotBase :=
    ((Nat.galoisConnection_mul_div (k := blockInterval) (by decide)) _ _).symm
  rw [UInt32.le_iff_toNat_le, UInt32.le_iff_toNat_le, slotTime_toNat hn h,
    slotAtTime_toNat_of_fit (h.mono hpos), hslots]
  have : blockInterval ≤ n.toNat * blockInterval := Nat.le_mul_of_pos_left _ hpos
  have : 0 < blockInterval := by decide
  omega

theorem slotTime_lt_slotTime {m : UInt32} (hlt : m < n) (h : gpo.SlotsFit n.toNat) :
    gpo.slotTime m < gpo.slotTime n := by
  rw [UInt32.lt_iff_toNat_lt] at hlt ⊢
  have hn : n ≠ 0 := by
    rintro rfl
    exact absurd hlt (Nat.not_lt_zero _)
  have hmul := Nat.mul_lt_mul_of_pos_right hlt (show 0 < blockInterval by decide)
  rw [slotTime_toNat hn h]
  by_cases hm : m = 0
  · subst hm
    have hzero : (gpo.slotTime 0).toNat = 0 := rfl
    omega
  · rw [slotTime_toNat hm (h.mono (Nat.le_of_lt hlt))]
    omega

theorem time_lt_slotTime_one (h : gpo.SlotsFit 1) : gpo.time < gpo.slotTime 1 := by
  have hbase := gpo.slotBase_le
  rw [UInt32.lt_iff_toNat_lt, slotTime_toNat (by decide) h]
  show _ < gpo.slotBase + 1 * blockInterval
  omega

theorem slotAtTime_eq_zero_iff (gpo : DynamicGlobalProperty) (t : TimePointSec) :
    gpo.slotAtTime t = 0 ↔ t < gpo.slotTime 1 := by
  have hone : (1 : UInt32).toNat = 1 := rfl
  have hthree : (3 : UInt32).toNat = 3 := rfl
  by_cases hlt : t < gpo.slotTime 1
  · simp [slotAtTime, hlt]
  · rw [slotAtTime, if_neg hlt]
    refine iff_of_false (fun hzero => ?_) hlt
    have hnat := congrArg UInt32.toNat hzero
    have hbound := (t - gpo.slotTime 1).toNat_lt
    rw [UInt32.toNat_add, UInt32.toNat_div, hone, hthree, UInt32.toNat_zero] at hnat
    omega

/-- The slot of the start of a slot is that slot. -/
theorem slotAtTime_slotTime (hn : n ≠ 0) (h : gpo.SlotsFit (n.toNat + 1)) :
    gpo.slotAtTime (gpo.slotTime n) = n := by
  have hpos : 1 ≤ n.toNat := Nat.one_le_iff_ne_zero.mpr fun hzero =>
    hn (UInt32.toNat_inj.mp (hzero.trans UInt32.toNat_zero.symm))
  apply UInt32.toNat_inj.mp
  rw [slotAtTime_toNat_of_fit (h.mono (by omega)), slotTime_toNat hn (h.mono (by omega)),
    Nat.add_sub_cancel_left]
  exact Nat.mul_div_cancel _ (by decide)

/-- A time is in its slot. -/
theorem mem_slotAtTime (hn : gpo.slotAtTime t ≠ 0)
    (h : gpo.SlotsFit ((gpo.slotAtTime t).toNat + 1)) :
    gpo.slotTime (gpo.slotAtTime t) ≤ t ∧ t < gpo.slotTime (gpo.slotAtTime t + 1) := by
  refine ⟨(le_slotAtTime_iff hn (h.mono (by omega))).mp (UInt32.le_refl _), ?_⟩
  have hone : (1 : UInt32).toNat = 1 := rfl
  have hfits := h
  simp only [SlotsFit, blockInterval] at hfits
  have hsucc : (gpo.slotAtTime t + 1).toNat = (gpo.slotAtTime t).toNat + 1 := by
    rw [UInt32.toNat_add, hone]
    omega
  have hne : gpo.slotAtTime t + 1 ≠ 0 := fun hzero => by
    rw [hzero, UInt32.toNat_zero] at hsucc
    omega
  -- Otherwise the next slot would have started as well.
  rw [← UInt32.not_le, ← le_slotAtTime_iff hne (hsucc ▸ h), UInt32.le_iff_toNat_le, hsucc]
  omega

end DynamicGlobalProperty

/-! ## Producing -/

section Producing

variable [Node] {p : ProducerPlugin}

theorem run_onDb {α : Type} (m : DbM α) (p : ProducerPlugin) :
    (onDb m).run p =
      match m.run p.db with
      | .ok a d => .ok a { p with db := d }
      | .error e d => .error e { p with db := d } := rfl

/-- A block that is returned has the time it was asked for. -/
theorem generateBlock_cases (now : TimePointSec) (producer : AccountName) (key : PrivateKey)
    (d : Database) :
    (∃ b d', (generateBlock skipNothing now producer key).run d = .ok b d' ∧ b.timestamp = now) ∨
      ∃ e d', (generateBlock skipNothing now producer key).run d = .error e d' := by
  rw [run_generateBlock]
  dsimp only
  split
  · exact .inl ⟨_, _, rfl, rfl⟩
  · exact .inr ⟨_, _, rfl⟩

/-- A block is stamped with the start of a slot of this head. -/
structure OnSlot (gpo : DynamicGlobalProperty) (b : SignedBlock) : Prop where
  slot : gpo.slotAtTime b.timestamp ≠ 0
  start : b.timestamp = gpo.slotTime (gpo.slotAtTime b.timestamp)

omit [Node] in
/-- A block on a slot is later than the head. -/
theorem OnSlot.later {gpo : DynamicGlobalProperty} {b : SignedBlock} (h : OnSlot gpo b)
    (hfits : gpo.SlotsFit 1) : gpo.time < b.timestamp := by
  have hstarted : gpo.slotTime 1 ≤ b.timestamp :=
    UInt32.not_lt.mp fun hlt => h.slot ((gpo.slotAtTime_eq_zero_iff _).mpr hlt)
  exact UInt32.lt_of_lt_of_le (DynamicGlobalProperty.time_lt_slotTime_one hfits) hstarted

omit [Node] in
/-- Times are whole seconds, so what is at most 500 microseconds apart is the same time. -/
theorem eq_of_microsecondsApart {s t : TimePointSec} (h : ¬ 500 < microsecondsApart s t) :
    s = t := by
  unfold microsecondsApart at h
  apply UInt32.toNat_inj.mp
  omega

/-- What the plugin has handed to its peers after a call. -/
def ProducerPlugin.broadcastAfter (p : ProducerPlugin) (nowFine : Int) : List SignedBlock :=
  (finalState ((maybeProduceBlock nowFine).run p)).broadcast

theorem broadcast_produceInSlot (now : TimePointSec) {slot : UInt32} {bs : List SignedBlock}
    (hbs : (finalState ((produceInSlot now slot).run p)).broadcast = bs) :
    bs = p.broadcast ∨ ∃ b, bs = b :: p.broadcast ∧ b.timestamp = now ∧
      b.timestamp = p.db.gpo.slotTime slot := by
  subst hbs
  simp only [produceInSlot, EStateM.run_bind, EStateM.run_get]
  by_cases hproducer : p.db.gpo.scheduledProducer slot ∈ p.producers
  · rw [if_neg (not_not.mpr hproducer)]
    cases p.privateKeys with
    | nil => exact .inl rfl
    | cons key keys =>
      dsimp only
      by_cases hlag : 500 < microsecondsApart (p.db.gpo.slotTime slot) now
      · rw [if_pos hlag]
        exact .inl rfl
      · rw [if_neg hlag]
        have htime := eq_of_microsecondsApart hlag
        simp only [EStateM.run_bind, EStateM.run_modify]
        rcases generateBlock_cases now (p.db.gpo.scheduledProducer slot) key.2 p.db with
          ⟨b, d, hrun, hb⟩ | ⟨e, d, hrun⟩
        · refine .inr ⟨b, ?_, hb, hb.trans htime.symm⟩
          rw [run_onDb, hrun]
          rfl
        · left
          rw [run_onDb, hrun]
          rfl
  · rw [if_pos hproducer]
    exact .inl rfl

/-- One call hands out at most one block, on the slot the clock is in. -/
theorem broadcast_maybeProduceBlock (nowFine : Int) (p : ProducerPlugin) :
    p.broadcastAfter nowFine = p.broadcast ∨
      ∃ b, p.broadcastAfter nowFine = b :: p.broadcast ∧ b.timestamp = roundedNow nowFine ∧
        OnSlot p.db.gpo b := by
  unfold ProducerPlugin.broadcastAfter
  simp only [maybeProduceBlock, EStateM.run_bind, EStateM.run_get]
  split
  · exact .inl rfl
  · by_cases hslot : p.db.gpo.slotAtTime (roundedNow nowFine) = 0
    · simp only [EStateM.run_bind, EStateM.run_modify, if_pos hslot]
      exact .inl rfl
    · simp only [EStateM.run_bind, EStateM.run_modify, if_neg hslot]
      rcases broadcast_produceInSlot (p := { p with productionEnabled := true })
        (roundedNow nowFine) rfl with hnone | ⟨b, hb, hnow, hstart⟩
      · exact .inl hnone
      · exact .inr ⟨b, hb, hnow, hnow ▸ hslot, hstart.trans (by rw [hnow])⟩

/-- The plugin through a run: it starts with nothing handed out, reads the clock again and again,
and what else the node does to its database happens in between. `P` is what holds when a call is
made. -/
inductive ProductionRun (P : ProducerPlugin → Prop) : ProducerPlugin → Prop
  | start {p : ProducerPlugin} : p.broadcast = [] → ProductionRun P p
  | maybeProduceBlock {p : ProducerPlugin} (nowFine : Int) : ProductionRun P p → P p →
      ProductionRun P (finalState ((maybeProduceBlock nowFine).run p))
  | database {p : ProducerPlugin} {α : Type} (m : DbM α) : ProductionRun P p →
      ProductionRun P { p with db := finalState (m.run p.db) }

/-- The first slot of the head starts in 32 bits, and the head is not before a block that has been
handed out. -/
structure NotBehind (p : ProducerPlugin) : Prop where
  fits : p.db.gpo.SlotsFit 1
  reached : ∀ b ∈ p.broadcast, b.timestamp ≤ p.db.gpo.time

theorem ProductionRun.increasing (h : ProductionRun NotBehind p) :
    p.broadcast.Pairwise fun later earlier => earlier.timestamp < later.timestamp := by
  induction h with
  | start hnone => rw [hnone]; exact .nil
  | @maybeProduceBlock p nowFine _ hp ih =>
    change (p.broadcastAfter nowFine).Pairwise _
    rcases broadcast_maybeProduceBlock nowFine p with hnone | ⟨b, hb, -, hslot⟩
    · rwa [hnone]
    · rw [hb]
      exact List.pairwise_cons.mpr ⟨fun c hc =>
        UInt32.lt_of_le_of_lt (hp.reached c hc) (hslot.later hp.fits), ih⟩
  | database _ _ ih => exact ih

/-- **Slots.** While the starts of the slots fit 32 bits, `get_slot_time` and `get_slot_at_time` are
a Galois connection between slots and times, with the head before its first slot. A call hands out
at most one block, on a slot of the head; and as long as the head is never before a block that was
handed out, no two blocks of a run are for one slot. -/
theorem productionRun_slots :
    (∀ (gpo : DynamicGlobalProperty) (n : UInt32), n ≠ 0 → gpo.SlotsFit (n.toNat + 1) →
      gpo.slotAtTime (gpo.slotTime n) = n ∧ gpo.time < gpo.slotTime 1 ∧
        (∀ m, m < n → gpo.slotTime m < gpo.slotTime n) ∧
        ∀ t, n ≤ gpo.slotAtTime t ↔ gpo.slotTime n ≤ t) ∧
    (∀ (gpo : DynamicGlobalProperty) (t : TimePointSec),
      (gpo.slotAtTime t = 0 ↔ t < gpo.slotTime 1) ∧
        (gpo.slotAtTime t ≠ 0 → gpo.SlotsFit ((gpo.slotAtTime t).toNat + 1) →
          gpo.slotTime (gpo.slotAtTime t) ≤ t ∧ t < gpo.slotTime (gpo.slotAtTime t + 1))) ∧
    (∀ (p : ProducerPlugin) (nowFine : Int), p.broadcastAfter nowFine = p.broadcast ∨
      ∃ b, p.broadcastAfter nowFine = b :: p.broadcast ∧ b.timestamp = roundedNow nowFine ∧
        OnSlot p.db.gpo b) ∧
    (∀ p : ProducerPlugin, ProductionRun NotBehind p →
      p.broadcast.Pairwise fun later earlier => earlier.timestamp < later.timestamp) := by
  refine ⟨fun gpo n hn hfits => ?_, fun gpo t => ⟨gpo.slotAtTime_eq_zero_iff t, ?_⟩,
    fun p nowFine => broadcast_maybeProduceBlock nowFine p, fun p h => h.increasing⟩
  · have hn' : gpo.SlotsFit n.toNat := hfits.mono (by omega)
    have hone : gpo.SlotsFit 1 := hfits.mono (by omega)
    exact ⟨gpo.slotAtTime_slotTime hn hfits, gpo.time_lt_slotTime_one hone,
      fun m hm => gpo.slotTime_lt_slotTime hm hn', fun t => gpo.le_slotAtTime_iff hn hn'⟩
  · intro hslot hfits
    exact gpo.mem_slotAtTime hslot hfits

end Producing

/-- The block of the third slot is handed out before those of the first two arrive, on another fork.
The head is then in the second slot, and a second call in the same second hands out another block
for the third. -/
theorem switch_reopens_slot :
    ¬ ∀ p : @ProducerPlugin smallNode,
      @ProductionRun smallNode (fun p =>
          (@Database.gpo smallNode (@ProducerPlugin.db smallNode p)).SlotsFit 2) p →
        (@ProducerPlugin.broadcast smallNode p).Pairwise fun later earlier =>
          later.timestamp ≠ earlier.timestamp := by
  let _ : Node := smallNode
  intro h
  let y : SignedBlock := blockOn .null (genesisTime + 3) []
  let z : SignedBlock := blockOn y.id (genesisTime + 6) []
  let p : ProducerPlugin :=
    { productionEnabled := true, privateKeys := [(1, 1)], producers := [1, 2], db := .genesis }
  let p₁ := finalState ((maybeProduceBlock (1533633609 * 1000000 - 400000)).run p)
  let p₂ : ProducerPlugin := { p₁ with db := finalState ((pushBlock skipNothing y).run p₁.db) }
  let p₃ : ProducerPlugin := { p₂ with db := finalState ((pushBlock skipNothing z).run p₂.db) }
  have hfits : p.db.gpo.SlotsFit 2 := by decide +kernel
  have hfits' : p₃.db.gpo.SlotsFit 2 := by decide +kernel
  have hrun : ProductionRun (fun p => p.db.gpo.SlotsFit 2)
      (finalState ((maybeProduceBlock (1533633609 * 1000000 + 400000)).run p₃)) :=
    .maybeProduceBlock _ (.database _ (.database _ (.maybeProduceBlock _ (.start rfl) hfits))) hfits'
  have hdistinct := h _ hrun
  revert hdistinct
  decide +kernel

end NewsChain
