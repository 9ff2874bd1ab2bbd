import NewsChain.Laws.ChainRun
import NewsChain.Laws.HeadTime

/-!
# Hardforks

A hardfork is applied by the block that makes it due, and stays applied. The two places that apply
them count on from the last one and stop at the first that is not due, so both come to the larger of
the present count and the count that is due (`HardforkState.set`, `HardforkState.process`). The
times are in order, so what is due is a matter of one time, and along a chain of the latest
(`appliedRun_hardforks`).
-/

namespace NewsChain

variable {o o' : Objects} {t t' : TimePointSec} {last : Nat}

/-! ## What is due -/

/-- The times of the hardforks are in order: one is due when its own time has come. -/
theorem le_genesisHardforks {k : Nat} (hpos : 1 ≤ k) :
    k ≤ genesisHardforks t ↔ k ≤ hardforkNum ∧ hardforkTimes k ≤ t := by
  have hrange : List.range hardforkNum = [0, 1] := by decide
  have horder : hardforkTimes 1 ≤ hardforkTimes 2 := by decide
  have hcases : k ≤ hardforkNum → k = 1 ∨ k = 2 := by
    simp only [hardforkNum]
    omega
  rw [genesisHardforks, hrange]
  by_cases hfirst : hardforkTimes 1 ≤ t
  · by_cases hsecond : hardforkTimes 2 ≤ t
    · simp only [List.takeWhile, hfirst, hsecond, decide_true, List.length_cons, List.length_nil]
      refine ⟨fun hle => ⟨hle, ?_⟩, fun h => h.1⟩
      rcases hcases hle with rfl | rfl
      · exact hfirst
      · exact hsecond
    · simp only [List.takeWhile, hfirst, hsecond, decide_true, decide_false, List.length_cons,
        List.length_nil]
      constructor
      · intro hle
        obtain rfl : k = 1 := by omega
        exact ⟨by decide, hfirst⟩
      · rintro ⟨hle, htime⟩
        rcases hcases hle with rfl | rfl
        · exact Nat.le_refl _
        · exact absurd htime hsecond
  · have hsecond : ¬ hardforkTimes 2 ≤ t := fun h => hfirst (UInt32.le_trans horder h)
    simp only [List.takeWhile, hfirst, decide_false, List.length_nil]
    constructor
    · intro hle
      omega
    · rintro ⟨hle, htime⟩
      rcases hcases hle with rfl | rfl
      · exact absurd htime hfirst
      · exact absurd htime hsecond

theorem genesisHardforks_le (t : TimePointSec) : genesisHardforks t ≤ hardforkNum := by
  by_cases hpos : 1 ≤ genesisHardforks t
  · exact ((le_genesisHardforks hpos).mp (Nat.le_refl _)).1
  · omega

/-- Later, no fewer are due. -/
theorem genesisHardforks_mono (h : t ≤ t') : genesisHardforks t ≤ genesisHardforks t' := by
  by_cases hpos : 1 ≤ genesisHardforks t
  · obtain ⟨hle, htime⟩ := (le_genesisHardforks hpos).mp (Nat.le_refl _)
    exact (le_genesisHardforks hpos).mpr ⟨hle, UInt32.le_trans htime h⟩
  · omega

/-! ## Applying them -/

/-- The properties after the first `last` hardforks. -/
structure HardforkState (last : Nat) (hpo : HardforkProperty) : Prop where
  processed : hpo.processedHardfork = (List.range (last + 1)).map hardforkTimes
  lastHardfork : hpo.lastHardfork = last
  version : 0 < last → hpo.currentHardforkVersion = hardforkVersions last

/-- The start of `_apply_block`: the genesis path of a first block. -/
def genesisPath (b : SignedBlock) : ObjM Unit :=
  onlyIf (b.blockNum = 1) do
    setHardfork (genesisHardforks b.timestamp) hardforkNum ((← get).hardfork.lastHardfork + 1)

namespace HardforkState

/-- The next one can be applied. -/
theorem next (h : HardforkState last o.hardfork) :
    ∃ x, (applyHardforkImpl (last + 1)).run o = .ok () { o with hardfork := x } ∧
      HardforkState (last + 1) x := by
  refine ⟨{ o.hardfork with
      processedHardfork := o.hardfork.processedHardfork ++ [hardforkTimes (last + 1)]
      lastHardfork := last + 1
      currentHardforkVersion := hardforkVersions (last + 1) }, ?_, ?_, rfl, fun _ => rfl⟩
  · have hlength : o.hardfork.processedHardfork.length = last + 1 := by
      rw [h.processed, List.length_map, List.length_range]
    simp [applyHardforkImpl, run_fcAssert, h.lastHardfork, ← hlength]
  · rw [h.processed, List.range_succ (n := last + 1), List.map_append]
    rfl

/-- `set_hardfork` goes on to its number. -/
theorem set {n count i : Nat} (h : HardforkState last o.hardfork) (hn : n ≤ hardforkNum)
    (hi : i = last + 1) (hcount : n ≤ last + count) :
    ∃ x, (setHardfork n count i).run o = .ok () { o with hardfork := x } ∧
      HardforkState (max last n) x := by
  induction count generalizing o last i with
  | zero => exact ⟨o.hardfork, rfl, by rwa [Nat.max_eq_left (by omega)]⟩
  | succ count ih =>
    simp only [setHardfork]
    by_cases hmore : i ≤ n ∧ i ≤ hardforkNum
    · rw [if_pos hmore]
      let o₁ : Objects := { o with hardfork :=
        { o.hardfork with
          nextHardforkVersion := hardforkVersions i, nextHardforkTime := o.gpo.time } }
      obtain ⟨x, hrun, hx⟩ := next (o := o₁) ⟨h.processed, h.lastHardfork, h.version⟩
      obtain ⟨y, hrest, hy⟩ := ih (o := { o₁ with hardfork := x }) (i := i + 1) hx (by omega) (by omega)
      rw [← hi] at hrun
      refine ⟨y, bind_eq_ok.mpr ⟨o, o, rfl, bind_eq_ok.mpr ⟨(), o₁, rfl, bind_eq_ok.mpr
        ⟨(), _, hrun, hrest⟩⟩⟩, ?_⟩
      have hmax : max (last + 1) n = max last n := by omega
      exact hmax ▸ hy
    · rw [if_neg hmore]
      exact ⟨o.hardfork, rfl, by rwa [Nat.max_eq_left (by omega)]⟩

/-- `process_hardforks` goes on to what is due. -/
theorem process {rounds : Nat} (h : HardforkState last o.hardfork)
    (hrounds : hardforkNum ≤ last + rounds) :
    ∃ x, (processHardforks rounds).run o = .ok () { o with hardfork := x } ∧
      HardforkState (max last (genesisHardforks o.gpo.time)) x := by
  induction rounds generalizing o last with
  | zero =>
    have hdue := genesisHardforks_le o.gpo.time
    exact ⟨o.hardfork, rfl, by rwa [Nat.max_eq_left (by omega)]⟩
  | succ rounds ih =>
    simp only [processHardforks, EStateM.run_bind, EStateM.run_get, h.lastHardfork]
    have hdue := le_genesisHardforks (t := o.gpo.time) (k := last + 1) (by omega)
    by_cases hnext : last < hardforkNum ∧ hardforkTimes (last + 1) ≤ o.gpo.time
    · rw [if_pos hnext]
      have hle : last + 1 ≤ genesisHardforks o.gpo.time := hdue.mpr ⟨hnext.1, hnext.2⟩
      obtain ⟨x, hrun, hx⟩ := h.next
      obtain ⟨y, hrest, hy⟩ := ih (o := { o with hardfork := x }) hx (by omega)
      refine ⟨y, by rw [EStateM.run_bind, hrun]; exact hrest, ?_⟩
      have hmax : max (last + 1) (genesisHardforks o.gpo.time) =
          max last (genesisHardforks o.gpo.time) := by omega
      exact hmax ▸ hy
    · rw [if_neg hnext]
      have hle : ¬ last + 1 ≤ genesisHardforks o.gpo.time := fun hle => hnext (hdue.mp hle)
      exact ⟨o.hardfork, rfl, by rwa [Nat.max_eq_left (by omega)]⟩

theorem first (h : HardforkState last o.hardfork) (b : SignedBlock) :
    ∃ x, (genesisPath b).run o = .ok () { o with hardfork := x } ∧
      HardforkState (if b.blockNum = 1 then max last (genesisHardforks b.timestamp) else last) x := by
  rw [genesisPath, run_onlyIf]
  by_cases hone : b.blockNum = 1
  · rw [if_pos hone, if_pos hone, EStateM.run_bind, EStateM.run_get]
    have hdue := genesisHardforks_le b.timestamp
    exact h.set hdue (by rw [h.lastHardfork]) (by omega)
  · rw [if_neg hone, if_neg hone]
    exact ⟨o.hardfork, rfl, h⟩

variable [Node] {skip : SkipFlags} {b : SignedBlock}

/-- What can reject a block leaves the hardforks of the genesis path. -/
theorem enterBlock (h : HardforkState last o.hardfork)
    (hrun : (Objects.enterBlock skip b).run o = .ok () o') :
    HardforkState (if b.blockNum = 1 then max last (genesisHardforks b.timestamp) else last)
      o'.hardfork := by
  obtain ⟨x, hfirst, hx⟩ := h.first b
  have hparts : Objects.enterBlock skip b = (genesisPath b >>= fun _ => do
      onlyIf (!skip.has skipMerkleCheck) do
        fcAssert (merkleRoot b.transactions = b.transactionMerkleRoot) "merkle check failed"
      forM b.transactions (applyTransactionImpl skip b.blockNum)
      updateGlobalPropertyObject b) := rfl
  rw [hparts, EStateM.run_bind, hfirst] at hrun
  have hkeeps : Keeps (fun s : Objects => s.hardfork = x) (do
      onlyIf (!skip.has skipMerkleCheck) do
        fcAssert (merkleRoot b.transactions = b.transactionMerkleRoot) "merkle check failed"
      forM b.transactions (applyTransactionImpl skip b.blockNum)
      updateGlobalPropertyObject b : ObjM Unit) :=
    (Keeps.onlyIf fun _ => Keeps.fcAssert).bind fun _ =>
      (applyTransactions_keeps (fun _ _ ho => ho) ⟨fun _ _ ho => ho, fun _ _ ho => ho⟩
        ⟨fun _ _ ho => ho, fun _ _ ho => ho⟩ _ _ _).bind fun _ => Keeps.modify fun _ ho => ho
  have hsame : o'.hardfork = x := hkeeps.of_ok (s := { o with hardfork := x }) rfl hrun
  rw [hsame]
  exact hx

/-- The rest of a block cannot throw, and goes on to what is due at the head's time. -/
theorem leaveBlock (h : HardforkState last o.hardfork) (b : SignedBlock) :
    ∃ o', (Objects.leaveBlock b).run o = .ok () o' ∧
      HardforkState (max last (genesisHardforks o.gpo.time)) o'.hardfork := by
  let o₁ := { o with blockSummary := Function.update o.blockSummary (UInt16.ofNat b.blockNum) b.id }
  obtain ⟨c, hclear, -⟩ := run_clearExpiredTransactions o₁
  have hrounds : hardforkNum ≤ last + hardforkNum := by omega
  obtain ⟨x, hprocess, hx⟩ := process (o := { o₁ with transactions := c }) h hrounds
  have hsummary : (createBlockSummary b).run o = .ok () o₁ := rfl
  refine ⟨{ o₁ with transactions := c, hardfork := x }, ?_, hx⟩
  simp only [Objects.leaveBlock, EStateM.run_bind, hsummary, hclear, hprocess]

/-- **A block** raises the count to what is due at its own time, whichever path applies it. -/
theorem applyBlock (h : HardforkState last o.hardfork)
    (hrun : (Objects.applyBlock skip b).run o = .ok () o') :
    HardforkState (max last (genesisHardforks b.timestamp)) o'.hardfork := by
  obtain ⟨o₁, henter, hleave⟩ := applyBlock_eq_ok.mp hrun
  have htime : o₁.raised.gpo.time = b.timestamp := by
    simp [Objects.raised, gpo_enterBlock henter, DynamicGlobalProperty.entered]
  have hentered := h.enterBlock henter
  obtain ⟨o₂, hleave', hstate⟩ := leaveBlock (o := o₁.raised) hentered b
  rw [hleave] at hleave'
  cases hleave'
  have hmax : max (if b.blockNum = 1 then max last (genesisHardforks b.timestamp) else last)
      (genesisHardforks o₁.raised.gpo.time) = max last (genesisHardforks b.timestamp) := by
    rw [htime]
    split <;> omega
  exact hmax ▸ hstate

omit [Node] in
theorem genesis [Env] : HardforkState 0 NewsChain.genesis.hardfork := by
  let Fresh (o : Objects) : Prop := o.hardfork = Objects.empty.hardfork
  have hrun : Returns (· = .empty) (fun o => HardforkState 0 o.hardfork) initGenesis := by
    refine initGenesis_rule (P := fun accounts authorities o => Founding accounts authorities o ∧ Fresh o)
      ⟨⟨⟨Content.below_empty, nofun⟩, ⟨Content.below_empty, nofun⟩, rfl⟩, rfl⟩ ?_ ?_
      (Returns.modify fun o ho => ?_)
    · rintro accounts authorities v hname o ⟨hfounding, hfresh⟩
      obtain ⟨_, o', hrun, hfounding'⟩ := create_account_returns hname o hfounding
      exact ⟨_, o', hrun, hfounding', (Keeps.create Column.accounts fun _ _ h => h).of_ok
        (I := Fresh) hfresh hrun⟩
    · rintro accounts authorities v hname o ⟨hfounding, hfresh⟩
      obtain ⟨_, o', hrun, hfounding'⟩ := create_authority_returns hname o hfounding
      exact ⟨_, o', hrun, hfounding', (Keeps.create Column.authorities fun _ _ h => h).of_ok
        (I := Fresh) hfresh hrun⟩
    · refine ⟨?_, ?_, fun hpos => absurd hpos (Nat.lt_irrefl 0)⟩
      · rfl
      · show o.hardfork.lastHardfork = 0
        rw [ho.2]
        rfl
  obtain ⟨_, o, hrun, ho⟩ := hrun _ rfl
  rw [NewsChain.genesis, hrun]
  exact ho

end HardforkState

/-! ## Along a chain -/

/-- The latest of some times. -/
def latestOf : List TimePointSec → TimePointSec
  | [] => 0
  | t :: ts => if latestOf ts < t then t else latestOf ts

theorem genesisHardforks_latestOf (t : TimePointSec) (ts : List TimePointSec) :
    genesisHardforks (latestOf (t :: ts)) =
      max (genesisHardforks (latestOf ts)) (genesisHardforks t) := by
  rw [latestOf]
  by_cases hlater : latestOf ts < t
  · have := genesisHardforks_mono (UInt32.le_of_lt hlater)
    rw [if_pos hlater]
    omega
  · have := genesisHardforks_mono (UInt32.not_lt.mp hlater)
    rw [if_neg hlater]
    omega

section Chains

variable [Node]

/-- The hardforks of a chain are applied: the times listed are those of genesis and of the hardforks
that are due at the latest head time, the version is that of the last, and neither of the two places
that apply them throws on another block: not the genesis path, and nothing behind the part of the
block that can reject it. -/
structure HardforksOnTime (chain : List SignedBlock) (o : Objects) : Prop where
  processed : o.hardfork.processedHardfork =
    (List.range (o.hardfork.lastHardfork + 1)).map hardforkTimes
  due : o.hardfork.lastHardfork = genesisHardforks (latestOf (headTimes chain))
  version : 0 < o.hardfork.lastHardfork →
    o.hardfork.currentHardforkVersion = hardforkVersions o.hardfork.lastHardfork
  hasHarfork : ∀ k, o.hasHarfork k ↔ k ≤ o.hardfork.lastHardfork
  first : ∀ b, Returned ((genesisPath b).run o)
  process : ∀ skip b o₁, (Objects.enterBlock skip b).run o = .ok () o₁ →
    Returned ((Objects.leaveBlock b).run o₁.raised)

/-- **Hardforks are applied once, in order and on time**, after any blocks, applied and undone. -/
theorem appliedRun_hardforks (chain : List SignedBlock) (s : Snapshots Objects)
    (h : AppliedRun chain s) : HardforksOnTime chain s.content := by
  have hstate : HardforkState (genesisHardforks (latestOf (headTimes chain))) s.content.hardfork := by
    refine (h.tracks (I := fun chain o =>
      HardforkState (genesisHardforks (latestOf (headTimes chain))) o.hardfork) ?_ ?_).content
    · exact HardforkState.genesis
    · intro chain o o' skip b hstate hrun
      have happlied := hstate.applyBlock hrun
      rwa [← genesisHardforks_latestOf] at happlied
  refine ⟨?_, hstate.lastHardfork, ?_, fun k => ?_, fun b => ?_, fun skip b o henter => ?_⟩
  · rw [hstate.lastHardfork]
    exact hstate.processed
  · rw [hstate.lastHardfork]
    exact hstate.version
  · rw [Objects.hasHarfork, decide_eq_true_iff, hstate.processed, hstate.lastHardfork, List.length_map,
      List.length_range, Nat.lt_succ_iff]
  · obtain ⟨x, hrun, -⟩ := hstate.first b
    exact ⟨(), _, hrun⟩
  · have hentered := hstate.enterBlock henter
    obtain ⟨o', hrun, -⟩ := HardforkState.leaveBlock (o := o.raised) hentered b
    exact ⟨(), o', hrun⟩

end Chains

/-- A second block that is past both hardforks is undone for one that is before them: the hardforks are
applied with the one and not with the other. -/
theorem appliedRun_hardforks_undone :
    let _ : Node := smallNode
    ∃ (x x' y : SignedBlock) (o o' : Objects),
      genesisHardforks (latestOf (headTimes [x', x])) = 2 ∧ HardforksOnTime [x', x] o ∧
      genesisHardforks (latestOf (headTimes [y, x])) = 0 ∧ HardforksOnTime [y, x] o' := by
  intro node
  let x : SignedBlock := blockOn .null (genesisTime + 3) []
  let x' : SignedBlock := blockOn x.id 1533706800 []
  let y : SignedBlock := blockOn x.id (genesisTime + 6) []
  let apply (b : SignedBlock) (d : Database) : Database :=
    finalState ((applyInSession skipNothing b).run d)
  let d₁ := apply x .genesis
  let d₂ := apply x' d₁
  let undone : Database := { d₂ with store := d₂.store.undo }
  have hx : Returned ((applyInSession skipNothing x).run .genesis) := by decide +kernel
  have hx' : Returned ((applyInSession skipNothing x').run d₁) := by decide +kernel
  have hy : Returned ((applyInSession skipNothing y).run undone) := by decide +kernel
  obtain ⟨_, hrun₁⟩ := eq_ok_of_returned hx
  obtain ⟨_, hrun₂⟩ := eq_ok_of_returned hx'
  obtain ⟨_, hrun⟩ := eq_ok_of_returned hy
  have happlied : AppliedRun [x', x] d₂.store :=
    .apply (d := d₁) (.apply (d := .genesis) .genesis hrun₁) hrun₂
  have hagain : AppliedRun [y, x] (apply y undone).store :=
    .apply (d := undone) (.undo happlied (by decide +kernel)) hrun
  exact ⟨x, x', y, _, _, by decide +kernel, appliedRun_hardforks _ _ happlied, by decide +kernel,
    appliedRun_hardforks _ _ hagain⟩

end NewsChain
