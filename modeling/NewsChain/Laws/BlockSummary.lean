import NewsChain.Laws.ChainRun

/-!
# Block summaries and TaPoS

The block summaries are a ring of 65536 ids, addressed by the last 16 bits of a block's number. The
newest 65536 blocks of a chain lie in different places, so each is still in its own (`Ring`); what
else a place may hold is told apart by the number inside the id.
-/

namespace NewsChain

section Chains

variable [Node]

/-! ## Linked chains -/

/-- Each block of a chain, newest first, builds on the one under it. -/
def LinkedChain : List SignedBlock → Prop
  | [] => True
  | b :: rest => b.previous = headIdOf rest ∧ LinkedChain rest

/-- The number inside the head's id counts the blocks, in 32 bits. -/
theorem LinkedChain.numFromId_headIdOf {chain : List SignedBlock} (h : LinkedChain chain) :
    numFromId (headIdOf chain) = chain.length % 2 ^ 32 := by
  induction chain with
  | nil => exact numFromId_null
  | cons b rest ih =>
    obtain ⟨hprev, hrest⟩ := h
    rw [headIdOf, numFromId_id, BlockHeader.blockNum, hprev, ih hrest, List.length_cons,
      Nat.mod_add_mod]

/-- The number of a block, by its depth. -/
theorem LinkedChain.drop {chain : List SignedBlock} (h : LinkedChain chain) (k : Nat) :
    LinkedChain (chain.drop k) := by
  induction k generalizing chain with
  | zero => exact h
  | succ k ih =>
    cases chain with
    | nil => exact h
    | cons b rest => exact ih h.2

theorem LinkedChain.blockNum {chain : List SignedBlock} (h : LinkedChain chain) {k : Nat}
    {b : SignedBlock} (hb : chain[k]? = some b) : b.blockNum = (chain.length - k) % 2 ^ 32 := by
  induction chain generalizing k with
  | nil => simp at hb
  | cons c rest ih =>
    cases k with
    | zero =>
      obtain rfl : c = b := by simpa using hb
      simpa [headIdOf] using h.numFromId_headIdOf
    | succ k =>
      rw [List.getElem?_cons_succ] at hb
      rw [ih h.2 hb, List.length_cons, Nat.add_sub_add_right]

/-! ## The ring -/

/-- The number of places of the ring. -/
def summaryCount : Nat := 0x10000

omit [Node] in
theorem toNat_summaryPlace (n : Nat) : (UInt16.ofNat n).toNat = n % summaryCount := by
  simp [summaryCount]

/-- The newest blocks of a linked chain are in the ring, each in its place. -/
structure Ring (chain : List SignedBlock) (o : Objects) : Prop where
  linked : LinkedChain chain
  holds : ∀ k b, k < summaryCount → chain[k]? = some b →
    o.blockSummary (UInt16.ofNat b.blockNum) = b.id

theorem ring_genesis : Ring [] genesis := ⟨trivial, fun _ _ _ hb => by simp at hb⟩

theorem Ring.applyBlock {chain : List SignedBlock} {o o' : Objects} {skip : SkipFlags}
    {b : SignedBlock} (h : Ring chain o) (hhead : AtHead chain o)
    (hprev : b.previous = o.gpo.headBlockId)
    (hrun : (Objects.applyBlock skip b).run o = .ok () o') : Ring (b :: chain) o' := by
  have hlinked : LinkedChain (b :: chain) := ⟨by rw [hprev, hhead.headBlockId], h.linked⟩
  refine ⟨hlinked, fun k c hk hc => ?_⟩
  rw [blockSummary_applyBlock hhead.hardfork hrun]
  cases k with
  | zero =>
    obtain rfl : b = c := by simpa using hc
    exact Function.update_self ..
  | succ k =>
    rw [List.getElem?_cons_succ] at hc
    -- The places of two blocks less than 65536 apart differ.
    have hplace : UInt16.ofNat c.blockNum ≠ UInt16.ofNat b.blockNum := by
      intro heq
      have hmod := congrArg UInt16.toNat heq
      have hb := hlinked.blockNum (k := 0) rfl
      have hc' := h.linked.blockNum hc
      obtain ⟨hlt, -⟩ := List.getElem?_eq_some_iff.mp hc
      simp only [toNat_summaryPlace, summaryCount, List.length_cons, Nat.sub_zero] at hmod hb hk
      omega
    rw [Function.update_of_ne hplace]
    exact h.holds k c (Nat.lt_of_succ_lt hk) hc

/-- The ring of every state a run can go back to. -/
theorem chainRun_ring {chain : List SignedBlock} {s : Snapshots Objects}
    (h : ChainRun (fun _ _ => True) chain s) : AtHead chain s.content ∧ Ring chain s.content :=
  (h.tracks (I := Ring) ring_genesis
    fun _ _ _ _ _ hhead ho hprev _ hrun => ho.applyBlock hhead hprev hrun).content

namespace Ring

variable {chain : List SignedBlock} {o : Objects}

/-- The block of a number among the newest 65536, at its depth. -/
theorem block_of_num (h : Ring chain o) (hhead : AtHead chain o) {n : Nat} (hpos : 1 ≤ n)
    (hle : n ≤ o.gpo.headBlockNum) :
    ∃ b, chain[o.gpo.headBlockNum - n]? = some b ∧ b.blockNum = n := by
  have hlen : o.gpo.headBlockNum = chain.length % 2 ^ 32 := by
    rw [hhead.headBlockNum, h.linked.numFromId_headIdOf]
  have hlt : o.gpo.headBlockNum - n < chain.length := by omega
  refine ⟨chain[o.gpo.headBlockNum - n], List.getElem?_eq_getElem hlt, ?_⟩
  rw [h.linked.blockNum (List.getElem?_eq_getElem hlt)]
  omega

/-- Where an older number had its place the ring holds a newer block. -/
theorem overwritten (h : Ring chain o) (hhead : AtHead chain o) {n : Nat}
    (hold : n + (summaryCount - 1) < o.gpo.headBlockNum) :
    n < numFromId (o.blockSummary (UInt16.ofNat n)) := by
  obtain ⟨k, hk⟩ : ∃ k, k = (o.gpo.headBlockNum - n) % summaryCount := ⟨_, rfl⟩
  have hplace : UInt16.ofNat n = UInt16.ofNat (o.gpo.headBlockNum - k) := by
    apply UInt16.toNat_inj.mp
    simp only [toNat_summaryPlace, summaryCount] at *
    omega
  simp only [summaryCount] at hold hk
  obtain ⟨b, hb, hnum⟩ := h.block_of_num hhead (n := o.gpo.headBlockNum - k) (by omega)
    (Nat.sub_le _ _)
  have hdepth : o.gpo.headBlockNum - (o.gpo.headBlockNum - k) < summaryCount := by
    simp only [summaryCount]
    omega
  rw [hplace, ← hnum, h.holds _ b hdepth hb, numFromId_id, hnum]
  omega

end Ring

/-! ## TaPoS -/

/-- A reference to a block whose summary is there passes the check: without the check the
transaction is checked no differently. -/
theorem run_checkTransaction_setReferenceBlock {o : Objects} {b : SignedBlock}
    (h : o.blockSummary (UInt16.ofNat b.blockNum) = b.id) (skip : SkipFlags)
    (trx : SignedTransaction) :
    let t : SignedTransaction := { trx with toTransaction := trx.setReferenceBlock b.id }
    (checkTransaction skip t).run o = (checkTransaction (skip ||| skipTaposCheck) t).run o := by
  intro t
  have hnum : (endianReverse32 b.id.hash0).toNat = b.blockNum := numFromId_id b.toSignedBlockHeader
  have hprefix : t.refBlockPrefix = (o.blockSummary t.refBlockNum).hash1 := by
    simp only [t, Transaction.setReferenceBlock, hnum, h]
  have hdupe (flags : SkipFlags) : flags ||| skipTransactionDupeCheck ≠ 0 := fun h =>
    absurd (UInt64.or_eq_zero_iff.mp h).2 (by decide)
  have hvalidate : skipTaposCheck.has skipValidate = false := by decide
  have hauthority : skipTaposCheck.has (skipTransactionSignatures ||| skipAuthorityCheck) = false := by
    decide
  have htapos : skipTaposCheck.has skipTaposCheck = true := by decide
  unfold checkTransaction
  rw [SkipFlags.has_or, SkipFlags.has_or, SkipFlags.has_or, hvalidate, hauthority, htapos]
  simp only [hdupe, EStateM.run_bind, EStateM.run_get, run_fcAssert, run_onlyIf, ne_eq,
    not_false_eq_true, true_or, if_true, Bool.or_true, Bool.or_false, Bool.not_true,
    Bool.false_eq_true, if_false]
  cases hrun : (if (!skip.has skipValidate) = true then t.validate.run o else .ok () o) with
  | error e o' => rfl
  | ok _ o' =>
    have hsame : o' = o := by
      rw [← run_onlyIf] at hrun
      exact (Keeps.onlyIf fun _ => validate_keeps _).of_ok (I := (· = o)) rfl hrun
    simp only [hsame, hprefix, if_true, ite_self]

/-! ## The main chain's blocks by number -/

/-- The ids of the main chain by number, from the ring, and the check of a reference to them. -/
structure SummarizedAt (d : Database) (n : Nat) (b : SignedBlock) : Prop where
  blockNum : b.blockNum = n
  summary : d.store.content.blockSummary (UInt16.ofNat n) = b.id
  tapos : ∀ (skip : SkipFlags) (trx : SignedTransaction),
    let t : SignedTransaction := { trx with toTransaction := trx.setReferenceBlock b.id }
    (checkTransaction skip t).run d.store.content =
      (checkTransaction (skip ||| skipTaposCheck) t).run d.store.content
  found : d.findBlockIdForNum n = b.id

/-- **Block summaries follow the main chain.** In every state of a run of linked blocks and undos
each of the newest 65536 blocks is summarized, and an older block of the log is found by its number,
whatever the ring holds in its place. -/
theorem chainRun_summarized {chain : List SignedBlock} {d : Database}
    (h : ChainRun (fun _ _ => True) chain d.store) :
    (∀ n, max 1 (d.headBlockNum - 65535) ≤ n → n ≤ d.headBlockNum →
      ∃ b, chain[d.headBlockNum - n]? = some b ∧ SummarizedAt d n b) ∧
    (∀ n b, n < d.headBlockNum - 65535 → d.blockLog.readBlockByNum n = some b →
      d.findBlockIdForNum n = b.id ∧ b.blockNum = n) := by
  obtain ⟨hhead, hring⟩ := chainRun_ring h
  constructor
  · intro n hmin hmax
    obtain ⟨b, hb, rfl⟩ := hring.block_of_num hhead (n := n) (by omega) hmax
    have hdepth : d.headBlockNum - b.blockNum < summaryCount := by
      simp only [summaryCount]
      omega
    have hsummary : d.store.content.blockSummary (UInt16.ofNat b.blockNum) = b.id :=
      hring.holds _ b hdepth hb
    refine ⟨b, hb, rfl, hsummary,
      fun skip trx => run_checkTransaction_setReferenceBlock hsummary skip trx, ?_⟩
    have hpos : b.blockNum ≠ 0 := by omega
    simp only [Database.findBlockIdForNum, if_neg hpos, hsummary, numFromId_id, if_true]
  · intro n b hold hb
    have hlarger := hring.overwritten hhead (n := n) (Nat.add_lt_of_lt_sub hold)
    obtain ⟨hpos, hnum⟩ := d.blockLog.blockNum_of_readBlockByNum hb
    refine ⟨?_, hnum⟩
    simp only [Database.findBlockIdForNum, if_neg (Nat.pos_iff_ne_zero.mp hpos),
      if_neg (Nat.ne_of_gt hlarger), hb]

end Chains

/-- The second block is undone, and another takes its place in the ring. -/
theorem chainRun_summarized_undone :
    let _ : Node := smallNode
    ∃ (d : Database) (x y : SignedBlock), d.headBlockNum = 2 ∧ d.headBlockId = y.id ∧
      SummarizedAt d 1 x ∧ SummarizedAt d 2 y := by
  intro node
  let x : SignedBlock := blockOn .null genesisTime []
  let x' : SignedBlock := blockOn x.id (genesisTime + 3) []
  let y : SignedBlock := blockOn x.id (genesisTime + 6) []
  let apply (b : SignedBlock) (d : Database) : Database :=
    finalState ((applyInSession skipNothing b).run d)
  let d₁ := apply x .genesis
  let d₂ := apply x' d₁
  let undone : Database := { d₂ with store := d₂.store.undo }
  let d := apply y undone
  have hx : Returned ((applyInSession skipNothing x).run .genesis) := by decide +kernel
  have hx' : Returned ((applyInSession skipNothing x').run d₁) := by decide +kernel
  have hy : Returned ((applyInSession skipNothing y).run undone) := by decide +kernel
  obtain ⟨_, hrun₁⟩ := eq_ok_of_returned hx
  obtain ⟨_, hrun₂⟩ := eq_ok_of_returned hx'
  obtain ⟨_, hrun⟩ := eq_ok_of_returned hy
  have hfirst : ChainRun (fun _ _ => True) [x] d₁.store :=
    .apply (d := .genesis) .genesis (by decide +kernel) trivial hrun₁
  have hsecond : ChainRun (fun _ _ => True) [x', x] d₂.store :=
    .apply (d := d₁) hfirst (by decide +kernel) trivial hrun₂
  have hundone : ChainRun (fun _ _ => True) [x] undone.store := .undo hsecond (by decide +kernel)
  have hchain : ChainRun (fun _ _ => True) [y, x] d.store :=
    .apply (d := undone) hundone (by decide +kernel) trivial hrun
  have hnum : d.headBlockNum = 2 := by decide +kernel
  have hsummarized := (chainRun_summarized hchain).1
  rw [hnum] at hsummarized
  obtain ⟨b₁, hb₁, hone⟩ := hsummarized 1 (by decide) (by decide)
  obtain ⟨b₂, hb₂, htwo⟩ := hsummarized 2 (by decide) (by decide)
  obtain rfl : x = b₁ := Option.some.inj hb₁
  obtain rfl : y = b₂ := Option.some.inj hb₂
  exact ⟨d, x, y, hnum, by decide +kernel, hone, htwo⟩

end NewsChain
