import NewsChain.Laws.ForkChoice

/-!
# Runs in which no push throws

In such a run every settled database has a main chain (`ReturnedRun.kept`). Two results follow.
`returnedRun_forkChoice` says which chain it is: the line of the first block that reached the
greatest height. `returnedRun_final` says what of it is final: the log holds the blocks at least 21
deep, the undo stack the states above them, and a restart goes back to the last block of the log.
-/

namespace NewsChain

open EStateM (Result)

section Chains

variable [Node]

/-! ## Pending transactions do not move the head -/

theorem Pending.settled_gpo {d : Database} (h : Pending d) : d.settled.gpo = d.gpo := by
  have hkeeps := applyTransactions_keeps (I := fun o => o.gpo = d.settled.gpo) (fun _ _ h => h)
    ⟨fun _ _ h => h, fun _ _ h => h⟩ ⟨fun _ _ h => h, fun _ _ h => h⟩ skipNothing
    d.currentBlockNum d.pendingTrx
  exact (hkeeps.of_ok rfl h.applied).symm

theorem Pending.settled_blockSummary {d : Database} (h : Pending d) :
    d.settled.store.content.blockSummary = d.store.content.blockSummary := by
  have hkeeps := applyTransactions_keeps
    (I := fun o => o.blockSummary = d.settled.store.content.blockSummary) (fun _ _ h => h)
    ⟨fun _ _ h => h, fun _ _ h => h⟩ ⟨fun _ _ h => h, fun _ _ h => h⟩ skipNothing
    d.currentBlockNum d.pendingTrx
  exact (hkeeps.of_ok rfl h.applied).symm

/-! ## Runs -/

/-- The databases reached from genesis by pushing blocks, oldest first, where every call returned
and `P` is asked of each block and the settled database before it. -/
inductive ReturnedRun (P : Database → SignedBlock → Prop) : List SignedBlock → Database → Prop
  | genesis : ReturnedRun P [] .genesis
  | push {pushed : List SignedBlock} {d d' : Database} {answer : Bool} (b : SignedBlock) :
      ReturnedRun P pushed d → P d.settled b →
        (pushBlock skipNothing b).run d = .ok answer d' → ReturnedRun P (pushed ++ [b]) d'

variable {P : Database → SignedBlock → Prop} {pushed chain : List SignedBlock}
  {d d' : Database} {b : SignedBlock} {answer : Bool}

theorem ReturnedRun.push_of_returned (h : ReturnedRun P pushed d) (hb : P d.settled b)
    (hreturned : Returned ((NewsChain.pushBlock skipNothing b).run d)) :
    ReturnedRun P (pushed ++ [b]) (finalState ((NewsChain.pushBlock skipNothing b).run d)) := by
  obtain ⟨_, hrun⟩ := eq_ok_of_returned hreturned
  exact .push b h hb hrun

/-- The blocks are pushed one after the other. -/
def pushBlocks (blocks : List SignedBlock) : DbM Unit :=
  forM blocks fun b => do
    let _ ← pushBlock skipNothing b

/-- Pushes that all return extend a run. -/
theorem ReturnedRun.pushBlocks (h : ReturnedRun (fun _ _ => True) pushed d)
    (blocks : List SignedBlock) (hrun : Returned ((pushBlocks blocks).run d)) :
    ReturnedRun (fun _ _ => True) (pushed ++ blocks)
      (finalState ((NewsChain.pushBlocks blocks).run d)) := by
  induction blocks generalizing pushed d with
  | nil =>
    rw [List.append_nil]
    exact h
  | cons b blocks ih =>
    rw [NewsChain.pushBlocks, List.forM_cons] at hrun ⊢
    obtain ⟨_, d₁, hfirst, hrest⟩ := returned_bind.mp hrun
    obtain ⟨_, d₂, hpush, hend⟩ := bind_eq_ok.mp hfirst
    cases hend
    rw [List.append_cons, EStateM.run_bind, hfirst]
    exact ih (.push b h trivial hpush) hrest

/-- A push does on the settled database what `_push_block` does there. -/
theorem mapState_settled_pushBlock (b : SignedBlock) (d : Database) :
    mapState Database.settled ((pushBlock skipNothing b).run d) =
      (releaseItems (pushBlockImpl skipNothing b)).run d.settled := by
  have hsettled := (over_pushBlock b (d := d) rfl).2
  rw [Database.afterBlock] at hsettled
  rw [run_pushBlock] at hsettled ⊢
  cases hrun : (releaseItems (pushBlockImpl skipNothing b)).run d.settled <;>
    rw [hrun] at hsettled <;> exact congrArg _ hsettled

theorem pending_pushBlock (b : SignedBlock) (d : Database) :
    Pending (finalState ((pushBlock skipNothing b).run d)) := (over_pushBlock b (d := d) rfl).1

theorem settled_pushBlock (h : (pushBlock skipNothing b).run d = .ok answer d') :
    (releaseItems (pushBlockImpl skipNothing b)).run d.settled = .ok answer d'.settled ∧
      Pending d' := by
  have hpending := pending_pushBlock b d
  rw [h] at hpending
  rw [← mapState_settled_pushBlock, h]
  exact ⟨rfl, hpending⟩

theorem settled_pushBlock_error {e : Exc} (h : (pushBlock skipNothing b).run d = .error e d') :
    (releaseItems (pushBlockImpl skipNothing b)).run d.settled = .error e d'.settled ∧
      Pending d' := by
  have hpending := pending_pushBlock b d
  rw [h] at hpending
  rw [← mapState_settled_pushBlock, h]
  exact ⟨rfl, hpending⟩

theorem Kept.push (hd : Kept pushed chain d.settled)
    (h : (pushBlock skipNothing b).run d = .ok answer d') :
    ∃ chain', Step chain d.forkDb b answer chain' d'.forkDb ∧
      Kept (pushed ++ [b]) chain' d'.settled := hd.returns (settled_pushBlock h).1

/-- Between calls there is a main chain, and the pending transactions are on top of it. -/
theorem ReturnedRun.kept (h : ReturnedRun P pushed d) :
    Pending d ∧ ∃ chain, Kept pushed chain d.settled := by
  induction h with
  | genesis => exact ⟨.of_idle rfl rfl, [], kept_genesis⟩
  | push b _ _ hrun ih =>
    obtain ⟨-, chain, hkept⟩ := ih
    obtain ⟨chain', -, hkept'⟩ := hkept.push hrun
    exact ⟨(settled_pushBlock hrun).2, chain', hkept'⟩

/-! ## Fork choice -/

/-- `chain`, newest first, is the main chain: pushed blocks from the head down, each building on the
next, and the objects with the pending session removed are what they make of genesis. -/
structure MainChain (pushed chain : List SignedBlock) (d : Database) : Prop where
  known : ∀ b ∈ chain, b ∈ pushed
  linked : LinkedChain chain
  headBlockId : d.headBlockId = headIdOf chain
  headBlockNum : d.headBlockNum = chain.length
  objects : (Objects.applyBlocks skipNothing chain.reverse).run genesis =
    .ok () d.settled.store.content

theorem Kept.mainChain (hd : Kept pushed chain d.settled) (hpending : Pending d) :
    MainChain pushed chain d where
  known := by
    intro b hb
    obtain ⟨m, hm, hblocks, -⟩ := hd.forest.top (List.ne_nil_of_mem hb)
    exact hd.forest.known m hm b (hblocks ▸ hb)
  linked := hd.main.onChain.linked
  headBlockId := by
    rw [← hd.headBlockId, Database.headBlockId, Database.headBlockId, hpending.settled_gpo]
  headBlockNum := by
    rw [← hd.headBlockNum, Database.headBlockNum, Database.headBlockNum, hpending.settled_gpo]
  objects := hd.main.onChain.tracks.content.run

/-- The chain reaches the greatest height of the pushed blocks, and its head was the first there. -/
structure Chosen (pushed chain : List SignedBlock) : Prop where
  highest : ∀ b ∈ pushed, b.blockNum ≤ chain.length
  reached : pushed ≠ [] → ∃ b ∈ pushed, b.blockNum = chain.length
  earliest : chain ≠ [] → chain.head? = pushed.find? (·.blockNum == chain.length)

omit [Node] in
theorem chosen_genesis : Chosen [] [] :=
  ⟨fun _ hb => absurd hb List.not_mem_nil, fun hne => absurd rfl hne, fun hne => absurd rfl hne⟩

theorem Chosen.push {chain' : List SignedBlock} {fdb fdb' : ForkDatabase} (h : Chosen pushed chain)
    (hstep : Step chain fdb b answer chain' fdb') : Chosen (pushed ++ [b]) chain' := by
  have hlength := hstep.length
  have hhead := hstep.head
  cases answer with
  | true =>
    simp only [if_true] at hlength hhead
    obtain ⟨hhead, hnum⟩ := hhead
    have hnone : pushed.find? (·.blockNum == chain.length + 1) = none := by
      refine List.find?_eq_none.mpr fun c hc heq => ?_
      have hle := h.highest c hc
      rw [beq_iff_eq] at heq
      omega
    refine ⟨fun c hc => ?_, fun _ => ⟨b, by simp, by rw [hnum, hlength]⟩, fun _ => ?_⟩
    · rw [hlength]
      rcases List.mem_append.mp hc with hc | hc
      · exact Nat.le_succ_of_le (h.highest c hc)
      · rw [List.mem_singleton.mp hc, hnum]
    · rw [hhead, hlength, List.find?_append, hnone, Option.none_or, List.find?_cons, hnum,
        beq_self_eq_true]
  | false =>
    obtain ⟨hsame, hle⟩ := hhead
    subst hsame
    refine ⟨fun c hc => ?_, fun _ => ?_, fun hne => ?_⟩
    · rcases List.mem_append.mp hc with hc | hc
      · exact h.highest c hc
      · rw [List.mem_singleton.mp hc]
        exact hle
    · by_cases hpushed : pushed = []
      · -- The first block does not extend the chain only if it is numbered 0.
        subst hpushed
        refine ⟨b, by simp, ?_⟩
        cases chain' with
        | nil => exact Nat.le_zero.mp hle
        | cons c rest => exact absurd (h.earliest (List.cons_ne_nil _ _)) (by simp)
      · obtain ⟨c, hc, hnum⟩ := h.reached hpushed
        exact ⟨c, List.mem_append_left _ hc, hnum⟩
    · obtain ⟨c, hc⟩ : ∃ c, chain'.head? = some c := by
        cases chain' with
        | nil => exact absurd rfl hne
        | cons c rest => exact ⟨c, rfl⟩
      rw [List.find?_append, ← h.earliest hne, hc, Option.some_or]

theorem ReturnedRun.chosen (h : ReturnedRun P pushed d) :
    ∃ chain, Kept pushed chain d.settled ∧ Chosen pushed chain := by
  induction h with
  | genesis => exact ⟨[], kept_genesis, chosen_genesis⟩
  | push b _ _ hrun ih =>
    obtain ⟨chain, hkept, hchosen⟩ := ih
    obtain ⟨chain', hstep, hkept'⟩ := hkept.push hrun
    exact ⟨chain', hkept', hchosen.push hstep⟩

/-- **Fork choice.** In every run in which no push throws, the main chain is as high as any pushed
block, it ends in the first block that was pushed at that height, if that is not 0, and a call
returns true where its block is higher than the head. -/
theorem returnedRun_forkChoice (h : ReturnedRun (fun _ _ => True) pushed d) :
    (∃ chain, MainChain pushed chain d ∧
      (0 < d.headBlockNum → chain.head? = pushed.find? (·.blockNum == d.headBlockNum))) ∧
    (∀ b ∈ pushed, b.blockNum ≤ d.headBlockNum) ∧
    (pushed ≠ [] → ∃ b ∈ pushed, b.blockNum = d.headBlockNum) ∧
    ∀ b answer d', (pushBlock skipNothing b).run d = .ok answer d' →
      (answer = true ↔ d.headBlockNum < b.blockNum) := by
  obtain ⟨chain, hkept, hchosen⟩ := h.chosen
  have hmain := hkept.mainChain h.kept.1
  rw [hmain.headBlockNum]
  refine ⟨⟨chain, hmain, fun hpos => hchosen.earliest (List.length_pos_iff.mp hpos)⟩,
    hchosen.highest, hchosen.reached, fun b answer d' hrun => ?_⟩
  obtain ⟨chain', hstep, -⟩ := hkept.push hrun
  have hhead := hstep.head
  cases answer with
  | true =>
    rw [if_pos rfl] at hhead
    exact iff_of_true rfl (by omega)
  | false =>
    rw [if_neg Bool.false_ne_true] at hhead
    exact iff_of_false Bool.false_ne_true (Nat.not_lt.mpr hhead.2)

/-! ## Finality -/

/-- The pending session is one of those that are undone. -/
theorem undoAll_settled (h : d.Undoable) : d.settled.store.undoAll = d.store.undoAll := by
  unfold Database.settled
  split
  · rename_i hsession
    obtain ⟨f, fs, hframes⟩ := List.exists_cons_of_ne_nil (h hsession)
    have hlength : d.store.frames.length = d.store.undo.frames.length + 1 := by
      simp only [Snapshots.undo, hframes, List.length_cons]
    rw [Snapshots.undoAll, Snapshots.undoAll, hlength, Function.iterate_succ_apply]
  · rfl

/-- What is final of the main chain, and what a restart finds. -/
structure Final (chain : List SignedBlock) (d : Database) : Prop where
  lastIrreversible : d.gpo.lastIrreversibleBlockNum = d.headBlockNum - irreversibleBlockNum
  log : d.blockLog.blocks = chain.reverse.take d.gpo.lastIrreversibleBlockNum
  snapshots : d.settled.store.frames.length + d.gpo.lastIrreversibleBlockNum = d.headBlockNum
  states : ∀ (k : Nat) (f : Frame Objects), d.settled.store.frames[k]? = some f →
    f.revision + k = d.headBlockNum ∧
      (Objects.applyBlocks skipNothing (chain.drop (k + 1)).reverse).run genesis = .ok () f.saved
  undone : (Objects.applyBlocks skipNothing
    (chain.reverse.take d.gpo.lastIrreversibleBlockNum)).run genesis =
      .ok () d.store.undoAll.content
  revision : d.store.undoAll.revision = d.store.undoAll.content.gpo.headBlockNum ∧
    d.store.undoAll.content.gpo.headBlockNum = d.gpo.lastIrreversibleBlockNum
  readable : 0 < d.gpo.lastIrreversibleBlockNum → ∃ b,
    d.blockLog.readBlockByNum d.gpo.lastIrreversibleBlockNum = some b ∧
      b.id = d.store.undoAll.content.gpo.headBlockId
  reopens : ∃ d', reopen.run d = .ok () d' ∧ d'.store = d.store.undoAll

theorem run_reopen {store : Snapshots Objects}
    (hstore : d.store.undoAll = store) (hrevision : store.revision = store.content.gpo.headBlockNum)
    (hread : store.content.gpo.headBlockNum ≠ 0 → ∃ b,
      d.blockLog.readBlockByNum store.content.gpo.headBlockNum = some b ∧
        b.id = store.content.gpo.headBlockId) :
    ∃ d', reopen.run d = .ok () d' ∧ d'.store = store := by
  subst hstore
  let d₁ : Database := { store := d.store.undoAll, blockLog := d.blockLog, applied := d.applied }
  have hassert : (fcAssert (d₁.store.revision = d₁.headBlockNum)
      "Chainbase revision does not match head block num" : DbM Unit).run d₁ = .ok () d₁ :=
    fcAssert_eq_ok.mpr ⟨hrevision, rfl⟩
  by_cases hne : d₁.headBlockNum ≠ 0
  · obtain ⟨b, hb, hid⟩ := hread hne
    have hb' : d₁.blockLog.readBlockByNum d₁.headBlockNum = some b := hb
    refine ⟨{ d₁ with forkDb := d₁.forkDb.startBlock b }, bind_eq_ok.mpr ⟨(), d₁, rfl,
      bind_eq_ok.mpr ⟨d₁, d₁, rfl, bind_eq_ok.mpr ⟨(), d₁, hassert, ?_⟩⟩⟩, rfl⟩
    rw [run_onlyIf, if_pos hne]
    simp only [hb']
    exact bind_eq_ok.mpr ⟨(), d₁, fcAssert_eq_ok.mpr ⟨hid.symm, rfl⟩, rfl⟩
  · refine ⟨d₁, bind_eq_ok.mpr ⟨(), d₁, rfl, bind_eq_ok.mpr ⟨d₁, d₁, rfl,
      bind_eq_ok.mpr ⟨(), d₁, hassert, ?_⟩⟩⟩, rfl⟩
    rw [run_onlyIf, if_neg hne]

theorem Kept.final (hd : Kept pushed chain d.settled) (hpending : Pending d) : Final chain d := by
  have hmain := hd.mainChain hpending
  have honChain : OnChain chain d.settled.store d.blockLog := hd.main.onChain
  have hlogs : d.blockLog.blocks.length = d.headBlockNum - irreversibleBlockNum := by
    rw [hmain.headBlockNum]
    exact hd.logs
  have hlast : d.gpo.lastIrreversibleBlockNum = d.headBlockNum - irreversibleBlockNum := by
    rw [← hpending.settled_gpo, hmain.headBlockNum, ← honChain.headBlockNum]
    exact honChain.store.head.lastIrreversible
  have hlog : d.blockLog.blocks = chain.reverse.take d.gpo.lastIrreversibleBlockNum := by
    rw [hlast, ← hlogs]
    exact List.prefix_iff_eq_take.mp hd.main.logged
  have hundoAll := undoAll_settled hpending.undoable
  obtain ⟨hdown, -⟩ := honChain.undoAll
  rw [hundoAll] at hdown
  have hle : d.blockLog.blocks.length ≤ chain.length := by
    rw [hlogs, hmain.headBlockNum]
    exact Nat.sub_le _ _
  have hdrop : (chain.drop (chain.length - d.blockLog.blocks.length)).reverse =
      chain.reverse.take d.gpo.lastIrreversibleBlockNum := by
    rw [hlast, ← hlogs, List.reverse_drop]
    congr 1
    omega
  have hundone := hdown.tracks.content.run
  have hnum : d.store.undoAll.content.gpo.headBlockNum = d.gpo.lastIrreversibleBlockNum := by
    rw [hdown.headBlockNum, List.length_drop, hlast, ← hlogs]
    exact Nat.sub_sub_self hle
  have hreadable : d.store.undoAll.content.gpo.headBlockNum ≠ 0 → ∃ b,
      d.blockLog.readBlockByNum d.store.undoAll.content.gpo.headBlockNum = some b ∧
        b.id = d.store.undoAll.content.gpo.headBlockId := by
    intro hne
    rw [hnum] at hne ⊢
    have hlt : d.gpo.lastIrreversibleBlockNum - 1 < d.blockLog.blocks.length := by
      rw [hlogs, ← hlast]
      omega
    obtain ⟨b, hb⟩ : ∃ b, d.blockLog.blocks[d.gpo.lastIrreversibleBlockNum - 1]? = some b :=
      ⟨_, List.getElem?_eq_getElem hlt⟩
    refine ⟨b, ?_, ?_⟩
    · rw [BlockLog.readBlockByNum_eq, if_pos (Nat.pos_iff_ne_zero.mpr hne)]
      exact hb
    · -- The last block of the log is the newest of the shorter chain.
      rw [hdown.headBlockId, headIdOf_drop (b := b)]
      rw [← hd.main.logged.getElem hb]
      congr 1
      omega
  refine ⟨hlast, hlog, ?_, fun k f hf => ⟨?_, ?_⟩, ?_, ⟨hdown.store.revision, hnum⟩, fun hpos => ?_,
    run_reopen rfl hdown.store.revision hreadable⟩
  · have hframes := honChain.frames
    rw [hmain.headBlockNum, hlast, ← hlogs]
    exact hframes
  · rw [honChain.store.stacked.revision hf, honChain.headBlockNum, hmain.headBlockNum]
  · exact (honChain.tracks.frames.getElem hf).run
  · rw [← hdrop]
    exact hundone
  · rw [← hnum] at hpos ⊢
    exact hreadable (Nat.pos_iff_ne_zero.mp hpos)

/-- **Finality and restart.** In every run in which no push throws, the last irreversible block is 21
below the head and never goes back; the log holds the main chain up to it and the undo stack the
states above it; and `open` unwinds the stack to the state after that block. -/
theorem returnedRun_final (h : ReturnedRun (fun _ _ => True) pushed d) :
    (∃ chain, MainChain pushed chain d ∧ Final chain d) ∧
    ∀ b answer d', (pushBlock skipNothing b).run d = .ok answer d' →
      d.gpo.lastIrreversibleBlockNum ≤ d'.gpo.lastIrreversibleBlockNum := by
  obtain ⟨hpending, chain, hkept⟩ := h.kept
  have hmain := hkept.mainChain hpending
  have hfinal := hkept.final hpending
  refine ⟨⟨chain, hmain, hfinal⟩, fun b answer d' hrun => ?_⟩
  obtain ⟨chain', hstep, hkept'⟩ := hkept.push hrun
  have hpending' := (settled_pushBlock hrun).2
  have hlength := hstep.length
  rw [hfinal.lastIrreversible, (hkept'.final hpending').lastIrreversible, hmain.headBlockNum,
    (hkept'.mainChain hpending').headBlockNum]
  split at hlength <;> omega

end Chains

/-- Four blocks: the second is left for its sibling when that one has a child. -/
def forkedBlocks : List SignedBlock :=
  let _ : Node := smallNode
  let x : SignedBlock := blockOn .null genesisTime []
  let y : SignedBlock := blockOn x.id (genesisTime + 6) []
  [x, blockOn x.id (genesisTime + 3) [], y, blockOn y.id (genesisTime + 9) []]

/-- Blocks without transactions, each on the one before it; the newest comes first. -/
def bareChain : Nat → List SignedBlock
  | 0 => []
  | n + 1 =>
    let _ : Node := smallNode
    let below := bareChain n
    blockOn (headIdOf below) (genesisTime + 3 * UInt32.ofNat n) [] :: below

/-- The main chain ends in the block that comes last, over the sibling that came later. -/
theorem returnedRun_forkChoice_switch :
    let _ : Node := smallNode
    ∃ (d : Database) (chain : List SignedBlock), MainChain forkedBlocks chain d ∧
      d.headBlockNum = 3 ∧ chain.head? = forkedBlocks[3]? := by
  intro node
  have hrun := ReturnedRun.genesis.pushBlocks forkedBlocks (by decide +kernel)
  have hnum : Database.headBlockNum (finalState ((pushBlocks forkedBlocks).run .genesis)) = 3 := by
    decide +kernel
  have hlast : forkedBlocks.find? (·.blockNum == 3) = forkedBlocks[3]? := by decide +kernel
  obtain ⟨⟨chain, hmain, hhead⟩, -⟩ := returnedRun_forkChoice hrun
  refine ⟨_, chain, hmain, hnum, ?_⟩
  rw [hhead (by rw [hnum]; decide), hnum]
  exact hlast

/-- Of 23 blocks, the last of which takes the place of its sibling, two are final. -/
theorem returnedRun_final_switch :
    let _ : Node := smallNode
    ∃ (pushed : List SignedBlock) (d : Database) (chain : List SignedBlock),
      pushed.length = 24 ∧ MainChain pushed chain d ∧ Final chain d ∧ d.headBlockNum = 23 ∧
      d.gpo.lastIrreversibleBlockNum = 2 ∧ d.blockLog.blocks.length = 2 := by
  intro node
  let line := bareChain 22
  let y : SignedBlock := blockOn (headIdOf line.tail) (genesisTime + 100) []
  let pushed := line.reverse ++ [y, blockOn y.id (genesisTime + 103) []]
  have hrun := ReturnedRun.genesis.pushBlocks pushed (by decide +kernel)
  obtain ⟨⟨chain, hmain, hfinal⟩, -⟩ := returnedRun_final hrun
  exact ⟨pushed, _, chain, by decide +kernel, hmain, hfinal, by decide +kernel, by decide +kernel,
    by decide +kernel⟩

/-- A switch that pops a block with a transaction leaves that transaction pending, on top of the
objects of the new chain. A first block numbered 0 is never the head. -/
theorem forkChoice_pending :
    (¬ ∀ pushed (d : @Database smallNode), @ReturnedRun smallNode (fun _ _ => True) pushed d →
      (∀ b ∈ pushed, ∀ c ∈ pushed, @SignedBlockHeader.id smallNode.toEnv b.toSignedBlockHeader =
        @SignedBlockHeader.id smallNode.toEnv c.toSignedBlockHeader → b = c) →
      ∀ chain, @LinkedChain smallNode chain → (∀ b ∈ chain, b ∈ pushed) →
        @Database.headBlockId smallNode d = @headIdOf smallNode chain →
        (@Objects.applyBlocks smallNode skipNothing chain.reverse).run (@genesis smallNode.toEnv) =
          .ok () (@Database.store smallNode d).content) ∧
    ¬ ∀ pushed (d : @Database smallNode), @ReturnedRun smallNode (fun _ _ => True) pushed d →
      ∀ b, pushed.find? (·.blockNum == @Database.headBlockNum smallNode d) = some b →
        @Database.headBlockId smallNode d = @SignedBlockHeader.id smallNode.toEnv b.toSignedBlockHeader := by
  let _ : Node := smallNode
  constructor
  · intro h
    let t : SignedTransaction := { unitTransfer 10 with expiration := genesisTime + 60 }
    let x : SignedBlock := blockOn .null genesisTime [t]
    let y : SignedBlock := blockOn .null (genesisTime + 3) []
    let z : SignedBlock := blockOn y.id (genesisTime + 6) []
    have hrun := ReturnedRun.genesis.pushBlocks [x, y, z] (by decide +kernel)
    have hsame := h _ _ hrun (by decide +kernel) [z, y] ⟨rfl, by decide +kernel, trivial⟩ (by simp)
      (by decide +kernel)
    have hrows := congrArg (fun r => (finalState r).transactions.table.rows.length) hsame
    revert hrows
    decide +kernel
  · intro h
    let z : SignedBlock := blockOn ⟨0xFFFFFFFF, 0, 0, 0, 0⟩ genesisTime []
    have hrun := ReturnedRun.genesis.pushBlocks [z] (by decide +kernel)
    have hsame := h _ _ hrun z (by decide +kernel)
    revert hsame
    decide +kernel

end NewsChain
