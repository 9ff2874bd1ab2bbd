import NewsChain.Laws.PushBlock

/-!
# The popped transactions

`pop_block` puts the transactions of the block it takes off in front of `_popped_tx`, and the scope
exit of every `push_block` offers the whole queue to the new head. Nothing takes a transaction out
of the queue again.

`poppedByPush` follows a call from pop to pop: down to where the branches part, and after a failed
switch down the part of the new branch that had applied. `pushBlock_offersOnce_iff` says that the
queue is empty after a call exactly where it was before and none of these blocks has a transaction.
-/

namespace NewsChain

section Calls

variable [Node]

/-! ## The blocks a call takes off -/

/-- The blocks `popUntil` takes off, in this order. -/
def poppedUntil (id : BlockId) : Nat → Database → List SignedBlock
  | 0, _ => []
  | rounds + 1, d =>
    if d.headBlockId = id then []
    else
      match d.fetchBlockById d.headBlockId, popBlock.run d with
      | some b, .ok _ d' => b :: poppedUntil id rounds d'
      | _, _ => []

/-- The blocks taken off again where the new branch fails: from its last block that applied. -/
def poppedByBranch (skip : SkipFlags) (old : Branch) : List ForkItem → Database → List SignedBlock
  | [], _ => []
  | i :: rest, d =>
    match (applyInSession skip i.data).run d with
    | .ok _ d' => poppedByBranch skip old rest d'
    | .error _ d' =>
      let d₁ := { d' with forkDb := (d'.forkDb.removeAll (i :: rest)).setHead old.front }
      poppedUntil old.back.data.previous d₁.popRounds d₁

/-- The blocks a switch takes off: those of the old branch, and those of a new one that fails. -/
def poppedBySwitch (skip : SkipFlags) (newHead : ForkItem) (d : Database) : List SignedBlock :=
  match d.forkDb.fetchBranchFrom newHead.id d.headBlockId with
  | .error _ => []
  | .ok (first, second) =>
    let d₁ := { d with forkDb := d.forkDb.hold (first.items ++ second.items) }
    poppedUntil second.back.data.previous d₁.popRounds d₁ ++
      match (popUntil second.back.data.previous d₁.popRounds).run d₁ with
      | .error _ _ => []
      | .ok _ d₂ => poppedByBranch skip second first.items d₂

/-- The blocks `push_block` takes off. Only a switch takes off any. -/
def poppedByPush (skip : SkipFlags) (b : SignedBlock) (d : Database) : List SignedBlock :=
  if skip.has skipForkDb then []
  else
    match d.forkDb.pushBlock b with
    | .error _ => []
    | .ok (newBlock, fdb) =>
      if newBlock.data.previous ≠ d.headBlockId ∧ d.headBlockNum < newBlock.num then
        poppedBySwitch skip newBlock { d with forkDb := fdb }
      else []

/-! ## The queue -/

/-- The queue once these blocks are taken off. -/
def requeue (blocks : List SignedBlock) (queue : List SignedTransaction) : List SignedTransaction :=
  blocks.foldl (fun queue b => b.transactions ++ queue) queue

section Queue

variable {blocks : List SignedBlock} {queue : List SignedTransaction}

omit [Node] in
theorem requeue_append (xs ys : List SignedBlock) (queue : List SignedTransaction) :
    requeue (xs ++ ys) queue = requeue ys (requeue xs queue) := List.foldl_append

omit [Node] in
/-- The queue is empty where it was and no block had anything to add. -/
theorem requeue_eq_nil_iff :
    requeue blocks queue = [] ↔ queue = [] ∧ ∀ b ∈ blocks, b.transactions = [] := by
  induction blocks generalizing queue with
  | nil => simp [requeue]
  | cons b blocks ih =>
    have hstep : requeue (b :: blocks) queue = requeue blocks (b.transactions ++ queue) := rfl
    rw [hstep, ih, List.append_eq_nil_iff, List.forall_mem_cons]
    constructor
    · rintro ⟨⟨hb, hqueue⟩, hblocks⟩
      exact ⟨hqueue, hb, hblocks⟩
    · rintro ⟨hqueue, hb, hblocks⟩
      exact ⟨⟨hb, hqueue⟩, hblocks⟩

end Queue

/-- The queue is this one. -/
def Queued (queue : List SignedTransaction) (d : Database) : Prop := d.poppedTx = queue

section Parts

variable {queue : List SignedTransaction} {skip : SkipFlags} {d : Database}

theorem queued_keptByBlocks : KeptByBlocks (Queued queue) :=
  ⟨fun _ _ _ _ _ hd => hd, fun _ _ hd => hd⟩

theorem applyItems_keeps_queued (skip : SkipFlags) (items : List ForkItem) :
    Keeps (Queued queue) (forM items fun i => applyInSession skip i.data : DbM Unit) :=
  Keeps.forM fun i _ => applyInSession_keeps queued_keptByBlocks skip i.data

/-- What a pop finds goes into the queue. -/
theorem popBlock_eq_ok_iff {d' : Database} (hd : Idle d) :
    popBlock.run d = .ok () d' ↔
      ∃ b fdb, d.fetchBlockById d.headBlockId = some b ∧ d.forkDb.popBlock = .ok fdb ∧
        d' = { d with
          forkDb := fdb
          store := d.store.undo
          poppedTx := b.transactions ++ d.poppedTx } := by
  rw [run_popBlock hd.1]
  cases d.fetchBlockById d.headBlockId with
  | none => simp
  | some b =>
    cases d.forkDb.popBlock with
    | error e => simp
    | ok fdb => simp [eq_comm]

/-- A pop that throws changes nothing. -/
theorem popBlock_error {e : Exc} {d' : Database} (hd : Idle d) (h : popBlock.run d = .error e d') :
    d' = d := by
  rw [run_popBlock hd.1] at h
  split at h
  · cases h
    rfl
  · split at h
    · cases h
      rfl
    · cases h

theorem popUntil_poppedTx (id : BlockId) (rounds : Nat) (hd : Idle d) :
    (finalState ((popUntil id rounds).run d)).poppedTx =
      requeue (poppedUntil id rounds d) d.poppedTx := by
  induction rounds generalizing d with
  | zero => rfl
  | succ rounds ih =>
    have hrun : (popUntil id (rounds + 1)).run d =
        if d.headBlockId ≠ id then (popBlock >>= fun _ => popUntil id rounds).run d
        else .ok () d := run_onlyIf _ _ d
    by_cases hid : d.headBlockId = id
    · rw [hrun, if_neg (not_not_intro hid), poppedUntil, if_pos hid]
      rfl
    · rw [hrun, if_pos hid, poppedUntil, if_neg hid, EStateM.run_bind]
      cases hpop : popBlock.run d with
      | error e d' =>
        rw [popBlock_error hd hpop]
        cases d.fetchBlockById d.headBlockId <;> rfl
      | ok _ d' =>
        have hidle : Idle d' := popBlock_keeps_idle.of_ok hd hpop
        obtain ⟨b, fdb, hfetch, -, rfl⟩ := (popBlock_eq_ok_iff hd).mp hpop
        rw [hfetch]
        exact ih hidle

theorem restoreBranch_poppedTx (failed : List ForkItem) (old : Branch) (e : Exc) (hd : Idle d) :
    (finalState ((restoreBranch skip failed old e).run d)).poppedTx =
      let d₁ := { d with forkDb := (d.forkDb.removeAll failed).setHead old.front }
      requeue (poppedUntil old.back.data.previous d₁.popRounds d₁) d.poppedTx := by
  let d₁ : Database := { d with forkDb := (d.forkDb.removeAll failed).setHead old.front }
  have hpops := popUntil_poppedTx (d := d₁) old.back.data.previous d₁.popRounds hd
  rw [run_restoreBranch]
  show (finalState (match (popUntil old.back.data.previous d₁.popRounds).run d₁ with
    | .error e' d₂ => .error e' d₂
    | .ok _ d₂ => _)).poppedTx = _
  cases hpop : (popUntil old.back.data.previous d₁.popRounds).run d₁ with
  | error e' d₂ =>
    rw [hpop] at hpops
    exact hpops
  | ok _ d₂ =>
    rw [hpop] at hpops
    have hitems := applyItems_keeps_queued skip old.items d₂ hpops
    cases hrun : (forM old.items fun i => applyInSession skip i.data : DbM Unit).run d₂ with
    | error e' d₃ =>
      rw [hrun] at hitems
      simp only [hrun]
      exact hitems
    | ok _ d₃ =>
      rw [hrun] at hitems
      simp only [hrun]
      exact hitems

theorem applyBranch_poppedTx (old : Branch) (items : List ForkItem) (hd : Idle d) :
    (finalState ((applyBranch skip old items).run d)).poppedTx =
      requeue (poppedByBranch skip old items d) d.poppedTx := by
  induction items generalizing d with
  | nil => rfl
  | cons i rest ih =>
    have hqueue : Keeps (Queued d.poppedTx) (applyInSession skip i.data) :=
      applyInSession_keeps queued_keptByBlocks skip i.data
    have hidle := applyInSession_keeps idle_keptByBlocks skip i.data
    rw [run_applyBranch_cons, poppedByBranch]
    cases hrun : (applyInSession skip i.data).run d with
    | ok _ d' =>
      have hsame : d'.poppedTx = d.poppedTx := hqueue.of_ok rfl hrun
      rw [← hsame]
      exact ih (hidle.of_ok hd hrun)
    | error e d' =>
      have hsame : d'.poppedTx = d.poppedTx := hqueue.of_error rfl hrun
      rw [← hsame]
      exact restoreBranch_poppedTx (i :: rest) old e (hidle.of_error hd hrun)

theorem switchForks_poppedTx (newHead : ForkItem) (hd : Idle d) :
    (finalState ((switchForks skip newHead).run d)).poppedTx =
      requeue (poppedBySwitch skip newHead d) d.poppedTx := by
  rw [run_switchForks, poppedBySwitch]
  cases d.forkDb.fetchBranchFrom newHead.id d.headBlockId with
  | error e => rfl
  | ok branches =>
    obtain ⟨first, second⟩ := branches
    let d₁ : Database := { d with forkDb := d.forkDb.hold (first.items ++ second.items) }
    have hpops := popUntil_poppedTx (d := d₁) second.back.data.previous d₁.popRounds hd
    have hidle := popUntil_keeps_idle second.back.data.previous d₁.popRounds d₁ hd
    simp only [requeue_append]
    cases hpop : (popUntil second.back.data.previous d₁.popRounds).run d₁ with
    | error e d₂ =>
      rw [hpop] at hpops
      exact hpops
    | ok _ d₂ =>
      rw [hpop] at hpops hidle
      have hend : d₂.poppedTx =
          requeue (poppedUntil second.back.data.previous d₁.popRounds d₁) d.poppedTx := hpops
      rw [← hend]
      exact applyBranch_poppedTx second first.items hidle

theorem applyPushed_poppedTx (skip : SkipFlags) (b : SignedBlock) (d : Database) :
    (finalState ((applyPushed skip b).run d)).poppedTx = d.poppedTx := by
  have hkeeps : Keeps (Queued d.poppedTx) (applyPushed skip b) :=
    ((applyInSession_keeps queued_keptByBlocks skip b).bind fun _ => .pure _).tryCatch fun _ =>
      (modifyForkDb_keeps fun _ hd => hd).bind fun _ => .throw _
  exact hkeeps d rfl

/-- **The queue after `_push_block`**: the transactions of what was taken off, and what was there. -/
theorem pushBlockImpl_poppedTx (b : SignedBlock) (hd : Idle d) :
    (finalState ((pushBlockImpl skip b).run d)).poppedTx =
      requeue (poppedByPush skip b d) d.poppedTx := by
  by_cases hskip : skip.has skipForkDb = true
  · rw [pushBlockImpl, hskip, poppedByPush, if_pos hskip]
    exact applyPushed_poppedTx skip b d
  · rw [run_pushBlockImpl_flags (Bool.eq_false_iff.mpr hskip), poppedByPush, if_neg hskip]
    cases d.forkDb.pushBlock b with
    | error e => rfl
    | ok r =>
      obtain ⟨newBlock, fdb⟩ := r
      by_cases hbuilds : newBlock.data.previous ≠ d.headBlockId
      · by_cases hhigher : d.headBlockNum < newBlock.num
        · simp only [if_pos hbuilds, if_pos hhigher, if_pos (And.intro hbuilds hhigher)]
          exact switchForks_poppedTx newBlock hd
        · simp only [if_pos hbuilds, if_neg hhigher, if_neg fun h => hhigher (And.right h)]
          rfl
      · simp only [if_neg hbuilds, if_neg fun h => hbuilds (And.left h)]
        exact applyPushed_poppedTx skip b { d with forkDb := fdb }

end Parts

/-! ## The offers -/

section Offers

variable {skip : SkipFlags} {d : Database}

/-- The database at the scope exit of a call. -/
def atExit (skip : SkipFlags) (b : SignedBlock) (d : Database) : Database :=
  finalState ((releaseItems (pushBlockImpl skip b)).run d.settled)

theorem atExit_poppedTx (skip : SkipFlags) (b : SignedBlock) (d : Database) :
    (atExit skip b d).poppedTx = requeue (poppedByPush skip b d.settled) d.poppedTx := by
  have hidle : Idle d.settled := ⟨rfl, rfl⟩
  have hpush : (finalState ((pushBlockImpl skip b).run d.settled)).poppedTx = _ :=
    pushBlockImpl_poppedTx b hidle
  rw [atExit, run_releaseItems]
  cases hrun : (pushBlockImpl skip b).run d.settled with
  | ok a d' =>
    rw [hrun] at hpush
    exact hpush
  | error e d' =>
    rw [hrun] at hpush
    exact hpush

theorem pushBlock_repended (skip : SkipFlags) (b : SignedBlock) (d : Database) :
    finalState ((pushBlock skip b).run d) = (atExit skip b d).repended skip d.pendingTrx := by
  rw [run_pushBlock_flags, atExit]
  cases (releaseItems (pushBlockImpl skip b)).run d.settled <;> rfl

theorem pushTransactionImpl_keeps_queued (queue : List SignedTransaction) (tx : SignedTransaction) :
    Keeps (Queued queue) (pushTransactionImpl skip tx) :=
  pushTransactionImpl_keeps queued_keptByBlocks (fun _ hd => hd) fun _ hd => hd

/-- A pending transaction stays pending. -/
theorem pushTransactionImpl_keeps_pending (t tx : SignedTransaction) :
    Keeps (fun d => t ∈ d.pendingTrx) (pushTransactionImpl skip tx) :=
  pushTransactionImpl_keeps ⟨fun _ _ _ _ _ hd => hd, fun _ _ hd => hd⟩ (fun _ hd => hd) fun _ hd =>
    List.mem_append_left _ hd

/-- A transaction is offered to `c`: it is pending afterwards, or `c` knows it, or it does not apply
there. -/
def Settled (skip : SkipFlags) (tx : SignedTransaction) (c d' : Database) : Prop :=
  tx ∈ d'.pendingTrx ∨ c.store.content.isKnowTransaction tx.id = true ∨
    ¬ Returned ((pushTransactionImpl skip tx).run c)

/-- The state a transaction of the queue is offered to, after those before it. -/
def offeredTo (skip : SkipFlags) (before : List SignedTransaction) (c : Database) : Database :=
  finalState ((forM before (pushAgain skip) : DbM Unit).run c)

theorem run_forM_pushAgain (txs : List SignedTransaction) (c : Database) :
    (forM txs (pushAgain skip) : DbM Unit).run c = .ok () (offeredTo skip txs c) := by
  induction txs generalizing c with
  | nil => rfl
  | cons tx txs ih =>
    have hrun : (forM (tx :: txs) (pushAgain skip) : DbM Unit).run c =
        (forM txs (pushAgain skip) : DbM Unit).run (finalState ((pushAgain skip tx).run c)) := by
      rw [List.forM_cons, EStateM.run_bind, run_pushAgain]
      rfl
    rw [offeredTo, hrun, ih]
    rfl

theorem offeredTo_append (before after : List SignedTransaction) (c : Database) :
    offeredTo skip (before ++ after) c = offeredTo skip after (offeredTo skip before c) := by
  induction before generalizing c with
  | nil => rfl
  | cons tx before ih =>
    have hstep : ∀ txs, offeredTo skip (tx :: txs) c =
        offeredTo skip txs (finalState ((pushAgain skip tx).run c)) := by
      intro txs
      rw [offeredTo, List.forM_cons, EStateM.run_bind, run_pushAgain]
      rfl
    rw [List.cons_append, hstep, hstep, ih]

theorem repended_eq (c : Database) (oldInput : List SignedTransaction) :
    c.repended skip oldInput = offeredTo skip (c.poppedTx ++ oldInput) c := by
  rw [Database.repended, offeredTo_append, restorePending]
  simp only [EStateM.run_bind, EStateM.run_get, run_forM_pushAgain]
  rfl

/-- What is offered and neither known nor refused is pending. -/
theorem mem_pendingTrx_pushAgain {tx : SignedTransaction} {c : Database}
    (hunknown : c.store.content.isKnowTransaction tx.id = false)
    (happlies : Returned ((pushTransactionImpl skip tx).run c)) :
    tx ∈ (finalState ((pushAgain skip tx).run c)).pendingTrx := by
  obtain ⟨u, c', hrun⟩ := happlies
  have hagain : (pushAgain skip tx).run c = .ok u c' := by
    simp only [pushAgain, run_tryCatch, EStateM.run_bind, EStateM.run_get, run_onlyIf, hunknown,
      Bool.not_false, if_true, hrun]
  rw [hagain]
  obtain ⟨_, _, -, hrun⟩ := bind_eq_ok.mp hrun
  obtain ⟨_, _, -, hrun⟩ := bind_eq_ok.mp hrun
  obtain ⟨_, _, -, hrun⟩ := bind_eq_ok.mp hrun
  obtain ⟨_, _, -, hrun⟩ := bind_eq_ok.mp hrun
  obtain ⟨_, _, hpend, hsquash⟩ := bind_eq_ok.mp hrun
  cases hpend
  cases hsquash
  exact List.mem_append_right _ List.mem_cons_self

/-- **Every transaction of the queue is offered**, each to the state the ones before it left. -/
theorem settled_of_queued {c : Database} {before after oldInput : List SignedTransaction}
    {tx : SignedTransaction} (hqueue : c.poppedTx = before ++ tx :: after) :
    Settled skip tx (offeredTo skip before c) (c.repended skip oldInput) := by
  have hend : c.repended skip oldInput = offeredTo skip (after ++ oldInput)
      (finalState ((pushAgain skip tx).run (offeredTo skip before c))) := by
    rw [repended_eq, hqueue, List.append_assoc, offeredTo_append, List.cons_append]
    rw [offeredTo, List.forM_cons, EStateM.run_bind, run_pushAgain]
    rfl
  by_cases hknown : (offeredTo skip before c).store.content.isKnowTransaction tx.id = true
  · exact .inr (.inl hknown)
  · by_cases happlies : Returned ((pushTransactionImpl skip tx).run (offeredTo skip before c))
    · have hpending := mem_pendingTrx_pushAgain (Bool.eq_false_iff.mpr hknown) happlies
      have hkeeps : Keeps (fun d => tx ∈ d.pendingTrx)
          (forM (after ++ oldInput) (pushAgain skip) : DbM Unit) :=
        Keeps.forM fun t _ => pushAgain_keeps (pushTransactionImpl_keeps_pending tx t)
      rw [hend]
      exact .inl (hkeeps _ hpending)
    · exact .inr (.inr happlies)

theorem repended_poppedTx (c : Database) (oldInput : List SignedTransaction) :
    (c.repended skip oldInput).poppedTx = c.poppedTx :=
  restorePending_keeps (pushTransactionImpl_keeps_queued c.poppedTx) oldInput c rfl

/-- A call offers what it took off once: each transaction of the queue is settled when the call
ends, and the queue is empty, so that no later call offers it again. -/
structure OffersOnce (skip : SkipFlags) (b : SignedBlock) (d : Database) : Prop where
  settled : ∀ before tx after, (atExit skip b d).poppedTx = before ++ tx :: after →
    Settled skip tx (offeredTo skip before (atExit skip b d))
      (finalState ((pushBlock skip b).run d))
  emptied : (finalState ((pushBlock skip b).run d)).poppedTx = []

/-- **The queue after a call**: the transactions of what it took off, and what was there. -/
theorem pushBlock_poppedTx (skip : SkipFlags) (b : SignedBlock) (d : Database) :
    (finalState ((pushBlock skip b).run d)).poppedTx =
      requeue (poppedByPush skip b d.settled) d.poppedTx := by
  rw [pushBlock_repended, repended_poppedTx, atExit_poppedTx]

/-- A call that empties the queue has offered all of it. -/
theorem offersOnce_of_emptied {b : SignedBlock}
    (h : (finalState ((pushBlock skip b).run d)).poppedTx = []) : OffersOnce skip b d := by
  refine ⟨fun before tx after hbefore => ?_, h⟩
  rw [pushBlock_repended]
  exact settled_of_queued hbefore

/-- **The queue is emptied** exactly where it was empty and the call takes off no transaction. -/
theorem pushBlock_offersOnce_iff (skip : SkipFlags) (b : SignedBlock) (d : Database) :
    OffersOnce skip b d ↔
      d.poppedTx = [] ∧ ∀ popped ∈ poppedByPush skip b d.settled, popped.transactions = [] := by
  constructor
  · intro h
    rw [← requeue_eq_nil_iff, ← pushBlock_poppedTx]
    exact h.emptied
  · intro h
    refine offersOnce_of_emptied ?_
    rw [pushBlock_poppedTx]
    exact requeue_eq_nil_iff.mpr h

end Offers

end Calls

/-- The second of two blocks that replace a block with a transfer. Its call returns, and the transfer
stays in the queue. -/
theorem switch_keeps_queue :
    let _ : Node := smallNode
    let replaced := blockOn .null genesisTime [unitTransfer 10]
    let first := blockOn .null (genesisTime + 3) []
    let second := blockOn first.id (genesisTime + 6) []
    let d := finalState ((forM [replaced, first] fun b => do
      let _ ← pushBlock skipNothing b : DbM Unit).run .genesis)
    Returned ((pushBlock skipNothing second).run d) ∧ ¬ OffersOnce skipNothing second d := by
  intro _ replaced first second d
  refine ⟨by decide +kernel, fun h => ?_⟩
  have hqueue : (finalState ((pushBlock skipNothing second).run d)).poppedTx ≠ [] := by
    decide +kernel
  exact hqueue h.emptied

end NewsChain
