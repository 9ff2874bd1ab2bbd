import NewsChain.Laws.NoReplay

/-!
# Pending transactions

`settled` is the database with the pending session undone and the pending list cleared. A pending
transaction never changes it, and `push_block` does to it what `_push_block` does: so a database is
a settled one, run on blocks alone, with pending transactions on top. `HeadRun` pairs the two, and
`headRun_pending` is what holds of every pair.
-/

namespace NewsChain

open EStateM (Result)

section Calls

variable [Node]

namespace Database

/-- The database with the pending session undone and no pending transactions. -/
def settled (d : Database) : Database :=
  { d with
    store := if d.pendingSession then d.store.undo else d.store
    pendingTrx := []
    pendingSession := false }

/-- The database with the pending session opened. -/
def opened (d : Database) : Database :=
  if d.pendingSession then d else { d with store := d.store.start, pendingSession := true }

/-- A pending session has a snapshot to go back to. -/
def Undoable (d : Database) : Prop := d.pendingSession = true → d.store.frames ≠ []

variable {d : Database}

theorem settled_of_idle (h : d.pendingSession = false) (h' : d.pendingTrx = []) :
    d.settled = d := by
  obtain ⟨store, fdb, log, trx, session, popped, num, applied⟩ := d
  cases h
  cases h'
  rfl

@[simp] theorem settled_settled (d : Database) : d.settled.settled = d.settled := rfl

@[simp] theorem opened_pendingTrx (d : Database) : d.opened.pendingTrx = d.pendingTrx := by
  unfold opened; split <;> rfl

@[simp] theorem opened_currentBlockNum (d : Database) :
    d.opened.currentBlockNum = d.currentBlockNum := by unfold opened; split <;> rfl

@[simp] theorem opened_content (d : Database) :
    d.opened.store.content = d.store.content := by unfold opened; split <;> rfl

@[simp] theorem opened_pendingSession (d : Database) : d.opened.pendingSession = true := by
  unfold opened
  split
  · assumption
  · rfl

theorem Undoable.opened (h : d.Undoable) : d.opened.store.frames ≠ [] := by
  unfold Database.opened
  split
  · exact h ‹_›
  · exact List.cons_ne_nil _ _

/-- Opening the session changes nothing that undoing it does not take back. -/
@[simp] theorem settled_opened (d : Database) : d.opened.settled = d.settled := by
  unfold opened settled
  by_cases h : d.pendingSession = true
  · simp [h]
  · simp [h, Snapshots.undo, Snapshots.start]

/-- What is written in the session is not in the settled database. -/
theorem settled_put (h : d.pendingSession = true) (hframes : d.store.frames ≠ []) (o : Objects)
    (ts : List SignedTransaction) :
    { d with store := d.store.put o, pendingTrx := ts }.settled = d.settled := by
  simp only [settled, h, if_true, Snapshots.undo, Snapshots.put]
  split
  · exact absurd ‹_› hframes
  · rfl

end Database

/-! ## Pushing a transaction -/

theorem run_resetPendingSession (d : Database) :
    resetPendingSession.run d = .ok () { d.settled with pendingTrx := d.pendingTrx } := by
  simp only [resetPendingSession, EStateM.run_modify, Database.settled]
  by_cases h : d.pendingSession = true
  · simp [h]
  · simp only [Bool.not_eq_true] at h
    obtain ⟨store, fdb, log, trx, session, popped, num, applied⟩ := d
    cases h
    rfl

/-- `_push_transaction` opens the session; the transaction is pending if it applies. -/
theorem run_pushTransactionImpl {skip : SkipFlags} {trx : SignedTransaction} {d : Database}
    (hd : d.Undoable) :
    (pushTransactionImpl skip trx).run d =
      match (applyTransactionImpl skip d.currentBlockNum trx).run d.store.content with
      | .ok _ o => .ok ()
        { d.opened with store := d.opened.store.put o, pendingTrx := d.pendingTrx ++ [trx] }
      | .error e _ => .error e d.opened := by
  have hopen : (onlyIf (!d.pendingSession) do
      modifyStore .start
      modify fun d => { d with pendingSession := true } : DbM Unit).run d = .ok () d.opened := by
    rw [run_onlyIf, Database.opened]
    by_cases h : d.pendingSession = true
    · simp [h]
    · simp only [Bool.not_eq_true] at h
      simp [h, modifyStore]
  obtain ⟨f, fs, hframes⟩ := List.exists_cons_of_ne_nil hd.opened
  have hstart : d.opened.store.start.content = d.store.content := d.opened_content
  simp only [pushTransactionImpl, EStateM.run_bind, EStateM.run_get, hopen, run_withSession,
    run_objects, hstart, Database.opened_currentBlockNum]
  cases (applyTransactionImpl skip d.currentBlockNum trx).run d.store.content with
  | error e o =>
    simp only [withObjects, Snapshots.undo_put_start]
    rw [← d.opened_currentBlockNum]
  | ok _ o =>
    simp only [withObjects, modifyStore, EStateM.run_modify,
      Snapshots.squash_put_start hframes, Database.opened_pendingTrx]

/-! ## Applying transactions in order -/

/-- Applying transactions in order. -/
def applyTransactions (num : Nat) (trxs : List SignedTransaction) : ObjM Unit :=
  forM trxs (applyTransactionImpl skipNothing num)

theorem applyTransactions_concat {num : Nat} {trxs : List SignedTransaction}
    {t : SignedTransaction} {o o₁ o₂ : Objects}
    (h : (applyTransactions num trxs).run o = .ok () o₁)
    (ht : (applyTransactionImpl skipNothing num t).run o₁ = .ok () o₂) :
    (applyTransactions num (trxs ++ [t])).run o = .ok () o₂ := by
  induction trxs generalizing o with
  | nil =>
    cases h
    exact bind_eq_ok.mpr ⟨(), o₂, ht, rfl⟩
  | cons t' trxs ih =>
    obtain ⟨_, o', ht', hrest⟩ := bind_eq_ok.mp h
    exact bind_eq_ok.mpr ⟨(), o', ht', ih hrest⟩

/-- Transactions that can be applied one after the other have distinct ids: each is in the index
while the later ones are applied. -/
theorem applyTransactions_nodup {num : Nat} {trxs : List SignedTransaction} {o o' : Objects}
    (h : (applyTransactions num trxs).run o = .ok () o') : (trxs.map (·.id)).Nodup := by
  have hskip : skipNothing.has skipTransactionDupeCheck = false := by decide
  -- A row once written stays, and a transaction with its id is refused.
  have hfresh : ∀ {trxs : List SignedTransaction} {o o' : Objects} {i r},
      o.transactions.table.get? i = some r →
      (applyTransactions num trxs).run o = .ok () o' → ∀ t ∈ trxs, t.id ≠ r.trxId := by
    intro trxs
    induction trxs with
    | nil => exact fun _ _ => nofun
    | cons t trxs ih =>
      intro o o' i r hr h t' ht'
      obtain ⟨_, o₁, ht, hrest⟩ := bind_eq_ok.mp h
      have hemplace := (applyTransactionImpl_enters hskip ht).1
      obtain ⟨hnone, hfits, -⟩ := Content.emplace_eq_some.mp hemplace
      have hne : i ≠ o.transactions.nextId := by
        rintro rfl
        rw [hnone] at hr
        cases hr
      rcases List.mem_cons.mp ht' with rfl | ht'
      · exact fun heq => Table.fits_iff.mp hfits i r hr hne ⟨_, List.mem_cons_self, heq⟩
      · exact ih (by rw [Content.get?_emplace hemplace, if_neg hne, hr]) hrest t' ht'
  induction trxs generalizing o with
  | nil => exact .nil
  | cons t trxs ih =>
    obtain ⟨_, o₁, ht, hrest⟩ := bind_eq_ok.mp h
    have hemplace := (applyTransactionImpl_enters hskip ht).1
    refine List.nodup_cons.mpr ⟨fun hmem => ?_, ih hrest⟩
    obtain ⟨t', ht', heq⟩ := List.mem_map.mp hmem
    exact hfresh (by rw [Content.get?_emplace hemplace, if_pos rfl]) hrest t' ht' heq

/-! ## The invariant -/

/-- The pending transactions, applied in order to the settled objects, give the present ones. -/
structure Pending (d : Database) : Prop where
  undoable : d.Undoable
  idle : d.pendingSession = false → d.pendingTrx = []
  applied : (applyTransactions d.currentBlockNum d.pendingTrx).run d.settled.store.content =
    .ok () d.store.content

/-- A database without pending transactions. -/
theorem Pending.of_idle {d : Database} (h : d.pendingSession = false) (h' : d.pendingTrx = []) :
    Pending d where
  undoable := fun hs => by rw [h] at hs; cases hs
  idle := fun _ => h'
  applied := by
    rw [h', Database.settled_of_idle h h']
    rfl

/-- Opening the session adds nothing. -/
theorem Pending.opened {d : Database} (hd : Pending d) : Pending d.opened where
  undoable := fun _ => hd.undoable.opened
  idle := fun h => by rw [Database.opened_pendingSession] at h; cases h
  applied := by simpa using hd.applied

/-- Pushing a transaction adds it to the pending ones if it applies, and changes neither the
objects nor the list if it does not. -/
theorem Pending.pushTransactionImpl {d : Database} (hd : Pending d) (trx : SignedTransaction) :
    Pending (finalState ((pushTransactionImpl skipNothing trx).run d)) ∧
      (finalState ((pushTransactionImpl skipNothing trx).run d)).settled = d.settled ∧
      ∀ e d', (pushTransactionImpl skipNothing trx).run d = .error e d' →
        d'.store.content = d.store.content ∧ d'.pendingTrx = d.pendingTrx := by
  rw [run_pushTransactionImpl hd.undoable]
  have hopen := hd.opened
  cases happly : (applyTransactionImpl skipNothing d.currentBlockNum trx).run d.store.content with
  | error e o =>
    refine ⟨hopen, d.settled_opened, fun _ _ h => ?_⟩
    cases h
    exact ⟨d.opened_content, d.opened_pendingTrx⟩
  | ok _ o =>
    have hsettled := d.opened.settled_put d.opened_pendingSession hd.undoable.opened o
      (d.pendingTrx ++ [trx])
    refine ⟨⟨fun _ => hd.undoable.opened, fun h => ?_, ?_⟩, ?_, fun _ _ h => by cases h⟩
    · rw [finalState_ok, d.opened_pendingSession] at h
      cases h
    · rw [finalState_ok, hsettled, d.settled_opened]
      simpa using applyTransactions_concat hd.applied happly
    · rw [finalState_ok, hsettled, d.settled_opened]

/-- A database of pending transactions over the settled one `c`. -/
def Over (c d : Database) : Prop := Pending d ∧ d.settled = c

variable {c d : Database}

theorem pushTransactionImpl_keeps_over (t : SignedTransaction) :
    Keeps (Over c) (pushTransactionImpl skipNothing t) := by
  rintro d ⟨hd, rfl⟩
  obtain ⟨hpending, hsettled, -⟩ := hd.pushTransactionImpl t
  exact ⟨hpending, hsettled⟩

/-! ## Blocks -/

/-- The database after the scope exit of `without_pengding_transactions`. -/
def Database.repended (d : Database) (skip : SkipFlags) (oldInput : List SignedTransaction) :
    Database := finalState ((restorePending skip oldInput).run d)

theorem run_pushAgain (skip : SkipFlags) (t : SignedTransaction) (d : Database) :
    (pushAgain skip t).run d = .ok () (finalState ((pushAgain skip t).run d)) := by
  rw [pushAgain, run_tryCatch]
  split <;> rfl

theorem run_restorePending (skip : SkipFlags) (oldInput : List SignedTransaction) (d : Database) :
    (restorePending skip oldInput).run d = .ok () (d.repended skip oldInput) := by
  have hforM : ∀ (ts : List SignedTransaction) (d : Database),
      ∃ d', (forM ts (pushAgain skip) : DbM Unit).run d = .ok () d' := by
    intro ts
    induction ts with
    | nil => exact fun d => ⟨d, rfl⟩
    | cons t ts ih =>
      intro d
      obtain ⟨d', h⟩ := ih (finalState ((pushAgain skip t).run d))
      exact ⟨d', bind_eq_ok.mpr ⟨(), _, run_pushAgain skip t d, h⟩⟩
  obtain ⟨d₁, h₁⟩ := hforM d.poppedTx d
  obtain ⟨d₂, h₂⟩ := hforM oldInput d₁
  have hrun : (restorePending skip oldInput).run d = .ok () d₂ :=
    bind_eq_ok.mpr ⟨d, d, rfl, bind_eq_ok.mpr ⟨(), d₁, h₁, h₂⟩⟩
  rw [Database.repended, hrun]
  rfl

/-- Offering a transaction again keeps what pushing it keeps. -/
theorem pushAgain_keeps {I : Database → Prop} {skip : SkipFlags} {tx : SignedTransaction}
    (h : Keeps I (pushTransactionImpl skip tx)) : Keeps I (pushAgain skip tx) :=
  Keeps.tryCatch (Keeps.get.bind fun _ => Keeps.onlyIf fun _ => h) fun _ => .pure _

theorem restorePending_keeps {I : Database → Prop} {skip : SkipFlags}
    (h : ∀ tx, Keeps I (pushTransactionImpl skip tx)) (oldInput : List SignedTransaction) :
    Keeps I (restorePending skip oldInput) :=
  Keeps.get.bind fun _ => (Keeps.forM fun tx _ => pushAgain_keeps (h tx)).bind fun _ =>
    Keeps.forM fun tx _ => pushAgain_keeps (h tx)

/-- Pushing the old transactions again leaves the settled database as it is. -/
theorem over_repended (h : d.pendingSession = false) (h' : d.pendingTrx = [])
    (oldInput : List SignedTransaction) : Over d (d.repended skipNothing oldInput) :=
  restorePending_keeps pushTransactionImpl_keeps_over oldInput d
    ⟨.of_idle h h', Database.settled_of_idle h h'⟩

section BlockCode

variable {α : Type} {I : Database → Prop}

/-- Kept by whatever is written while a block is applied. Left alone are the pending and the popped
transactions, and of the fork database all but its size. -/
structure KeptByBlocks (I : Database → Prop) : Prop where
  write : ∀ (d : Database) store log num applied, I d →
    I { d with store, blockLog := log, currentBlockNum := num, applied }
  resize : ∀ (d : Database) size, I d → I { d with forkDb := d.forkDb.setMaxSize size }

theorem objects_keeps (hI : KeptByBlocks I) (m : ObjM α) : Keeps I (objects m) := by
  intro d hd
  rw [run_objects]
  cases m.run d.store.content <;> exact hI.write d _ _ _ _ hd

theorem forkDb_keeps {f : ForkDatabase → Except Exc (α × ForkDatabase)}
    (h : ∀ d a fdb, f d.forkDb = .ok (a, fdb) → I d → I { d with forkDb := fdb }) :
    Keeps I (forkDb f) := by
  intro d hd
  show I (finalState (forkDb f d))
  unfold forkDb
  split
  · rename_i hf
    exact h d _ _ hf hd
  · exact hd

theorem modifyForkDb_keeps {f : ForkDatabase → ForkDatabase}
    (h : ∀ d, I d → I { d with forkDb := f d.forkDb }) : Keeps I (modifyForkDb f) := h

theorem modifyStore_keeps (hI : KeptByBlocks I) (f : Snapshots Objects → Snapshots Objects) :
    Keeps I (modifyStore f) := fun d hd => hI.write d _ _ _ _ hd

theorem withSession_keeps (hI : KeptByBlocks I) {m : DbM α} (hm : Keeps I m) :
    Keeps I (withSession m) :=
  (modifyStore_keeps hI _).bind fun _ => hm.tryCatch fun _ =>
    (modifyStore_keeps hI _).bind fun _ => .throw _

theorem appendBlocks_keeps (hI : KeptByBlocks I) (count n : Nat) : Keeps I (appendBlocks count n) := by
  intro d hd
  rw [run_appendBlocks]
  cases (appendToLog d.forkDb count n).run d.blockLog <;> exact hI.write d _ _ _ _ hd

theorem applyInSession_keeps (hI : KeptByBlocks I) (skip : SkipFlags) (b : SignedBlock) :
    Keeps I (applyInSession skip b) := by
  have hlast : Keeps I (updateLastIrreversibleBlock skip) :=
    (objects_keeps hI _).bind fun _ => Keeps.get.bind fun _ => (modifyStore_keeps hI _).bind fun _ =>
      (Keeps.onlyIf fun _ => Keeps.get.bind fun _ => appendBlocks_keeps hI _ _).bind fun _ =>
        modifyForkDb_keeps fun d hd => hI.resize d _ hd
  exact withSession_keeps hI <|
    Keeps.bind (fun d hd => hI.write d _ _ _ _ hd) fun _ =>
      Keeps.bind (fun d hd => hI.write d _ _ _ _ hd) fun _ =>
        (objects_keeps hI _).bind fun _ => hlast.bind fun _ => objects_keeps hI _

/-- Pushing a transaction opens the session and lengthens the pending list. -/
theorem pushTransactionImpl_keeps {skip : SkipFlags} {tx : SignedTransaction}
    (hI : KeptByBlocks I) (hopen : ∀ d, I d → I { d with pendingSession := true })
    (hpush : ∀ d, I d → I { d with pendingTrx := d.pendingTrx ++ [tx] }) :
    Keeps I (pushTransactionImpl skip tx) := by
  have hsession : Keeps I (do
      modifyStore .start
      modify fun d => { d with pendingSession := true } : DbM Unit) :=
    (modifyStore_keeps hI _).bind fun _ => Keeps.modify hopen
  exact Keeps.get.bind fun _ => (Keeps.onlyIf fun _ => hsession).bind fun _ =>
    Keeps.get.bind fun _ => (withSession_keeps hI (objects_keeps hI _)).bind fun _ =>
      (Keeps.modify hpush).bind fun _ => modifyStore_keeps hI _

end BlockCode

/-- No pending transaction and no pending session. -/
def Idle (d : Database) : Prop := d.pendingSession = false ∧ d.pendingTrx = []

section Idle

theorem idle_keptByBlocks : KeptByBlocks Idle := ⟨fun _ _ _ _ _ hd => hd, fun _ _ hd => hd⟩

theorem resetPendingSession_keeps_idle : Keeps Idle resetPendingSession :=
  Keeps.modify fun d hd => by
    rw [if_neg (by simp [hd.1])]
    exact hd

theorem popBlock_keeps_idle : Keeps Idle popBlock := by
  refine resetPendingSession_keeps_idle.bind fun _ => Keeps.get.bind fun _ =>
    Keeps.get.bind fun _ => ?_
  split
  · exact .throw _
  · exact (forkDb_keeps fun _ _ _ _ hd => hd).bind fun _ =>
      (modifyStore_keeps idle_keptByBlocks _).bind fun _ => fun _ hd => hd

theorem popUntil_keeps_idle (id : BlockId) (rounds : Nat) : Keeps Idle (popUntil id rounds) := by
  induction rounds with
  | zero => exact .pure _
  | succ rounds ih =>
    exact Keeps.get.bind fun _ => Keeps.onlyIf fun _ => popBlock_keeps_idle.bind fun _ => ih

theorem applyBranch_keeps_idle (skip : SkipFlags) (old : Branch) (items : List ForkItem) :
    Keeps Idle (applyBranch skip old items) := by
  induction items with
  | nil => exact .pure _
  | cons i items ih =>
    refine Keeps.bind (((applyInSession_keeps idle_keptByBlocks _ _).bind fun _ => .pure _).tryCatch fun _ =>
      .pure _) fun exception => ?_
    split
    · exact (Keeps.forM fun _ _ => modifyForkDb_keeps fun _ hd => hd).bind fun _ =>
        (modifyForkDb_keeps fun _ hd => hd).bind fun _ => Keeps.get.bind fun _ =>
          (popUntil_keeps_idle _ _).bind fun _ =>
            (Keeps.forM fun _ _ => applyInSession_keeps idle_keptByBlocks _ _).bind fun _ => .throw _
    · exact ih

/-- `_push_block` leaves the pending transactions alone. -/
theorem pushBlockImpl_keeps_idle (skip : SkipFlags) (b : SignedBlock) :
    Keeps Idle (releaseItems (pushBlockImpl skip b)) := by
  have hpushed : Keeps Idle (applyPushed skip b) :=
    ((applyInSession_keeps idle_keptByBlocks _ _).bind fun _ => .pure _).tryCatch fun _ =>
      (modifyForkDb_keeps fun _ hd => hd).bind fun _ => .throw _
  have hswitch : ∀ i, Keeps Idle (switchForks skip i) := fun i =>
    Keeps.get.bind fun _ => (forkDb_keeps fun _ _ _ _ hd => hd).bind fun _ =>
      (modifyForkDb_keeps fun _ hd => hd).bind fun _ => Keeps.get.bind fun _ =>
        (popUntil_keeps_idle _ _).bind fun _ => applyBranch_keeps_idle _ _ _
  have hpush : Keeps Idle (pushBlockImpl skip b) :=
    Keeps.ite ((forkDb_keeps fun _ _ _ _ hd => hd).bind fun i => Keeps.get.bind fun _ =>
      Keeps.ite (Keeps.get.bind fun _ => Keeps.ite (hswitch i) (.pure _)) hpushed) hpushed
  exact (hpush.tryCatch fun _ => (modifyForkDb_keeps fun _ hd => hd).bind fun _ => .throw _).bind fun _ =>
    (modifyForkDb_keeps fun _ hd => hd).bind fun _ => .pure _

end Idle

/-- `without_pengding_transactions` runs its lambda on the settled database, and puts pending
transactions over the outcome. -/
theorem run_withoutPendingTransactions {α : Type} (skip : SkipFlags) (f : DbM α) (d : Database) :
    (withoutPendingTransactions skip f).run d =
      match f.run d.settled with
      | .ok a c => .ok a (c.repended skip d.pendingTrx)
      | .error e c => .error e (c.repended skip d.pendingTrx) := by
  have hreset : resetPendingSession.run { d with pendingTrx := [] } = .ok () d.settled :=
    run_resetPendingSession { d with pendingTrx := [] }
  simp only [withoutPendingTransactions, EStateM.run_bind, EStateM.run_get,
    EStateM.run_modify, hreset, run_tryCatch]
  cases f.run d.settled <;> simp only [run_restorePending] <;> rfl

theorem run_pushBlock_flags (skip : SkipFlags) (b : SignedBlock) (d : Database) :
    (pushBlock skip b).run d =
      match (releaseItems (pushBlockImpl skip b)).run d.settled with
      | .ok a c => .ok a (c.repended skip d.pendingTrx)
      | .error e c => .error e (c.repended skip d.pendingTrx) := by
  rw [pushBlock, run_withoutPendingTransactions]
  cases (releaseItems (pushBlockImpl skip b)).run d.settled <;> rfl

theorem run_pushBlock (b : SignedBlock) (d : Database) :
    (pushBlock skipNothing b).run d =
      match (releaseItems (pushBlockImpl skipNothing b)).run d.settled with
      | .ok a c => .ok a (c.repended skipNothing d.pendingTrx)
      | .error e c => .error e (c.repended skipNothing d.pendingTrx) :=
  run_pushBlock_flags skipNothing b d

/-- The settled database after `push_block`. -/
def Database.afterBlock (c : Database) (b : SignedBlock) : Database :=
  finalState ((releaseItems (pushBlockImpl skipNothing b)).run c)

theorem over_pushBlock (b : SignedBlock) (hd : d.settled = c) :
    Over (c.afterBlock b) (finalState ((pushBlock skipNothing b).run d)) := by
  have hidle := pushBlockImpl_keeps_idle skipNothing b d.settled ⟨rfl, rfl⟩
  rw [run_pushBlock, ← hd, Database.afterBlock]
  cases hrun : (releaseItems (pushBlockImpl skipNothing b)).run d.settled <;>
    rw [hrun] at hidle <;> exact over_repended hidle.1 hidle.2 _

/-! ## Generating a block -/

/-- The bytes the transactions of a list take. -/
def packSizes (trxs : List SignedTransaction) : Nat := (trxs.map (·.packSize)).sum

/-- How collecting from `trxs` ends in the open session of `d`: transactions of the list are added
to those already taken, in their order, no more and no larger than allowed; they apply one after the
other, and the objects are what they make of them. -/
def Collected (skip : SkipFlags) (d : Database) (trxs : List SignedTransaction) (size count : Nat)
    (taken : List SignedTransaction) (r : Result Exc Database (List SignedTransaction)) : Prop :=
  ∃ new o, r = .ok (taken ++ new) { d with store := d.store.put o } ∧
    new.Sublist trxs ∧
    (forM new (applyTransactionImpl skip d.currentBlockNum)).run d.store.content = .ok () o ∧
    new.length ≤ count ∧ (new = [] ∨ size + packSizes new < maxBlockSize)

section Collected

variable {skip : SkipFlags} {trxs taken : List SignedTransaction} {size count : Nat}
  {r : Result Exc Database (List SignedTransaction)}

/-- Nothing more is taken. -/
theorem Collected.stop : Collected skip d trxs size count taken (.ok taken d) :=
  ⟨[], d.store.content, by simp, List.nil_sublist _, rfl, Nat.zero_le _, .inl rfl⟩

/-- A transaction that is passed over leaves no trace. -/
theorem Collected.pass (h : Collected skip d trxs size count taken r) (tx : SignedTransaction) :
    Collected skip d (tx :: trxs) size count taken r := by
  obtain ⟨new, o, hrun, hnew, hrest⟩ := h
  exact ⟨new, o, hrun, hnew.cons tx, hrest⟩

/-- A transaction that applies is taken first. -/
theorem Collected.take {tx : SignedTransaction} {o : Objects} (hcount : count ≠ 0)
    (hsize : ¬ maxBlockSize ≤ size + tx.packSize)
    (happly : (applyTransactionImpl skip d.currentBlockNum tx).run d.store.content = .ok () o)
    (h : Collected skip { d with store := d.store.put o } trxs (size + tx.packSize) (count - 1)
      (taken ++ [tx]) r) : Collected skip d (tx :: trxs) size count taken r := by
  obtain ⟨new, o', hrun, hnew, hrest, hlen, hbytes⟩ := h
  refine ⟨tx :: new, o', by simpa using hrun, hnew.cons_cons tx,
    bind_eq_ok.mpr ⟨(), o, happly, hrest⟩, ?_, .inr ?_⟩
  · simp only [List.length_cons]
    omega
  · rcases hbytes with rfl | hbytes
    · simp only [packSizes, List.map_cons, List.map_nil, List.sum_cons, List.sum_nil]
      omega
    · simp only [packSizes, List.map_cons, List.sum_cons] at hbytes ⊢
      omega

end Collected

/-- `collectTransactions` cannot throw. -/
theorem run_collectTransactions (skip : SkipFlags) (now : TimePointSec)
    (trxs : List SignedTransaction) (size count : Nat) (taken : List SignedTransaction)
    (h : d.store.frames ≠ []) :
    Collected skip d trxs size count taken
      ((collectTransactions skip now trxs size count taken).run d) := by
  induction trxs generalizing d size count taken with
  | nil => exact .stop
  | cons tx trxs ih =>
    simp only [collectTransactions]
    split
    · exact (ih size count taken h).pass tx
    split
    · exact .stop
    split
    · exact .stop
    rename_i hcount hsize
    obtain ⟨f, fs, hframes⟩ := List.exists_cons_of_ne_nil h
    have hstart : d.store.start.content = d.store.content := rfl
    simp only [EStateM.run_bind, EStateM.run_get, run_tryCatch, run_withSession, run_objects,
      hstart]
    cases happly : (applyTransactionImpl skip d.currentBlockNum tx).run d.store.content with
    | error e o =>
      simp only [withObjects, Snapshots.undo_put_start]
      exact (ih size count taken h).pass tx
    | ok _ o =>
      simp only [withObjects, modifyStore, EStateM.run_modify, Snapshots.squash_put_start hframes]
      exact .take hcount hsize happly
        (ih (d := { d with store := d.store.put o }) (size + tx.packSize) (count - 1)
          (taken ++ [tx]) h)

omit [Node] in
/-- The number of transactions `_generate_block` takes is written in at most two bytes. -/
theorem varintSize_le {n : Nat} (h : n ≤ 3000) : varintSize 4 n ≤ 2 := by
  simp only [varintSize]
  split
  · omega
  · rw [if_pos (by omega)]

/-- The database in which `_generate_block` tries the pending transactions. -/
def Database.drafting (d : Database) : Database :=
  { d.settled with
    store := d.settled.store.start
    pendingTrx := d.pendingTrx
    pendingSession := true }

/-- The transactions `_generate_block` takes. -/
def takenTransactions (now : TimePointSec) (d : Database) : List SignedTransaction :=
  match (collectTransactions skipNothing now d.pendingTrx (headerPackSize + 4) 3000 []).run
    d.drafting with
  | .ok trxs _ => trxs
  | .error _ _ => []

/-- The block `_generate_block` makes. -/
def generatedBlock (now : TimePointSec) (producer : AccountName) (key : PrivateKey)
    (d : Database) : SignedBlock :=
  let header : BlockHeader :=
    { timestamp := now
      producer
      transactionMerkleRoot := merkleRoot (takenTransactions now d)
      previous := d.settled.headBlockId
      version := 1 }
  { header with
    producerSignature := Env.signCompact key (Env.headerDigest header)
    transactions := takenTransactions now d }

/-- Collecting leaves a database whose pending session can be reset. -/
theorem run_collect_drafting (now : TimePointSec) (d : Database) :
    ∃ d', (collectTransactions skipNothing now d.pendingTrx (headerPackSize + 4) 3000 []).run
        d.drafting = .ok (takenTransactions now d) d' ∧
      resetPendingSession.run d' = .ok () { d.settled with pendingTrx := d.pendingTrx } ∧
      (takenTransactions now d).length ≤ 3000 ∧
      (takenTransactions now d = [] ∨
        headerPackSize + 4 + packSizes (takenTransactions now d) < maxBlockSize) := by
  obtain ⟨new, o, hrun, -, -, hlen, hbytes⟩ := run_collectTransactions (d := d.drafting)
    skipNothing now d.pendingTrx (headerPackSize + 4) 3000 [] (List.cons_ne_nil _ _)
  have htaken : takenTransactions now d = new := by
    simp only [takenTransactions, hrun, List.nil_append]
  refine ⟨_, by rw [htaken, hrun, List.nil_append], ?_, htaken ▸ hlen, htaken ▸ hbytes⟩
  rw [run_resetPendingSession]
  simp only [Database.settled, Database.drafting, if_true, Snapshots.undo_put_start]

/-- A generated block is never too large. -/
theorem generatedBlock_packSize (now : TimePointSec) (producer : AccountName) (key : PrivateKey)
    (d : Database) : (generatedBlock now producer key d).packSize ≤ maxBlockSize := by
  obtain ⟨d', -, -, hlen, hbytes⟩ := run_collect_drafting now d
  have hvarint := varintSize_le hlen
  simp only [SignedBlock.packSize, generatedBlock]
  rcases hbytes with hnil | hbytes
  · simp [hnil, headerPackSize, varintSize, maxBlockSize]
  · simp only [packSizes] at hbytes
    omega

/-- A block is composed, which cannot throw, on a database without a pending session. -/
theorem run_composeBlock (now : TimePointSec) (producer : AccountName) (key : PrivateKey)
    (d : Database) :
    (composeBlock skipNothing now producer key).run d =
      .ok (generatedBlock now producer key d) { d.settled with pendingTrx := d.pendingTrx } := by
  obtain ⟨d₂, hcollect, hreset, -⟩ := run_collect_drafting now d
  obtain ⟨d₁, hd₁⟩ : ∃ d₁ : Database, { d.settled with pendingTrx := d.pendingTrx } = d₁ :=
    ⟨_, rfl⟩
  have hfirst : resetPendingSession.run d = .ok () d₁ := hd₁ ▸ run_resetPendingSession d
  have hdraft : ({ d₁ with store := d₁.store.start, pendingSession := true } : Database) =
      d.drafting := hd₁ ▸ rfl
  have hpending : d.drafting.pendingTrx = d.pendingTrx := rfl
  have hhead : d₁.headBlockId = d.settled.headBlockId := hd₁ ▸ rfl
  have hsign : skipNothing.has skipProducerSignature = false := by decide
  have hsize : (!skipNothing.has skipBlockSizeCheck) = true := by decide
  have hfits := generatedBlock_packSize now producer key d
  simp only [generatedBlock] at hfits
  simp only [composeBlock, EStateM.run_bind, hfirst, modifyStore,
    EStateM.run_modify, EStateM.run_get, hdraft, hpending, hcollect, hreset, hd₁, hhead,
    run_onlyIf, hsize, if_true, run_fcAssert, hsign, Bool.false_eq_true, if_false, if_pos hfits,
    EStateM.run_pure, generatedBlock]

/-- `generate_block` assembles a block, which cannot throw, and pushes it. -/
theorem run_generateBlock (now : TimePointSec) (producer : AccountName) (key : PrivateKey)
    (d : Database) :
    (generateBlock skipNothing now producer key).run d =
      let block := generatedBlock now producer key d
      match (pushBlock skipNothing block).run { d.settled with pendingTrx := d.pendingTrx } with
      | .ok _ d' => .ok block d'
      | .error e d' => .error e d' := by
  simp only [generateBlock, generateBlockImpl, EStateM.run_bind, run_composeBlock]
  generalize EStateM.run (pushBlock skipNothing _) _ = r
  cases r <;> rfl

/-! ## Runs -/

/-- The databases reached from genesis by pushing transactions, pushing blocks and generating
blocks, returning or throwing, each with the settled database reached by the blocks alone. -/
inductive HeadRun : Database → Database → Prop
  | genesis : HeadRun .genesis .genesis
  | pushTransaction {c d : Database} (t : SignedTransaction) : HeadRun c d →
      HeadRun c (finalState ((pushTransaction skipNothing t).run d))
  | pushBlock {c d : Database} (b : SignedBlock) : HeadRun c d →
      HeadRun (c.afterBlock b) (finalState ((pushBlock skipNothing b).run d))
  | generateBlock {c d : Database} (now : TimePointSec) (producer : AccountName)
      (key : PrivateKey) : HeadRun c d →
      HeadRun (c.afterBlock (generatedBlock now producer key d))
        (finalState ((generateBlock skipNothing now producer key).run d))

theorem HeadRun.over {c d : Database} (h : HeadRun c d) : Over c d := by
  induction h with
  | genesis => exact ⟨.of_idle rfl rfl, Database.settled_of_idle rfl rfl⟩
  | pushTransaction t _ ih => exact pushTransactionImpl_keeps_over t _ ih
  | pushBlock b _ ih => exact over_pushBlock b ih.2
  | @generateBlock c d now producer key _ ih =>
    rw [run_generateBlock]
    have hpush := over_pushBlock (c := c) (generatedBlock now producer key d)
      (d := { d.settled with pendingTrx := d.pendingTrx }) (by rw [← ih.2]; rfl)
    cases hrun : (NewsChain.pushBlock skipNothing (generatedBlock now producer key d)).run
        { d.settled with pendingTrx := d.pendingTrx } <;>
      (rw [hrun] at hpush; simp only [hrun]; exact hpush)

/-- What holds of the pending transactions of `d` over the head state `head`. -/
structure PendingOk (head : Objects) (d : Database) : Prop where
  nodup : (d.pendingTrx.map (·.id)).Nodup
  applied : (applyTransactions d.currentBlockNum d.pendingTrx).run head = .ok () d.store.content
  reset : (finalState (resetPendingSession.run d)).store.content = head
  throws : ∀ t e d', (pushTransaction skipNothing t).run d = .error e d' →
    d'.store.content = d.store.content ∧ d'.pendingTrx = d.pendingTrx

/-- **The pending state.** After every call, the pending transactions have distinct ids, the
present objects are what they make of the head state, resetting the session brings the head state
back, and pushing a transaction that throws changes neither. -/
theorem headRun_pendingOk {c d : Database} (h : HeadRun c d) : PendingOk c.store.content d := by
  obtain ⟨hpending, rfl⟩ := h.over
  refine ⟨applyTransactions_nodup hpending.applied, hpending.applied, ?_, fun t => ?_⟩
  · rw [run_resetPendingSession]
    rfl
  · exact (hpending.pushTransactionImpl t).2.2

end Calls

/-- After a transfer of one unit is pushed at genesis, it is what separates the two states. -/
theorem headRun_pendingOk_unitTransfer :
    @PendingOk smallNode (@Database.store smallNode (@Database.genesis smallNode)).content
      (finalState ((@pushTransaction smallNode skipNothing (unitTransfer 10)).run
        (@Database.genesis smallNode))) :=
  @headRun_pendingOk smallNode _ _
    (@HeadRun.pushTransaction smallNode _ _ (unitTransfer 10) (@HeadRun.genesis smallNode))

end NewsChain
