import NewsChain.Chain.SharedMemory
import NewsChain.Laws.Pending

/-!
# The states operations reach

`Reached` is the least set of objects that holds genesis and is kept by an operation, applied or
refused, by its notification, and by whatever else a block or a transaction writes. What is undone
goes back to objects that were reached before, so nothing new comes of it: the present objects of a
database and those of every open session are among them (`anyRun_reached`), however many calls threw.

With the objects goes the history of the operations they have seen.
-/

namespace NewsChain

variable [Node]

/-- The objects that are reached, with the operations that were applied on the way, in their order. -/
inductive Reached : List OperationNotification → Objects → Prop
  | genesis : Reached [] genesis
  | operation {notes : List OperationNotification} {o o₁ : Objects} {note : OperationNotification} :
      Reached notes o → note.op.evaluate.run o = .ok () o₁ →
        Reached (notes ++ [note]) (finalState ((notifyPostApplyOperation note).run o₁))
  | refused {notes : List OperationNotification} {o o₁ : Objects} {op : Operation} {e : Exc} :
      Reached notes o → op.evaluate.run o = .error e o₁ → Reached notes o₁
  | write {notes : List OperationNotification} {o : Objects} (gpo : DynamicGlobalProperty)
      (blockSummary : UInt16 → BlockId) (transactions : Content TransactionObject)
      (hardfork : HardforkProperty) :
      Reached notes o → Reached notes { o with gpo, blockSummary, transactions, hardfork }

/-- Reached by some operations. -/
def IsReached (o : Objects) : Prop := ∃ notes, Reached notes o

section Steps

variable {J : Objects → Prop}

/-- What the object code of transactions and blocks keeps, from genesis on. -/
structure KeptBySteps (J : Objects → Prop) : Prop where
  genesis : J NewsChain.genesis
  transaction : ∀ skip num trx, Keeps J (applyTransactionImpl skip num trx)
  enterBlock : ∀ skip b, Keeps J (Objects.enterBlock skip b)
  raise : Keeps J raiseLastIrreversible
  leaveBlock : ∀ b, Keeps J (Objects.leaveBlock b)

/-! ## Steps that reach -/

variable {notes : List OperationNotification}

theorem keeps_isReached {α : Type} {m : ObjM α} (h : ∀ notes, Keeps (Reached notes) m) :
    Keeps IsReached m := by
  rintro o ⟨notes, ho⟩
  exact ⟨notes, h notes o ho⟩

theorem applyOperation_keeps_reached (num : Nat) (id : TransactionId) (i : UInt16) (op : Operation) :
    Keeps IsReached (applyOperation num id i op) := by
  rintro o ⟨notes, ho⟩
  rw [applyOperation, EStateM.run_bind]
  cases hrun : op.evaluate.run o with
  | ok _ o₁ =>
    let note : OperationNotification := ⟨op, id, num, i.toNat⟩
    have hevaluate : note.op.evaluate.run o = .ok () o₁ := hrun
    exact ⟨_, .operation ho hevaluate⟩
  | error e o₁ => exact ⟨_, .refused ho hrun⟩

theorem applyOperations_keeps_reached (num : Nat) (id : TransactionId) (ops : List Operation)
    (i : UInt16) : Keeps IsReached (applyOperations num id i ops) := by
  induction ops generalizing i with
  | nil => exact .pure _
  | cons op ops ih => exact (applyOperation_keeps_reached num id i op).bind fun _ => ih _

/-- Before its operations a transaction writes no more than its own row. -/
theorem enterTransaction_keeps_reached (skip : SkipFlags) (trx : SignedTransaction) :
    Keeps (Reached notes) (enterTransaction skip trx) :=
  enterTransaction_keeps (fun _ c => .write _ _ c _) skip trx

theorem applyTransactionImpl_keeps_reached (skip : SkipFlags) (num : Nat) (trx : SignedTransaction) :
    Keeps IsReached (applyTransactionImpl skip num trx) :=
  (keeps_isReached fun _ => enterTransaction_keeps_reached skip trx).bind fun _ =>
    applyOperations_keeps_reached _ _ _ _

/-- The genesis path of a first block. -/
theorem genesisHardforks_keeps_reached (b : SignedBlock) : Keeps (Reached notes)
    (onlyIf (b.blockNum = 1) do
      setHardfork (genesisHardforks b.timestamp) hardforkNum ((← get).hardfork.lastHardfork + 1)) :=
  Keeps.onlyIf fun _ => Keeps.get.bind fun _ => setHardfork_keeps (fun _ x => .write _ _ _ x) _ _ _

theorem leaveBlock_keeps_reached (b : SignedBlock) : Keeps (Reached notes) (Objects.leaveBlock b) :=
  (Keeps.modify fun _ ho => .write _ _ _ _ ho).bind fun _ =>
    (Keeps.get.bind fun _ => clearExpired_keeps (fun _ c => .write _ _ c _) _).bind fun _ =>
      processHardforks_keeps (fun _ x => .write _ _ _ x) _

/-- **The steps reach.** -/
theorem keptBySteps_isReached : KeptBySteps IsReached where
  genesis := ⟨[], .genesis⟩
  transaction := applyTransactionImpl_keeps_reached
  enterBlock _ b :=
    (keeps_isReached fun _ => genesisHardforks_keeps_reached b).bind fun _ =>
      (Keeps.onlyIf fun _ => Keeps.fcAssert).bind fun _ =>
        (Keeps.forM fun _ _ => applyTransactionImpl_keeps_reached _ _ _).bind fun _ =>
          keeps_isReached fun _ => Keeps.modify fun _ ho => .write _ _ _ _ ho
  raise := keeps_isReached fun _ => Keeps.modify fun _ ho => .write _ _ _ _ ho
  leaveBlock b := keeps_isReached fun _ => leaveBlock_keeps_reached b

end Steps

/-! ## A store throughout -/

/-- `J` holds of the present objects and of those of every open session. -/
structure Throughout (J : Objects → Prop) (d : Database) : Prop where
  content : J d.store.content
  saved : ∀ f ∈ d.store.frames, J f.saved

namespace Throughout

variable {J : Objects → Prop} {d : Database} {α : Type}

/-- Where no session is open. -/
theorem of_content {o : Objects} (h : J o) (hstore : d.store = { content := o }) :
    Throughout J d := by
  refine ⟨?_, fun f hf => ?_⟩
  · rw [hstore]
    exact h
  · rw [hstore] at hf
    exact absurd hf List.not_mem_nil

/-- The store is all that counts. -/
theorem of_store {d' : Database} (h : Throughout J d) (hstore : d'.store = d.store) :
    Throughout J d' := by
  refine ⟨?_, ?_⟩
  · rw [hstore]
    exact h.content
  · rw [hstore]
    exact h.saved

/-- Code that leaves the store alone. -/
theorem keeps_of_store {m : DbM α} (h : ∀ d, (finalState (m.run d)).store = d.store) :
    Keeps (Throughout J) m := fun d hd => hd.of_store (h d)

theorem keeps_modify {f : Database → Database} (h : ∀ d, (f d).store = d.store) :
    Keeps (Throughout J) (modify f : DbM Unit) := keeps_of_store h

theorem keeps_forkDb (f : ForkDatabase → Except Exc (α × ForkDatabase)) :
    Keeps (Throughout J) (forkDb f) := by
  refine keeps_of_store fun d => ?_
  show (finalState (forkDb f d)).store = _
  unfold forkDb
  split <;> rfl

theorem keeps_objects {m : ObjM α} (hm : Keeps J m) : Keeps (Throughout J) (objects m) := by
  intro d hd
  have hkept := hm _ hd.content
  rw [run_objects]
  cases hrun : m.run d.store.content <;> rw [hrun] at hkept <;> exact ⟨hkept, hd.saved⟩

/-! ## The operations of the store -/

theorem start (h : Throughout J d) : Throughout J { d with store := d.store.start } := by
  refine ⟨h.content, fun f hf => ?_⟩
  rcases List.mem_cons.mp hf with rfl | hf
  · exact h.content
  · exact h.saved f hf

theorem undo (h : Throughout J d) : Throughout J { d with store := d.store.undo } := by
  obtain ⟨hcontent, hsaved⟩ := h
  cases hframes : d.store.frames with
  | nil => simpa only [Snapshots.undo, hframes] using Throughout.mk hcontent hsaved
  | cons f fs =>
    rw [hframes] at hsaved
    refine ⟨?_, fun g hg => ?_⟩
    · simpa only [Snapshots.undo, hframes] using hsaved f List.mem_cons_self
    · simp only [Snapshots.undo, hframes] at hg
      exact hsaved g (List.mem_cons_of_mem _ hg)

theorem squash (h : Throughout J d) : Throughout J { d with store := d.store.squash } := by
  obtain ⟨hcontent, hsaved⟩ := h
  have hsub : d.store.squash.frames ⊆ d.store.frames ∧ d.store.squash.content = d.store.content := by
    unfold Snapshots.squash
    split
    · exact ⟨List.Subset.refl _, rfl⟩
    · exact ⟨List.nil_subset _, rfl⟩
    · rename_i hframes
      rw [hframes]
      exact ⟨List.subset_cons_self _ _, rfl⟩
  exact ⟨by rw [hsub.2]; exact hcontent, fun f hf => hsaved f (hsub.1 hf)⟩

theorem commit (h : Throughout J d) (r : Int) :
    Throughout J { d with store := d.store.commit r } :=
  ⟨h.content, fun f hf => h.saved f ((List.rdropWhile_prefix _ _).subset hf)⟩

theorem undoAll (h : Throughout J d) : Throughout J { d with store := d.store.undoAll } := by
  have hrounds : ∀ n, Throughout J { d with store := Snapshots.undo^[n] d.store } := by
    intro n
    induction n with
    | zero => exact h
    | succ n ih =>
      rw [Function.iterate_succ_apply']
      exact ih.undo
  exact hrounds _

theorem keeps_modifyStore {f : Snapshots Objects → Snapshots Objects}
    (h : ∀ d, Throughout J d → Throughout J { d with store := f d.store }) :
    Keeps (Throughout J) (modifyStore f) := h

theorem keeps_resetPendingSession : Keeps (Throughout J) resetPendingSession := by
  refine Keeps.modify fun d hd => ?_
  split
  · exact hd.undo.of_store rfl
  · exact hd

theorem keeps_withSession {m : DbM α} (hm : Keeps (Throughout J) m) :
    Keeps (Throughout J) (withSession m) :=
  (keeps_modifyStore fun _ => start).bind fun _ =>
    hm.tryCatch fun _ => (keeps_modifyStore fun _ => undo).bind fun _ => .throw _

/-! ## The calls -/

section Calls

variable (hJ : KeptBySteps J)

include hJ

theorem keeps_applyBlock (skip : SkipFlags) (b : SignedBlock) :
    Keeps (Throughout J) (applyBlock skip b) := by
  have hlog : ∀ count n, Keeps (Throughout J) (appendBlocks count n) := fun count n => by
    refine keeps_of_store fun d => ?_
    rw [run_appendBlocks]
    cases (appendToLog d.forkDb count n).run d.blockLog <;> rfl
  have hlast : Keeps (Throughout J) (updateLastIrreversibleBlock skip) :=
    (keeps_objects hJ.raise).bind fun _ => Keeps.get.bind fun _ =>
      (keeps_modifyStore fun _ h => h.commit _).bind fun _ =>
        (Keeps.onlyIf fun _ => Keeps.get.bind fun _ => hlog _ _).bind fun _ =>
          keeps_modify fun _ => by rfl
  exact (keeps_modify fun _ => by rfl).bind fun _ => (keeps_modify fun _ => by rfl).bind fun _ =>
    (keeps_objects (hJ.enterBlock skip b)).bind fun _ => hlast.bind fun _ =>
      keeps_objects (hJ.leaveBlock b)

theorem keeps_applyInSession (skip : SkipFlags) (b : SignedBlock) :
    Keeps (Throughout J) (applyInSession skip b) := keeps_withSession (keeps_applyBlock hJ skip b)

omit hJ in
theorem keeps_popBlock : Keeps (Throughout J) popBlock := by
  refine keeps_resetPendingSession.bind fun _ => Keeps.get.bind fun _ => Keeps.get.bind fun _ => ?_
  split
  · exact .throw _
  · exact (keeps_forkDb _).bind fun _ => (keeps_modifyStore fun _ => undo).bind fun _ =>
      keeps_modify fun _ => by rfl

omit hJ in
theorem keeps_popUntil (id : BlockId) (rounds : Nat) : Keeps (Throughout J) (popUntil id rounds) := by
  induction rounds with
  | zero => exact .pure _
  | succ rounds ih => exact Keeps.get.bind fun _ => Keeps.onlyIf fun _ => keeps_popBlock.bind fun _ => ih

theorem keeps_applyBranch (skip : SkipFlags) (old : Branch) (items : List ForkItem) :
    Keeps (Throughout J) (applyBranch skip old items) := by
  induction items with
  | nil => exact .pure _
  | cons i items ih =>
    refine Keeps.bind (((keeps_applyInSession hJ _ _).bind fun _ => .pure _).tryCatch fun _ =>
      .pure _) fun exception => ?_
    split
    · exact (Keeps.forM fun _ _ => keeps_modify fun _ => by rfl).bind fun _ =>
        (keeps_modify fun _ => by rfl).bind fun _ => Keeps.get.bind fun _ =>
          (keeps_popUntil _ _).bind fun _ =>
            (Keeps.forM fun _ _ => keeps_applyInSession hJ _ _).bind fun _ => .throw _
    · exact ih

theorem keeps_pushBlockImpl (skip : SkipFlags) (b : SignedBlock) :
    Keeps (Throughout J) (pushBlockImpl skip b) := by
  have hpushed : Keeps (Throughout J) (applyPushed skip b) :=
    ((keeps_applyInSession hJ _ _).bind fun _ => .pure _).tryCatch fun _ =>
      (keeps_modify fun _ => by rfl).bind fun _ => .throw _
  have hswitch : ∀ i, Keeps (Throughout J) (switchForks skip i) := fun i =>
    Keeps.get.bind fun _ => (keeps_forkDb _).bind fun _ => (keeps_modify fun _ => by rfl).bind fun _ =>
      Keeps.get.bind fun _ => (keeps_popUntil _ _).bind fun _ => keeps_applyBranch hJ _ _ _
  exact Keeps.ite ((keeps_forkDb _).bind fun _ => Keeps.get.bind fun _ =>
    Keeps.ite (Keeps.get.bind fun _ => Keeps.ite (hswitch _) (.pure _)) hpushed) hpushed

theorem keeps_pushTransactionImpl (skip : SkipFlags) (trx : SignedTransaction) :
    Keeps (Throughout J) (pushTransactionImpl skip trx) := by
  have hopen : Keeps (Throughout J) (do
      modifyStore .start
      modify fun d => { d with pendingSession := true } : DbM Unit) :=
    (keeps_modifyStore fun _ => start).bind fun _ => keeps_modify fun _ => by rfl
  exact Keeps.get.bind fun _ => (Keeps.onlyIf fun _ => hopen).bind fun _ => Keeps.get.bind fun _ =>
    (keeps_withSession (keeps_objects (hJ.transaction _ _ _))).bind fun _ =>
      (keeps_modify fun _ => by rfl).bind fun _ => keeps_modifyStore fun _ => squash

theorem keeps_restorePending (skip : SkipFlags) (trxs : List SignedTransaction) :
    Keeps (Throughout J) (restorePending skip trxs) := by
  have hagain : ∀ tx, Keeps (Throughout J) (pushAgain skip tx) := fun tx =>
    (Keeps.get.bind fun _ => Keeps.onlyIf fun _ => keeps_pushTransactionImpl hJ _ _).tryCatch
      fun _ => .pure _
  exact Keeps.get.bind fun _ => (Keeps.forM fun tx _ => hagain tx).bind fun _ =>
    Keeps.forM fun tx _ => hagain tx

theorem keeps_pushBlock (skip : SkipFlags) (b : SignedBlock) :
    Keeps (Throughout J) (pushBlock skip b) := by
  have hpush : Keeps (Throughout J) (releaseItems (pushBlockImpl skip b)) :=
    ((keeps_pushBlockImpl hJ skip b).tryCatch fun _ =>
      (keeps_modify fun _ => by rfl).bind fun _ => .throw _).bind fun _ =>
        (keeps_modify fun _ => by rfl).bind fun _ => .pure _
  exact Keeps.get.bind fun _ => (keeps_modify fun _ => by rfl).bind fun _ =>
    keeps_resetPendingSession.bind fun _ =>
      (hpush.tryCatch fun _ => (keeps_restorePending hJ _ _).bind fun _ => .throw _).bind fun _ =>
        (keeps_restorePending hJ _ _).bind fun _ => .pure _

theorem keeps_collectTransactions (skip : SkipFlags) (now : TimePointSec)
    (trxs : List SignedTransaction) (size count : Nat) (taken : List SignedTransaction) :
    Keeps (Throughout J) (collectTransactions skip now trxs size count taken) := by
  induction trxs generalizing size count taken with
  | nil => exact .pure _
  | cons tx rest ih =>
    have htry : ∀ num, Keeps (Throughout J) (tryCatch (do
        withSession (objects (applyTransactionImpl skip num tx))
        modifyStore .squash
        pure true) fun _ => pure false : DbM Bool) := fun num =>
      ((keeps_withSession (keeps_objects (hJ.transaction _ _ _))).bind fun _ =>
        (keeps_modifyStore fun _ => squash).bind fun _ => .pure _).tryCatch fun _ => .pure _
    exact Keeps.ite (ih _ _ _) <| Keeps.ite (.pure _) <| Keeps.ite (.pure _) <|
      Keeps.get.bind fun _ => (htry _).bind fun _ => Keeps.ite (ih _ _ _) (ih _ _ _)

theorem keeps_generateBlock (skip : SkipFlags) (now : TimePointSec) (producer : AccountName)
    (key : PrivateKey) : Keeps (Throughout J) (generateBlock skip now producer key) := by
  have hcompose : Keeps (Throughout J) (composeBlock skip now producer key) :=
    keeps_resetPendingSession.bind fun _ => (keeps_modifyStore fun _ => start).bind fun _ =>
      (keeps_modify fun _ => by rfl).bind fun _ => Keeps.get.bind fun _ =>
        (keeps_collectTransactions hJ _ _ _ _ _ _).bind fun _ =>
          keeps_resetPendingSession.bind fun _ => Keeps.get.bind fun _ =>
            (Keeps.onlyIf fun _ => Keeps.fcAssert).bind fun _ => .pure _
  exact hcompose.bind fun _ => (keeps_pushBlock hJ _ _).bind fun _ => .pure _

omit hJ in
theorem keeps_reopen : Keeps (Throughout J) reopen := by
  refine Keeps.bind (Keeps.modify fun d hd => hd.undoAll.of_store rfl) fun _ =>
    Keeps.get.bind fun d => Keeps.fcAssert.bind fun _ => Keeps.onlyIf fun _ => ?_
  split
  · exact .throw _
  · exact Keeps.fcAssert.bind fun _ => keeps_modify fun _ => by rfl

section Mapped

variable {Stored : Type}

/-- Of a database object with its memory, the database counts. -/
def Mapped (J : Objects → Prop) (s : MappedDatabase Stored) : Prop := Throughout J s.database

omit hJ in
theorem keeps_onDatabase {α : Type} {m : DbM α} (hm : Keeps (Throughout J) m) :
    Keeps (Mapped J) (onDatabase m : MappedM Stored α) := hm.onPart fun _ _ => rfl

omit hJ in
theorem keeps_onMemory {α : Type} (m : ChainbaseM Stored α) :
    Keeps (Mapped J) (onMemory m) := by
  apply Keeps.onPart_frame
  exact fun _ _ h => h

omit hJ in
theorem keeps_checkMemory (fresh : Stored) (freeMem : UInt64) :
    Keeps (Mapped J) (checkMemory fresh freeMem) :=
  Keeps.get.bind fun _ => keeps_onMemory _

theorem keeps_reindex (fresh : Stored) (args : OpenDbArgs) (stopReplayAt : Nat)
    (freeMem : Nat → UInt64) : Keeps (Mapped J) (reindex fresh args stopReplayAt freeMem) := by
  have hread : ∀ {β : Type} (f : BlockLog → Except Exc β),
      Keeps (Mapped J) (onDatabase (readLog f) : MappedM Stored β) :=
    fun f => keeps_onDatabase <| Keeps.get.bind fun _ => by
      split
      · exact .pure _
      · exact .throw _
  have happly : ∀ b, Keeps (Mapped J) (onDatabase (applyBlock reindexFlags b) : MappedM Stored Unit) :=
    fun b => keeps_onDatabase (keeps_applyBlock hJ _ _)
  have hreplay : ∀ last rounds itr, Keeps (Mapped J) (replay fresh freeMem last rounds itr) := by
    intro last rounds
    induction rounds with
    | zero => exact fun itr => .pure _
    | succ rounds ih =>
      intro itr
      apply Keeps.ite
      · exact (happly _).bind fun _ => (keeps_checkMemory _ _).bind fun _ => (hread _).bind fun _ =>
          ih _
      · exact .pure _
  have hrevision : ∀ r, Keeps (Mapped J) (onDatabase (setRevision r) : MappedM Stored Unit) :=
    fun r => keeps_onDatabase <| Keeps.get.bind fun _ => (Keeps.onlyIf fun _ => .throw _).bind fun _ =>
      keeps_modifyStore fun _ h => ⟨h.content, h.saved⟩
  have hfork : ∀ f, Keeps (Mapped J) (onDatabase (modifyForkDb f) : MappedM Stored Unit) :=
    fun f => keeps_onDatabase (keeps_modify fun _ => by rfl)
  have hwipe : Keeps (Throughout J)
      (modify fun d => { blockLog := d.blockLog, applied := d.applied } : DbM Unit) :=
    fun d _ => of_content hJ.genesis rfl
  have hopen : Keeps (Mapped J) (openMapped fresh args) :=
    (keeps_onMemory _).bind fun _ => (keeps_onDatabase keeps_reopen).bind fun _ => keeps_onMemory _
  exact (keeps_onMemory _).bind fun _ => (keeps_onDatabase hwipe).bind fun _ => hopen.bind fun _ =>
    (hfork _).bind fun _ => (hread _).bind fun _ => (hread _).bind fun _ => Keeps.get.bind fun _ =>
      (hreplay _ _ _).bind fun _ => (happly _).bind fun _ => Keeps.get.bind fun _ =>
        (hrevision _).bind fun _ => (Keeps.onlyIf fun _ => hfork _).bind fun _ => .pure _

end Mapped

end Calls

end Throughout

/-! ## Runs -/

/-- The databases after any calls with any flags, whether they return or throw. -/
inductive AnyRun : Database → Prop
  | genesis : AnyRun .genesis
  | pushTransaction {d : Database} (skip : SkipFlags) (trx : SignedTransaction) : AnyRun d →
      AnyRun (finalState ((pushTransaction skip trx).run d))
  | pushBlock {d : Database} (skip : SkipFlags) (b : SignedBlock) : AnyRun d →
      AnyRun (finalState ((pushBlock skip b).run d))
  | generateBlock {d : Database} (skip : SkipFlags) (now : TimePointSec) (producer : AccountName)
      (key : PrivateKey) : AnyRun d →
      AnyRun (finalState ((generateBlock skip now producer key).run d))
  | popBlock {d : Database} : AnyRun d → AnyRun (finalState (popBlock.run d))
  | reopen {d : Database} : AnyRun d → AnyRun (finalState (reopen.run d))
  | reindex {Stored : Type} {s : MappedDatabase Stored} (fresh : Stored) (args : OpenDbArgs)
      (stopReplayAt : Nat) (freeMem : Nat → UInt64) : AnyRun s.database →
      AnyRun (finalState ((reindex fresh args stopReplayAt freeMem).run s)).database

/-- **The rule of any run**: what the steps keep from genesis on holds throughout. -/
theorem AnyRun.throughout {J : Objects → Prop} (hJ : KeptBySteps J) {d : Database} (h : AnyRun d) :
    Throughout J d := by
  induction h with
  | genesis => exact .of_content hJ.genesis rfl
  | pushTransaction skip trx _ ih => exact Throughout.keeps_pushTransactionImpl hJ skip trx _ ih
  | pushBlock skip b _ ih => exact Throughout.keeps_pushBlock hJ skip b _ ih
  | generateBlock skip now producer key _ ih =>
    exact Throughout.keeps_generateBlock hJ skip now producer key _ ih
  | popBlock _ ih => exact Throughout.keeps_popBlock _ ih
  | reopen _ ih => exact Throughout.keeps_reopen _ ih
  | reindex fresh args stopReplayAt freeMem _ ih =>
    exact Throughout.keeps_reindex hJ fresh args stopReplayAt freeMem _ ih

/-- Every content a database can go back to is reached. -/
theorem anyRun_reached {d : Database} (h : AnyRun d) : Throughout IsReached d :=
  h.throughout keptBySteps_isReached

end NewsChain
