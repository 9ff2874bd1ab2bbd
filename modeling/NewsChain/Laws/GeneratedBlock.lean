import NewsChain.Laws.Pending

/-!
# Generated blocks are valid

`_generate_block` tries the pending transactions one after the other and undoes those that throw, so
those it takes apply in order from the head state. It does so under the number of the last block, and
before the hardforks a first block brings. Neither is read by a check: a transaction's number goes
to the handlers alone, and what they write is read by no check (`applyTransactionImpl_follows`).
-/

namespace NewsChain

/-- What no check of a transaction reads. -/
structure Unread where
  operations : Content OperationObject
  accountHistory : Content AccountHistoryObject
  hardfork : HardforkProperty

/-- The objects with other unread rows. -/
def Objects.beside (r : Unread) (o : Objects) : Objects :=
  { o with operations := r.operations, accountHistory := r.accountHistory, hardfork := r.hardfork }

/-! ## Transactions beside other history -/

section Evaluators

variable {V : Type} [Indexed V] {col : Column V}

/-- The column is not one of those no check reads. -/
structure Column.Read (col : Column V) : Prop where
  get : ∀ r o, col.get (Objects.beside r o) = col.get o
  set : ∀ r o c, col.set c (Objects.beside r o) = (col.set c o).beside r

theorem create_follows (hcol : col.Read) (v : V) :
    Follows Objects.beside (create col v) (create col v) := by
  intro o o' a h r
  rw [run_create] at h
  simp only [run_create, hcol.get, hcol.set]
  cases hv : (col.get o).emplace v with
  | none => simp [hv] at h
  | some c =>
    simp only [hv, EStateM.Result.ok.injEq] at h ⊢
    exact ⟨r, h.1, by rw [← h.2]⟩

theorem modifyRow_follows (hcol : col.Read) (i : Nat) (m : Modifier V) :
    Follows Objects.beside (modifyRow col i m) (modifyRow col i m) :=
  .modify fun r o => by rw [hcol.get, hcol.set]

theorem readAccounts : Column.accounts.Read := ⟨fun _ _ => rfl, fun _ _ _ => rfl⟩

theorem readAuthorities : Column.authorities.Read := ⟨fun _ _ => rfl, fun _ _ _ => rfl⟩

theorem readTransactions : Column.transactions.Read := ⟨fun _ _ => rfl, fun _ _ _ => rfl⟩

theorem getAccount_follows (name : AccountName) :
    Follows Objects.beside (getAccount name) (getAccount name) := by
  refine .read (fun _ _ => rfl) fun o => ?_
  split
  · exact .pure _
  · exact .throw _ _

theorem sumTransfers_follows (entries : List (AccountName × Asset)) (sum : Asset) :
    Follows Objects.beside (sumTransfers entries sum) (sumTransfers entries sum) := by
  induction entries generalizing sum with
  | nil => exact .pure _
  | cons e rest ih =>
    exact (getAccount_follows _).bind fun _ => (Follows.fcAssert.bind fun _ => .pure _).bind ih

theorem creditTransfers_follows (entries : List (AccountName × Asset)) :
    Follows Objects.beside (creditTransfers entries) (creditTransfers entries) := by
  induction entries with
  | nil => exact .pure _
  | cons e rest ih =>
    exact (getAccount_follows _).bind fun _ => (Follows.fcAssert.bind fun _ => .pure _).bind
      fun _ => (modifyRow_follows readAccounts _ _).bind fun _ => ih

theorem evaluate_follows (op : Operation) :
    Follows Objects.beside op.evaluate op.evaluate := by
  cases op with
  | createAccount o =>
    exact .read (fun _ _ => rfl) fun _ => Follows.fcAssert.bind fun _ => Follows.fcAssert.bind
      fun _ => .read (fun _ _ => rfl) fun _ => (create_follows readAccounts _).bind
        fun _ => create_follows readAuthorities _
  | transfer o =>
    exact (getAccount_follows _).bind fun _ => (getAccount_follows _).bind fun _ =>
      Follows.fcAssert.bind fun _ => (modifyRow_follows readAccounts _ _).bind
        fun _ => modifyRow_follows readAccounts _ _
  | transfers o =>
    exact (getAccount_follows _).bind fun _ => (sumTransfers_follows _ _).bind fun _ =>
      (Follows.fcAssert.bind fun _ => .pure _).bind fun _ => Follows.fcAssert.bind fun _ =>
        (Follows.fcAssert.bind fun _ => .pure _).bind fun _ =>
          (modifyRow_follows readAccounts _ _).bind fun _ => creditTransfers_follows _

theorem validate_follows (t : Transaction) : Follows Objects.beside t.validate t.validate := by
  refine Follows.fcAssert.bind fun _ => .forM fun op => ?_
  cases op with
  | createAccount o => exact .pure _
  | transfer o => exact Follows.fcAssert.bind fun _ => Follows.fcAssert
  | transfers o =>
    exact Follows.fcAssert.bind fun _ => .forM fun _ => Follows.fcAssert.bind fun _ =>
      Follows.fcAssert

end Evaluators

section Transactions

variable [Node]

theorem verifyAuthority_follows (t : SignedTransaction) :
    Follows Objects.beside t.verifyAuthority t.verifyAuthority := by
  refine .bind (.mapM fun s => ?_) fun pubs => .bind (.mapM fun name => .read (fun _ _ => rfl)
    fun o => ?_) fun used => .forM fun _ => Follows.fcAssert
  · split
    · exact .pure _
    · exact .throw _ _
  · split
    · exact .throw _ _
    · exact Follows.fcAssert.bind fun _ => .pure _

theorem enterTransaction_follows (skip : SkipFlags) (trx : SignedTransaction) :
    Follows Objects.beside (enterTransaction skip trx) (enterTransaction skip trx) := by
  have hcheck : Follows Objects.beside (checkTransaction skip trx) (checkTransaction skip trx) := by
    refine (Follows.onlyIf (validate_follows _)).bind fun _ => .read (fun _ _ => rfl) fun _ =>
      Follows.fcAssert.bind fun _ => .read (fun _ _ => rfl) fun _ => Follows.bind (.onlyIf ?_)
        fun _ => .onlyIf (verifyAuthority_follows trx)
    exact Follows.bind (.onlyIf (.read (fun _ _ => rfl) fun _ => Follows.fcAssert)) fun _ =>
      .read (fun _ _ => rfl) fun _ => Follows.fcAssert
  exact hcheck.bind fun _ => .onlyIf (create_follows readTransactions _)

/-- The handlers write only what no check reads, and what they throw is caught. -/
theorem notify_follows (note note' : OperationNotification) :
    Follows Objects.beside (notifyPostApplyOperation note) (notifyPostApplyOperation note') := by
  have hreturns : ∀ note o, ∃ r, (notifyPostApplyOperation note).run o =
      .ok () (Objects.beside r o) := by
    intro note o
    obtain ⟨r, hr⟩ := notify_keeps (I := fun s => ∃ r, s = Objects.beside r o)
      ⟨fun _ c ⟨r, h⟩ => ⟨{ r with operations := c }, by rw [h]; rfl⟩,
        fun _ c ⟨r, h⟩ => ⟨{ r with accountHistory := c }, by rw [h]; rfl⟩⟩ note o
      ⟨⟨o.operations, o.accountHistory, o.hardfork⟩, rfl⟩
    refine ⟨r, ?_⟩
    rw [← hr]
    simp only [notifyPostApplyOperation, EStateM.run_bind, EStateM.run_get, run_tryCatch]
    split <;> rfl
  intro o o' a h r
  obtain ⟨r₁, h₁⟩ := hreturns note o
  obtain ⟨r₂, h₂⟩ := hreturns note' (Objects.beside r o)
  rw [h₁] at h
  cases h
  exact ⟨r₂, h₂⟩

/-- A transaction that is applied can be applied beside any history, under any block number. -/
theorem applyTransactionImpl_follows (skip : SkipFlags) (num num' : Nat)
    (trx : SignedTransaction) :
    Follows Objects.beside (applyTransactionImpl skip num trx)
      (applyTransactionImpl skip num' trx) := by
  refine (enterTransaction_follows skip trx).bind fun _ => ?_
  have hops : ∀ (ops : List Operation) (i : UInt16), Follows Objects.beside
      (applyOperations num trx.id i ops) (applyOperations num' trx.id i ops) := by
    intro ops
    induction ops with
    | nil => exact fun _ => .pure _
    | cons op ops ih =>
      exact fun i => ((evaluate_follows op).bind fun _ => notify_follows _ _).bind fun _ => ih _
  exact hops trx.operations 0

/-! ## The block -/

/-- What `_apply_block` asks of the transactions of a block on the head objects `head`, and what
`_generate_block` promises of them. -/
structure ValidOn (head : Objects) (pending : List SignedTransaction) (b : SignedBlock) : Prop where
  taken : b.transactions.Sublist pending
  count : b.transactions.length ≤ 3000
  size : b.packSize ≤ maxBlockSize
  merkle : merkleRoot b.transactions = b.transactionMerkleRoot
  /-- Every transaction applies, whatever hardforks come before them. -/
  applies : ∀ x, Returned ((forM b.transactions (applyTransactionImpl skipNothing b.blockNum)).run
    { head with hardfork := x })
  /-- Nothing else in `_apply_block` throws where the hardforks are counted. -/
  enters : HardforkOk head → Returned ((Objects.enterBlock skipNothing b).run head)

/-- A block whose transactions apply and whose root is theirs is not refused. -/
theorem returned_enterBlock {o : Objects} {b : SignedBlock} {skip : SkipFlags} (h : HardforkOk o)
    (hmerkle : merkleRoot b.transactions = b.transactionMerkleRoot)
    (happlies : ∀ x, Returned ((forM b.transactions (applyTransactionImpl skip b.blockNum)).run
      { o with hardfork := x })) : Returned ((Objects.enterBlock skip b).run o) := by
  obtain ⟨x, hfork⟩ : ∃ x, (onlyIf (b.blockNum = 1) do
      setHardfork (genesisHardforks b.timestamp) hardforkNum
        ((← get).hardfork.lastHardfork + 1) : ObjM Unit).run o = .ok () { o with hardfork := x } := by
    rw [run_onlyIf]
    split
    · exact run_setHardfork h _ _ _ rfl
    · exact ⟨o.hardfork, rfl⟩
  obtain ⟨_, o₁, htrx⟩ := happlies x
  refine ⟨(), { o₁ with gpo := o₁.gpo.entered b }, ?_⟩
  unfold Objects.enterBlock
  refine bind_eq_ok.mpr ⟨(), _, hfork, bind_eq_ok.mpr ⟨(), _, ?_, bind_eq_ok.mpr ⟨(), _, htrx, rfl⟩⟩⟩
  simp only [run_onlyIf, run_fcAssert, hmerkle, if_true, ite_self]

/-- The transactions that are taken apply in order to the head objects. -/
theorem takenTransactions_apply (now : TimePointSec) (d : Database) :
    (takenTransactions now d).Sublist d.pendingTrx ∧
      Returned ((applyTransactions d.currentBlockNum (takenTransactions now d)).run
        d.settled.store.content) := by
  obtain ⟨new, o, hrun, hnew, happly, -⟩ := run_collectTransactions (d := d.drafting) skipNothing
    now d.pendingTrx (headerPackSize + 4) 3000 [] (List.cons_ne_nil _ _)
  have htaken : takenTransactions now d = new := by
    simp only [takenTransactions, hrun, List.nil_append]
  rw [htaken]
  exact ⟨hnew, (), o, happly⟩

/-- **Generated blocks are valid.** `_generate_block` makes a block of pending transactions, in
their order, within both bounds, and pushes it; on the head objects the block has the right merkle
root and every transaction applies. -/
theorem generateBlock_valid (now : TimePointSec) (producer : AccountName) (key : PrivateKey)
    (d : Database) :
    ∃ b, (generateBlock skipNothing now producer key).run d =
        (do let _ ← pushBlock skipNothing b; pure b : DbM SignedBlock).run
          { d.settled with pendingTrx := d.pendingTrx } ∧
      ValidOn d.settled.store.content d.pendingTrx b := by
  obtain ⟨hsublist, _, o, happly⟩ := takenTransactions_apply now d
  obtain ⟨-, -, -, hcount, -⟩ := run_collect_drafting now d
  refine ⟨generatedBlock now producer key d, ?_, ?_⟩
  · rw [run_generateBlock, EStateM.run_bind]
    cases hrun : (pushBlock skipNothing (generatedBlock now producer key d)).run
        { d.settled with pendingTrx := d.pendingTrx } with
    | ok _ d' =>
      simp only [hrun]
      rfl
    | error e d' => simp only [hrun]
  have happlies : ∀ x, Returned ((forM (generatedBlock now producer key d).transactions
      (applyTransactionImpl skipNothing (generatedBlock now producer key d).blockNum)).run
        { d.settled.store.content with hardfork := x }) := by
    intro x
    obtain ⟨r, hrun⟩ := Follows.forM (fun t => applyTransactionImpl_follows skipNothing
      d.currentBlockNum (generatedBlock now producer key d).blockNum t) _ _ _ happly
      ⟨d.settled.store.content.operations, d.settled.store.content.accountHistory, x⟩
    exact ⟨(), _, hrun⟩
  exact ⟨hsublist, hcount, generatedBlock_packSize now producer key d, rfl, happlies,
    fun h => returned_enterBlock h rfl happlies⟩

end Transactions

end NewsChain
