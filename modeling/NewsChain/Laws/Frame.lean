import NewsChain.Chain.Evaluator

/-!
# What the object code leaves alone

A transaction writes the five growing indexes and nothing else; its checks write nothing. Each
statement here is about an arbitrary invariant: it is kept when it is kept by a write to each index
the code writes.
-/

namespace NewsChain

variable {I : Objects → Prop} {V : Type} [Indexed V]

namespace Keeps

theorem create (col : Column V) {v : V} (h : ∀ o c, I o → I (col.set c o)) :
    Keeps I (create col v) := by
  intro o ho
  rw [run_create]
  split
  · exact h o _ ho
  · exact ho

theorem getAccount {name : AccountName} : Keeps I (getAccount name) :=
  Keeps.get.bind fun o => by
    split
    · exact .pure _
    · exact .throw _

theorem assetAdd {a b : Asset} : Keeps I (a.add b) := Keeps.fcAssert.bind fun _ => .pure _
theorem assetSub {a b : Asset} : Keeps I (a.sub b) := Keeps.fcAssert.bind fun _ => .pure _
theorem assetGe {a b : Asset} : Keeps I (a.ge b) := Keeps.fcAssert.bind fun _ => .pure _

end Keeps

/-- Writes to these indexes keep the invariant. -/
structure KeptByAccounts (I : Objects → Prop) : Prop where
  accounts : ∀ o c, I o → I { o with accounts := c }
  authorities : ∀ o c, I o → I { o with authorities := c }

/-- Writes to a balance keep the invariant. -/
def KeptByBalances (I : Objects → Prop) : Prop :=
  ∀ o i f, I o → I { o with accounts := o.accounts.modify i (setBalance f) }

/-- Writes to these indexes keep the invariant. -/
structure KeptByHistory (I : Objects → Prop) : Prop where
  operations : ∀ o c, I o → I { o with operations := c }
  accountHistory : ∀ o c, I o → I { o with accountHistory := c }

theorem sumTransfers_keeps (entries : List (AccountName × Asset)) (sum : Asset) :
    Keeps I (sumTransfers entries sum) := by
  induction entries generalizing sum with
  | nil => exact .pure _
  | cons e rest ih =>
    exact Keeps.getAccount.bind fun _ => Keeps.assetAdd.bind fun s => ih s

theorem KeptByBalances.setBalance (h : KeptByBalances I) (i : Nat) (f : Asset → Asset) :
    Keeps I (modifyRow .accounts i (NewsChain.setBalance f)) := fun o ho => h o i f ho

theorem creditTransfers_keeps (h : KeptByBalances I) (entries : List (AccountName × Asset)) :
    Keeps I (creditTransfers entries) := by
  induction entries with
  | nil => exact .pure _
  | cons e rest ih =>
    exact Keeps.getAccount.bind fun _ => Keeps.assetAdd.bind fun _ =>
      (h.setBalance _ _).bind fun _ => ih

/-- A transfer writes balances. -/
theorem transfer_keeps (h : KeptByBalances I) (o : TransferOperation) : Keeps I o.doApply :=
  Keeps.getAccount.bind fun _ => Keeps.getAccount.bind fun _ => Keeps.fcAssert.bind fun _ =>
    (h.setBalance _ _).bind fun _ => h.setBalance _ _

/-- So does a batch. -/
theorem transfers_keeps (h : KeptByBalances I) (o : TransfersOperation) : Keeps I o.doApply :=
  Keeps.getAccount.bind fun _ => (sumTransfers_keeps _ _).bind fun _ =>
    Keeps.assetGe.bind fun _ => Keeps.fcAssert.bind fun _ => Keeps.assetSub.bind fun _ =>
      (h.setBalance _ _).bind fun _ => creditTransfers_keeps h _

/-- An evaluator writes accounts and authorities. -/
theorem evaluate_keeps (h : KeptByAccounts I) (op : Operation) : Keeps I op.evaluate := by
  cases op with
  | createAccount o =>
    exact Keeps.get.bind fun _ => Keeps.fcAssert.bind fun _ => Keeps.fcAssert.bind fun _ =>
      Keeps.get.bind fun _ => (Keeps.create Column.accounts h.accounts).bind fun _ =>
        Keeps.create Column.authorities h.authorities
  | transfer o => exact transfer_keeps (fun o _ _ ho => h.accounts o _ ho) o
  | transfers o => exact transfers_keeps (fun o _ _ ho => h.accounts o _ ho) o

theorem operationValidate_keeps (op : Operation) : Keeps I op.validate := by
  cases op with
  | createAccount o => exact .pure _
  | transfer o => exact Keeps.fcAssert.bind fun _ => Keeps.fcAssert
  | transfers o =>
    exact Keeps.fcAssert.bind fun _ => Keeps.forM fun _ _ =>
      Keeps.fcAssert.bind fun _ => Keeps.fcAssert

theorem validate_keeps (t : Transaction) : Keeps I t.validate :=
  Keeps.fcAssert.bind fun _ => Keeps.forM fun op _ => operationValidate_keeps op

variable [Node]

theorem verifyAuthority_keeps (t : SignedTransaction) : Keeps I t.verifyAuthority := by
  refine Keeps.bind (Keeps.mapM fun s _ => ?_) fun pubs =>
    Keeps.bind (Keeps.mapM fun name _ => Keeps.get.bind fun o => ?_) fun used =>
      Keeps.forM fun _ _ => Keeps.fcAssert
  · split
    · exact .pure _
    · exact .throw _
  · split
    · exact .throw _
    · exact Keeps.fcAssert.bind fun _ => .pure _

/-- The checks of a transaction write nothing. -/
theorem checkTransaction_keeps (skip : SkipFlags) (trx : SignedTransaction) :
    Keeps I (checkTransaction skip trx) := by
  refine (Keeps.onlyIf fun _ => validate_keeps _).bind fun _ => Keeps.get.bind fun _ =>
    Keeps.fcAssert.bind fun _ => Keeps.get.bind fun _ => Keeps.bind (Keeps.onlyIf fun _ => ?_)
      fun _ => Keeps.onlyIf fun _ => verifyAuthority_keeps trx
  exact Keeps.bind (Keeps.onlyIf fun _ => Keeps.get.bind fun _ => Keeps.fcAssert) fun _ =>
    Keeps.get.bind fun _ => Keeps.fcAssert

omit [Node] in
theorem writeHistory_keeps (h : KeptByHistory I) (rows : List HistoryRow) :
    Keeps I (writeHistory rows) := by
  induction rows with
  | nil => exact .pure _
  | cons r rest ih =>
    cases r with
    | operation v =>
      exact (Keeps.create Column.operations h.operations).bind fun _ => ih
    | accountHistory v =>
      exact (Keeps.create Column.accountHistory h.accountHistory).bind fun _ => ih

/-- The handlers write history, and what they throw is caught. -/
theorem notify_keeps (h : KeptByHistory I) (note : OperationNotification) :
    Keeps I (notifyPostApplyOperation note) :=
  Keeps.get.bind fun _ => (writeHistory_keeps h _).tryCatch fun _ => .pure _

theorem applyOperations_keeps (ha : KeptByAccounts I) (hh : KeptByHistory I) (num : Nat)
    (id : TransactionId) (ops : List Operation) (i : UInt16) :
    Keeps I (applyOperations num id i ops) := by
  induction ops generalizing i with
  | nil => exact .pure _
  | cons op ops ih =>
    exact ((evaluate_keeps ha op).bind fun _ => notify_keeps hh _).bind fun _ => ih _

/-- Before its operations a transaction writes its own `transaction_object`. -/
theorem enterTransaction_keeps (ht : ∀ o c, I o → I { o with transactions := c })
    (skip : SkipFlags) (trx : SignedTransaction) : Keeps I (enterTransaction skip trx) :=
  (checkTransaction_keeps skip trx).bind fun _ =>
    Keeps.onlyIf fun _ => Keeps.create Column.transactions ht

/-- A transaction writes the growing indexes and nothing else. -/
theorem applyTransactionImpl_keeps (ht : ∀ o c, I o → I { o with transactions := c })
    (ha : KeptByAccounts I) (hh : KeptByHistory I) (skip : SkipFlags) (num : Nat)
    (trx : SignedTransaction) : Keeps I (applyTransactionImpl skip num trx) :=
  (enterTransaction_keeps ht skip trx).bind fun _ => applyOperations_keeps ha hh _ _ _ _

/-- So does a list of transactions. -/
theorem applyTransactions_keeps (ht : ∀ o c, I o → I { o with transactions := c })
    (ha : KeptByAccounts I) (hh : KeptByHistory I) (skip : SkipFlags) (num : Nat)
    (trxs : List SignedTransaction) : Keeps I (forM trxs (applyTransactionImpl skip num)) :=
  Keeps.forM fun _ _ => applyTransactionImpl_keeps ht ha hh _ _ _

/-! ## Hardforks -/

omit [Node] in
theorem applyHardforkImpl_keeps (h : ∀ o x, I o → I { o with hardfork := x }) (n : Nat) :
    Keeps I (applyHardforkImpl n) :=
  Keeps.get.bind fun _ => Keeps.fcAssert.bind fun _ => Keeps.get.bind fun _ =>
    Keeps.fcAssert.bind fun _ => (Keeps.modify fun o ho => h o _ ho).bind fun _ =>
      Keeps.get.bind fun _ => Keeps.fcAssert

omit [Node] in
theorem setHardfork_keeps (h : ∀ o x, I o → I { o with hardfork := x }) (n count i : Nat) :
    Keeps I (setHardfork n count i) := by
  induction count generalizing i with
  | zero => exact .pure _
  | succ count ih =>
    refine Keeps.ite ?_ (.pure _)
    exact Keeps.get.bind fun _ => (Keeps.modify fun o ho => h o _ ho).bind fun _ =>
      (applyHardforkImpl_keeps h i).bind fun _ => ih _

omit [Node] in
theorem processHardforks_keeps (h : ∀ o x, I o → I { o with hardfork := x }) (rounds : Nat) :
    Keeps I (processHardforks rounds) := by
  induction rounds with
  | zero => exact .pure _
  | succ rounds ih =>
    exact Keeps.get.bind fun _ => Keeps.get.bind fun _ =>
      Keeps.ite ((applyHardforkImpl_keeps h _).bind fun _ => ih) (.pure _)

omit [Node] in
theorem clearExpired_keeps (h : ∀ o c, I o → I { o with transactions := c }) (rounds : Nat) :
    Keeps I (clearExpired rounds) := by
  induction rounds with
  | zero => exact .pure _
  | succ rounds ih =>
    refine Keeps.get.bind fun o => ?_
    split
    · exact .pure _
    · refine Keeps.get.bind fun _ => Keeps.ite ?_ (.pure _)
      exact (Keeps.modify fun o ho => h o _ ho).bind fun _ => ih

end NewsChain
