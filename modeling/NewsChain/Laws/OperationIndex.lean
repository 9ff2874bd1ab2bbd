import NewsChain.Chain.AccountHistory
import NewsChain.Laws.ChainRun
import NewsChain.Laws.Reached

/-!
# Transactions by their ids

With the account-history handler connected, the operation index lists the operations that were
applied, in their order (`Reached.recorded`). `get_transaction` goes to the first of an id, and the
first operation of a transaction is always at place 0, so that is where it looks in the block:
`getTransaction_iff` says when this is where the transaction stands.
-/

namespace NewsChain

/-! ## The index as a list -/

/-- A row without its time. -/
def OperationObject.untimed (v : OperationObject) : OperationObject := { v with timestamp := 0 }

/-- The rows are the notifications, in their order. -/
structure Recorded (notes : List OperationNotification) (c : Content OperationObject) : Prop where
  nextId : c.nextId = notes.length
  rows : ∀ j, (c.table.get? j).map (·.untimed) = notes[j]?.map (·.toObject 0)

namespace Recorded

variable {notes : List OperationNotification} {c c' : Content OperationObject}

theorem empty : Recorded [] .empty where
  nextId := rfl
  rows j := by
    rw [List.getElem?_nil]
    rfl

/-- A row is of a notification. -/
theorem note_of_row (h : Recorded notes c) {j : Nat} {v : OperationObject}
    (hv : c.table.get? j = some v) : ∃ note, notes[j]? = some note ∧ v.untimed = note.toObject 0 := by
  have hrow := h.rows j
  rw [hv, Option.map_some] at hrow
  obtain ⟨note, hnote, heq⟩ := Option.map_eq_some_iff.mp hrow.symm
  exact ⟨note, hnote, heq.symm⟩

/-- A notification has its row. -/
theorem row_of_note (h : Recorded notes c) {j : Nat} {note : OperationNotification}
    (hnote : notes[j]? = some note) :
    ∃ v, c.table.get? j = some v ∧ v.untimed = note.toObject 0 := by
  have hrow := h.rows j
  rw [hnote, Option.map_some] at hrow
  exact Option.map_eq_some_iff.mp hrow

theorem below (h : Recorded notes c) : c.Below := by
  intro j v hv
  obtain ⟨note, hnote, -⟩ := h.note_of_row hv
  rw [h.nextId]
  exact (List.getElem?_eq_some_iff.mp hnote).1

/-- The next notification finds its place free. -/
theorem emplace (h : Recorded notes c) (note : OperationNotification) (time : TimePointSec) :
    ∃ c', c.emplace (note.toObject time) = some c' ∧ Recorded (notes ++ [note]) c' := by
  have hclear : ∀ i w, c.table.get? i = some w → ¬ Clash (note.toObject time) w := by
    rintro i w - ⟨k, hk, -⟩
    exact absurd hk List.not_mem_nil
  obtain ⟨c', hc⟩ := h.below.emplace_isSome hclear
  refine ⟨c', hc, ?_, fun j => ?_⟩
  · obtain ⟨-, -, rfl⟩ := Content.emplace_eq_some.mp hc
    rw [List.length_append, ← h.nextId]
    rfl
  · rw [Content.get?_emplace hc]
    by_cases hj : j = c.nextId
    · rw [if_pos hj, hj, h.nextId, List.getElem?_concat_length]
      rfl
    · rw [if_neg hj, h.rows j]
      rw [h.nextId] at hj
      by_cases hlt : j < notes.length
      · rw [List.getElem?_append_left hlt]
      · rw [List.getElem?_eq_none (by omega), List.getElem?_eq_none]
        rw [List.length_append, List.length_singleton]
        omega

/-- `find` under an id stops at the row of the first notification with it. -/
theorem findBy (h : Recorded notes c) (id : TransactionId) :
    (c.table.findBy (·.trxId == id)).map (fun r => (r.2.block, r.2.trxInBlock)) =
      (notes.find? (·.trxId == id)).map fun note => (note.block, note.trxInBlock) := by
  have hid : ∀ {v : OperationObject} {note : OperationNotification},
      v.untimed = note.toObject 0 → v.trxId = note.trxId := fun heq =>
    congrArg OperationObject.trxId heq
  cases hfirst : notes.find? (·.trxId == id) with
  | none =>
    have hnone : c.table.findBy (·.trxId == id) = none := by
      refine Table.findBy_eq_none.mpr fun j v hv => ?_
      obtain ⟨note, hnote, heq⟩ := h.note_of_row hv
      rw [hid heq]
      simpa using List.find?_eq_none.mp hfirst note (List.mem_of_getElem? hnote)
    rw [hnone]
    rfl
  | some note =>
    obtain ⟨hnoteId, i, hi, hget, hbefore⟩ := List.find?_eq_some_iff_getElem.mp hfirst
    have hnote : notes[i]? = some note := by rw [List.getElem?_eq_getElem hi, hget]
    obtain ⟨v, hv, hveq⟩ := h.row_of_note hnote
    have hrow : c.table.findBy (·.trxId == id) = some (i, v) := by
      refine Table.findBy_eq_some_of_first hv ?_ fun j w hw hwid => ?_
      · rw [hid hveq]
        exact hnoteId
      · obtain ⟨other, hother, hweq⟩ := h.note_of_row hw
        obtain ⟨hj, hother⟩ := List.getElem?_eq_some_iff.mp hother
        by_contra hlt
        have hnot := hbefore j (by omega)
        rw [hother, ← hid hweq, hwid] at hnot
        cases hnot
    rw [hrow, Option.map_some, Option.map_some]
    have hplace : v.untimed.block = note.block ∧ v.untimed.trxInBlock = note.trxInBlock := by
      rw [hveq]
      exact ⟨rfl, rfl⟩
    rw [← hplace.1, ← hplace.2]
    rfl

end Recorded

/-! ## The handler connected -/

variable [Node]

/-- `on_pre_apply_operation` is what the node connects to the post-apply signal. -/
def HistoryConnected : Prop := ∀ note o, Node.postApply note o = historyRows note o

/-- What the handlers throw is caught. -/
theorem finalState_notify (note : OperationNotification) (o : Objects) :
    finalState ((notifyPostApplyOperation note).run o) =
      finalState ((writeHistory (Node.postApply note o)).run o) := by
  rw [notifyPostApplyOperation, EStateM.run_bind, EStateM.run_get]
  show finalState ((tryCatch (writeHistory (Node.postApply note o)) fun _ => pure ()).run o) = _
  rw [run_tryCatch]
  cases (writeHistory (Node.postApply note o)).run o <;> rfl

omit [Node] in
/-- Genesis has no history. -/
theorem genesis_history [Env] :
    genesis.operations = .empty ∧ genesis.accountHistory = .empty := by
  let Blank (o : Objects) : Prop := o.operations = .empty ∧ o.accountHistory = .empty
  have hsystem : Blank (finalState (initSystemAccounts.run .empty)) :=
    ⟨by decide +kernel, by decide +kernel⟩
  exact Keeps.after (I := Blank) hsystem fun _ =>
    (Keeps.forM fun _ _ => Keeps.create Column.authorities fun _ _ h => h).bind fun _ =>
      (Keeps.create Column.accounts fun _ _ h => h).bind fun _ =>
        (Keeps.create Column.authorities fun _ _ h => h).bind fun _ => Keeps.modify fun _ h => h

section Indexing

variable {notes : List OperationNotification} {o : Objects}

/-- The handler writes the row of its operation. -/
theorem Recorded.notify (hconnected : HistoryConnected) (h : Recorded notes o.operations)
    (note : OperationNotification) :
    Recorded (notes ++ [note]) (finalState ((notifyPostApplyOperation note).run o)).operations := by
  obtain ⟨c, hc, hrecorded⟩ := h.emplace note o.gpo.time
  have hcreate : (create .operations (note.toObject o.gpo.time)).run o =
      .ok () { o with operations := c } := by
    rw [run_create]
    simp only [Column.operations, hc]
  rw [finalState_notify, hconnected]
  -- The rest of the rows are account-history rows.
  have hrest : ∀ rows : List AccountName, Keeps (fun o => Recorded (notes ++ [note]) o.operations)
      (writeHistory (rows.map fun name =>
        .accountHistory { name, sequence := nextSequence o name, opId := o.operations.nextId })) := by
    intro rows
    induction rows with
    | nil => exact .pure _
    | cons name rows ih =>
      exact (Keeps.create Column.accountHistory fun _ _ h => h).bind fun _ => ih
  refine Keeps.after (m := create .operations (note.toObject o.gpo.time)) ?_ fun _ => hrest _
  rw [hcreate]
  exact hrecorded

/-- **The operation index is the list of the operations.** -/
theorem Reached.recorded (hconnected : HistoryConnected) (h : Reached notes o) :
    Recorded notes o.operations := by
  have hevaluate : ∀ notes op,
      Keeps (fun o => Recorded notes o.operations) (Operation.evaluate op) := fun notes op =>
    evaluate_keeps ⟨fun _ _ h => h, fun _ _ h => h⟩ op
  induction h with
  | genesis =>
    rw [genesis_history.1]
    exact .empty
  | operation _ hrun ih => exact Recorded.notify hconnected ((hevaluate _ _).of_ok ih hrun) _
  | refused _ hrun ih => exact (hevaluate _ _).of_error ih hrun
  | write _ _ _ _ _ ih => exact ih

/-- `get_transaction` looks where the first notification with the id says. -/
theorem getTransaction_eq {d : Database} (h : Recorded notes d.store.content.operations)
    (id : TransactionId) :
    d.getTransaction id =
      match notes.find? (·.trxId == id) with
      | none => .error (.assertion "unkown transaction")
      | some note =>
        match d.fetchBlockByNumber note.block with
        | none => .error (.assertion "block.valid()")
        | some block =>
          match block.transactions[note.trxInBlock]? with
          | none => .error (.assertion "block->transactions.size() > itr->trx_in_block")
          | some trx => .ok
              { trx with
                trxId := trx.id
                blockNum := note.block
                transactionNum := note.trxInBlock } := by
  have hfind := h.findBy id
  unfold Database.getTransaction
  generalize d.store.content.operations.table.findBy (·.trxId == id) = row at hfind ⊢
  generalize notes.find? (·.trxId == id) = found at hfind ⊢
  cases row with
  | none =>
    cases found with
    | none => rfl
    | some note => cases hfind
  | some r =>
    cases found with
    | none => cases hfind
    | some note =>
      obtain ⟨hblock, hplace⟩ := Prod.mk.inj (Option.some.inj hfind)
      obtain ⟨_, ⟨⟩⟩ := r
      cases hblock
      cases hplace
      rfl

end Indexing

/-! ## What a chain notifies of -/

omit [Node] in
/-- The notifications of a transaction's operations, from the `i`-th on. -/
def operationNotes (num : Nat) (id : TransactionId) :
    UInt16 → List Operation → List OperationNotification
  | _, [] => []
  | i, op :: ops => ⟨op, id, num, i.toNat⟩ :: operationNotes num id (i + 1) ops

/-- Those of transactions applied as part of block `num`. -/
def transactionNotes (num : Nat) (trxs : List SignedTransaction) : List OperationNotification :=
  trxs.flatMap fun t => operationNotes num t.id 0 t.operations

/-- Those of a chain, newest block first. -/
def chainNotes (chain : List SignedBlock) : List OperationNotification :=
  chain.reverse.flatMap fun b => transactionNotes b.blockNum b.transactions

section Steps

variable {notes : List OperationNotification} {o o' : Objects}

theorem Reached.operations_ok {num : Nat} {id : TransactionId} {ops : List Operation} {i : UInt16}
    (h : Reached notes o) (hrun : (applyOperations num id i ops).run o = .ok () o') :
    Reached (notes ++ operationNotes num id i ops) o' := by
  induction ops generalizing i notes o with
  | nil =>
    cases hrun
    rw [operationNotes, List.append_nil]
    exact h
  | cons op ops ih =>
    obtain ⟨_, o₁, hop, hrest⟩ := bind_eq_ok.mp hrun
    obtain ⟨_, o₂, hevaluate, hnotify⟩ := bind_eq_ok.mp hop
    let note : OperationNotification := ⟨op, id, num, i.toNat⟩
    have hevaluate : note.op.evaluate.run o = .ok () o₂ := hevaluate
    have hnotify : (notifyPostApplyOperation note).run o₂ = .ok () o₁ := hnotify
    have hnoted := Reached.operation h hevaluate
    rw [hnotify, finalState_ok] at hnoted
    have hrec := ih hnoted hrest
    rwa [List.append_assoc] at hrec

theorem Reached.transaction_ok {skip : SkipFlags} {num : Nat} {t : SignedTransaction}
    (h : Reached notes o) (hrun : (applyTransactionImpl skip num t).run o = .ok () o') :
    Reached (notes ++ operationNotes num t.id 0 t.operations) o' := by
  obtain ⟨_, o₁, henter, hops⟩ := bind_eq_ok.mp hrun
  exact ((enterTransaction_keeps_reached skip t).of_ok h henter).operations_ok hops

theorem Reached.transactions_ok {skip : SkipFlags} {num : Nat} {trxs : List SignedTransaction}
    (h : Reached notes o)
    (hrun : (forM trxs (applyTransactionImpl skip num)).run o = .ok () o') :
    Reached (notes ++ transactionNotes num trxs) o' := by
  induction trxs generalizing notes o with
  | nil =>
    cases hrun
    rw [transactionNotes, List.flatMap_nil, List.append_nil]
    exact h
  | cons t trxs ih =>
    obtain ⟨_, o₁, htrx, hrest⟩ := bind_eq_ok.mp hrun
    have hrec := ih (h.transaction_ok htrx) hrest
    rwa [List.append_assoc] at hrec

/-- A block notifies of the operations of its transactions. -/
theorem Reached.block_ok {skip : SkipFlags} {b : SignedBlock} (h : Reached notes o)
    (hrun : (Objects.applyBlock skip b).run o = .ok () o') :
    Reached (notes ++ transactionNotes b.blockNum b.transactions) o' := by
  obtain ⟨o₁, henter, hleave⟩ := applyBlock_eq_ok.mp hrun
  obtain ⟨x, o₂, htrxs, rfl⟩ := enterBlock_eq_ok henter
  have happlied := (Reached.write _ _ _ x h).transactions_ok htrxs
  exact (leaveBlock_keeps_reached b).of_ok (.write _ _ _ _ happlied) hleave

end Steps

/-- **The notes of a run**: what the present objects, and those it can go back to, have seen are the
operations of the chain. -/
theorem AppliedRun.reached {chain : List SignedBlock} {s : Snapshots Objects}
    (h : AppliedRun chain s) : s.Tracks (fun chain o => Reached (chainNotes chain) o) chain := by
  refine h.tracks .genesis fun chain o o' skip b hreached hrun => ?_
  have happlied := hreached.block_ok hrun
  rwa [chainNotes, List.reverse_cons, List.flatMap_append, List.flatMap_singleton]

/-! ## The first of an id -/

/-- The transaction has the id and an operation. -/
def SignedTransaction.actsAs (t : SignedTransaction) (id : TransactionId) : Bool :=
  t.id == id && !t.operations.isEmpty

/-- The oldest block of a chain with such a transaction. -/
def firstWith (chain : List SignedBlock) (id : TransactionId) : Option SignedBlock :=
  chain.reverse.find? fun b => b.transactions.any (·.actsAs id)

section First

theorem find?_operationNotes (id : TransactionId) (num : Nat) (t : SignedTransaction) :
    ((operationNotes num t.id 0 t.operations).find? (·.trxId == id)).map
      (fun note => (note.block, note.trxInBlock)) =
        if t.actsAs id = true then some (num, 0) else none := by
  have hnone : ∀ i ops, t.id ≠ id →
      (operationNotes num t.id i ops).find? (·.trxId == id) = none := by
    intro i ops hid
    induction ops generalizing i with
    | nil => rfl
    | cons op ops ih => rw [operationNotes, List.find?_cons_of_neg (by simpa using hid), ih]
  by_cases hid : t.id = id
  · cases hops : t.operations with
    | nil => simp [SignedTransaction.actsAs, operationNotes, hops]
    | cons op ops => simp [SignedTransaction.actsAs, operationNotes, hops, hid]
  · rw [hnone _ _ hid, if_neg (by simp [SignedTransaction.actsAs, hid])]
    rfl

/-- The first notification with an id is of place 0 in the first block with the id. -/
theorem find?_chainNotes (id : TransactionId) (chain : List SignedBlock) :
    ((chainNotes chain).find? (·.trxId == id)).map (fun note => (note.block, note.trxInBlock)) =
      (firstWith chain id).map fun b => (b.blockNum, 0) := by
  have htransactions : ∀ num trxs,
      ((transactionNotes num trxs).find? (·.trxId == id)).map
        (fun note => (note.block, note.trxInBlock)) =
          if trxs.any (·.actsAs id) = true then some (num, 0) else none := by
    intro num trxs
    induction trxs with
    | nil => rfl
    | cons t trxs ih =>
      rw [transactionNotes, List.flatMap_cons, List.find?_append, Option.map_or,
        find?_operationNotes, ← transactionNotes, ih, List.any_cons]
      cases t.actsAs id <;> simp
  unfold chainNotes firstWith
  induction chain.reverse with
  | nil => rfl
  | cons b blocks ih =>
    rw [List.flatMap_cons, List.find?_append, Option.map_or, htransactions, ih, List.find?_cons]
    cases b.transactions.any (·.actsAs id) <;> simp

end First

/-! ## Transactions by their ids -/

/-- A transaction with an operation stands at index `k` of a block of the chain that
`fetch_block_by_number` returns. -/
structure Included (chain : List SignedBlock) (d : Database) (b : SignedBlock) (k : Nat)
    (t : SignedTransaction) : Prop where
  block : b ∈ chain
  index : b.transactions[k]? = some t
  acts : t.operations ≠ []
  fetched : d.fetchBlockByNumber b.blockNum = some b

/-- `get_transaction` answers with the transaction, the number of the block and the index. -/
def Database.Locates (d : Database) (b : SignedBlock) (k : Nat) (t : SignedTransaction) : Prop :=
  d.getTransaction t.id =
    .ok { t with trxId := t.id, blockNum := b.blockNum, transactionNum := k }

/-- Transactions applied on top, each for itself. -/
def applyPending (pending : List (SkipFlags × Nat × SignedTransaction)) : ObjM Unit :=
  forM pending fun p => applyTransactionImpl p.1 p.2.1 p.2.2

theorem Reached.pending_ok {notes : List OperationNotification} {o o' : Objects}
    {pending : List (SkipFlags × Nat × SignedTransaction)} (h : Reached notes o)
    (hrun : (applyPending pending).run o = .ok () o') : ∃ more, Reached (notes ++ more) o' := by
  induction pending generalizing notes o with
  | nil =>
    cases hrun
    exact ⟨[], by rwa [List.append_nil]⟩
  | cons p pending ih =>
    obtain ⟨_, o₁, htrx, hrest⟩ := bind_eq_ok.mp hrun
    obtain ⟨more, hmore⟩ := ih (h.transaction_ok htrx) hrest
    exact ⟨_, by rwa [List.append_assoc] at hmore⟩

/-- **What `get_transaction` finds** on a chain, with transactions pending or not: the transaction
that stands first in its block, where no older block of another number has one of the same id. -/
theorem getTransaction_iff (hconnected : HistoryConnected) {chain : List SignedBlock}
    {s : Snapshots Objects} (hrun : AppliedRun chain s) {d : Database}
    {pending : List (SkipFlags × Nat × SignedTransaction)}
    (hpending : (applyPending pending).run s.content = .ok () d.store.content) {b : SignedBlock}
    {k : Nat} {t : SignedTransaction} (h : Included chain d b k t) :
    d.Locates b k t ↔ k = 0 ∧ (firstWith chain t.id).map (·.blockNum) = some b.blockNum := by
  obtain ⟨more, hreached⟩ := hrun.reached.content.pending_ok hpending
  have hacts : t.actsAs t.id = true := by simp [SignedTransaction.actsAs, h.acts]
  have hany : b.transactions.any (·.actsAs t.id) = true :=
    List.any_eq_true.mpr ⟨t, List.mem_of_getElem? h.index, hacts⟩
  obtain ⟨first, hfirst⟩ : ∃ first, firstWith chain t.id = some first :=
    Option.isSome_iff_exists.mp
      (List.find?_isSome.mpr ⟨b, List.mem_reverse.mpr h.block, hany⟩)
  have hfound := find?_chainNotes t.id chain
  rw [hfirst, Option.map_some] at hfound
  obtain ⟨note, hnote, hplace⟩ := Option.map_eq_some_iff.mp hfound
  obtain ⟨hblock, hzero⟩ := Prod.mk.inj hplace
  have hnotes : (chainNotes chain ++ more).find? (·.trxId == t.id) = some note := by
    rw [List.find?_append, hnote]
    rfl
  rw [Database.Locates, getTransaction_eq (hreached.recorded hconnected), hnotes, hfirst,
    Option.map_some, Option.some.injEq]
  simp only [hblock, hzero]
  constructor
  · intro hanswer
    split at hanswer
    · cases hanswer
    · split at hanswer
      · cases hanswer
      · have hequal := Except.ok.inj hanswer
        exact ⟨(congrArg DeatilSignedTransaction.transactionNum hequal).symm,
          congrArg DeatilSignedTransaction.blockNum hequal⟩
  · rintro ⟨rfl, hnum⟩
    rw [hnum, h.fetched]
    simp only [h.index]

omit [Node] in
/-- The first of two transactions is found, over a pending third. -/
theorem getTransaction_first :
    ∃ (d : @Database (historyNode smallNode.toEnv)) (b : SignedBlock),
      b.transactions = [unitTransfer 2, unitTransfer 3] ∧
        @Database.Locates (historyNode smallNode.toEnv) d b 0 (unitTransfer 2) := by
  let _ : Node := historyNode smallNode.toEnv
  let b : SignedBlock := blockOn .null genesisTime [unitTransfer 2, unitTransfer 3]
  have hreturned : Returned ((applyInSession skipNothing b).run .genesis) := by decide +kernel
  obtain ⟨_, hrun⟩ := eq_ok_of_returned hreturned
  have happlied : AppliedRun [b] (finalState ((applyInSession skipNothing b).run .genesis)).store :=
    .apply (d := .genesis) .genesis hrun
  have hagain : Returned ((applyPending [(skipTaposCheck, 1, unitTransfer 10)]).run
      (finalState ((applyInSession skipNothing b).run .genesis)).store.content) := by decide +kernel
  obtain ⟨_, hpending⟩ := eq_ok_of_returned hagain
  let d : Database :=
    { store := (finalState ((applyInSession skipNothing b).run .genesis)).store.put
        (finalState ((applyPending [(skipTaposCheck, 1, unitTransfer 10)]).run
          (finalState ((applyInSession skipNothing b).run .genesis)).store.content))
      forkDb := { index := [⟨⟨0, b⟩, [], .singleton _⟩], unique := List.nodup_singleton _ } }
  refine ⟨d, b, rfl, (getTransaction_iff (fun _ _ => rfl) happlied (d := d) hpending
    ⟨List.mem_singleton_self _, rfl, by decide, by decide +kernel⟩).mpr ⟨rfl, by decide +kernel⟩⟩

omit [Node] in
/-- The second of two transactions is answered with the first. -/
theorem second_misread :
    ¬ ∀ n : Node, @HistoryConnected n → ∀ chain (d : @Database n),
      @AppliedRun n chain (@Database.store n d) → ∀ b k t, @Included n chain d b k t →
        @Database.Locates n d b k t := by
  intro h
  let _ : Node := historyNode smallNode.toEnv
  let b : SignedBlock := blockOn .null genesisTime [unitTransfer 2, unitTransfer 3]
  have hreturned : Returned ((applyInSession skipNothing b).run .genesis) := by decide +kernel
  obtain ⟨_, hrun⟩ := eq_ok_of_returned hreturned
  have happlied : AppliedRun [b] (finalState ((applyInSession skipNothing b).run .genesis)).store :=
    .apply (d := .genesis) .genesis hrun
  let d : Database :=
    { store := (finalState ((applyInSession skipNothing b).run .genesis)).store
      forkDb := { index := [⟨⟨0, b⟩, [], .singleton _⟩], unique := List.nodup_singleton _ } }
  have hlocates := h (historyNode smallNode.toEnv) (fun _ _ => rfl) [b] d happlied b 1 (unitTransfer 3)
    ⟨List.mem_singleton_self _, rfl, by decide, by decide +kernel⟩
  have hanswer := congrArg Except.toOption hlocates
  have hnum := congrArg (Option.map DeatilSignedTransaction.transactionNum) hanswer
  rw [Except.toOption, Option.map_some] at hnum
  revert hnum
  decide +kernel

end NewsChain
