import NewsChain.Laws.Supply

/-!
# A batch and the transfers it stands for

`Posted f c c'` says that `c'` is `c` with `f name` added to the balance of every account, wrapping
as `int64_t` does. A transfer, the loop of single transfers and a batch all post an amount to each
account, so where two of them succeed they leave the same accounts.

They do not succeed on the same inputs. The single transfers look at raw amounts, one after the
other; the batch looks at one sum, which may have wrapped, through operators that ask for equal
symbols. `batchAgrees_iff` is the exact condition.
-/

namespace NewsChain

variable {c c' c'' : Content AccountObject} {o o' : Objects}

/-! ## Posting amounts -/

/-- An account with an amount added to its balance. -/
def AccountObject.plus (a : AccountObject) (x : Int64) : AccountObject :=
  { a with balance := { a.balance with amount := a.balance.amount + x } }

@[simp] theorem AccountObject.plus_name (a : AccountObject) (x : Int64) : (a.plus x).name = a.name := rfl

@[simp] theorem AccountObject.plus_symbol (a : AccountObject) (x : Int64) :
    (a.plus x).balance.symbol = a.balance.symbol := rfl

@[simp] theorem AccountObject.plus_zero (a : AccountObject) : a.plus 0 = a := by
  simp [AccountObject.plus]

/-- Every account of `c'` is that of `c` with an amount added to its balance. -/
structure Posted (f : AccountName → Int64) (c c' : Content AccountObject) : Prop where
  nextId : c'.nextId = c.nextId
  rows : ∀ i, c'.table.get? i = (c.table.get? i).map fun a => a.plus (f a.name)

/-- What is posted decides the accounts. -/
theorem Posted.unique {f : AccountName → Int64} (h : Posted f c c') (h' : Posted f c c'') :
    c' = c'' :=
  Content.ext (Table.ext_get? fun i => (h.rows i).trans (h'.rows i).symm)
    (h.nextId.trans h'.nextId.symm)

theorem Posted.zero : Posted (fun _ => 0) c c := ⟨rfl, fun i => by simp⟩

theorem Posted.trans {f g k : AccountName → Int64} (h : Posted f c c') (h' : Posted g c' c'')
    (hk : ∀ n, f n + g n = k n) : Posted k c c'' := by
  refine ⟨h'.nextId.trans h.nextId, fun i => ?_⟩
  rw [h'.rows, h.rows, Option.map_map]
  congr 1
  funext a
  simp only [Function.comp_apply, AccountObject.plus, Int64.add_assoc, hk]

/-- An amount to one account, nothing to the others. -/
def only (name : AccountName) (amount : Int64) (n : AccountName) : Int64 :=
  if n = name then amount else 0

/-- Two accounts of one name stand at one id. -/
theorem account_unique {i j : Nat} {a b : AccountObject} (ha : c.table.get? i = some a)
    (hb : c.table.get? j = some b) (h : a.name = b.name) : i = j :=
  c.table.unique i j a b ha hb ⟨(·.name), List.mem_singleton_self _, h⟩

/-- Writing the balance of one account posts the difference to it. -/
theorem Posted.modify {i : Nat} {a : AccountObject} {x : Int64} {f : Asset → Asset}
    (ha : c.table.get? i = some a)
    (hf : f a.balance = { a.balance with amount := a.balance.amount + x }) :
    Posted (only a.name x) c (c.modify i (setBalance f)) := by
  refine ⟨rfl, fun j => ?_⟩
  rw [Content.modify, Table.get?_modify]
  split
  · rename_i hj
    subst hj
    simp only [ha, Option.map_some, setBalance, hf, only, if_true, AccountObject.plus]
  · rename_i hj
    cases hb : c.table.get? j with
    | none => rfl
    | some b =>
      have hname : b.name ≠ a.name := fun h => hj (account_unique hb ha h)
      simp only [Option.map_some, only, if_neg hname, AccountObject.plus_zero]

/-! ## Accounts by name -/

/-- There is an account of this name. -/
def Known (c : Content AccountObject) (name : AccountName) : Prop :=
  ∃ i a, c.table.get? i = some a ∧ a.name = name

/-- There is an account of this name, and its balance carries this symbol. -/
def Holds (c : Content AccountObject) (symbol : UInt64) (name : AccountName) : Prop :=
  ∃ i a, c.table.get? i = some a ∧ a.name = name ∧ a.balance.symbol = symbol

instance (c : Content AccountObject) (name : AccountName) : Decidable (Known c name) :=
  decidable_of_iff (∃ r ∈ c.table.rows, r.2.name = name)
    ⟨fun ⟨r, hr, h⟩ => ⟨r.1, r.2, Table.get?_eq_some_iff_mem.mpr hr, h⟩,
      fun ⟨i, a, ha, h⟩ => ⟨(i, a), Table.get?_eq_some_iff_mem.mp ha, h⟩⟩

instance (c : Content AccountObject) (symbol : UInt64) (name : AccountName) :
    Decidable (Holds c symbol name) :=
  decidable_of_iff (∃ r ∈ c.table.rows, r.2.name = name ∧ r.2.balance.symbol = symbol)
    ⟨fun ⟨r, hr, h⟩ => ⟨r.1, r.2, Table.get?_eq_some_iff_mem.mpr hr, h⟩,
      fun ⟨i, a, ha, h⟩ => ⟨(i, a), Table.get?_eq_some_iff_mem.mp ha, h⟩⟩

namespace Posted

variable {f : AccountName → Int64} {name : AccountName} {symbol : UInt64}

theorem get?_some (h : Posted f c c') {i : Nat} {a : AccountObject}
    (ha : c.table.get? i = some a) : c'.table.get? i = some (a.plus (f a.name)) := by
  rw [h.rows, ha]
  rfl

theorem known (h : Posted f c c') : Known c' name ↔ Known c name := by
  constructor
  · rintro ⟨i, a, ha, hname⟩
    rw [h.rows] at ha
    obtain ⟨b, hb, rfl⟩ := Option.map_eq_some_iff.mp ha
    exact ⟨i, b, hb, hname⟩
  · rintro ⟨i, a, ha, hname⟩
    exact ⟨i, _, h.get?_some ha, hname⟩

theorem holds (h : Posted f c c') : Holds c' symbol name ↔ Holds c symbol name := by
  constructor
  · rintro ⟨i, a, ha, hname, hsym⟩
    rw [h.rows] at ha
    obtain ⟨b, hb, rfl⟩ := Option.map_eq_some_iff.mp ha
    exact ⟨i, b, hb, hname, hsym⟩
  · rintro ⟨i, a, ha, hname, hsym⟩
    exact ⟨i, _, h.get?_some ha, hname, hsym⟩

end Posted

/-- `get_account` finds the account of a name. -/
theorem run_getAccount {name : AccountName} {i : Nat} {a : AccountObject}
    (ha : o.accounts.table.get? i = some a) (hname : a.name = name) :
    (getAccount name).run o = .ok (i, a) o := by
  simp only [getAccount, EStateM.run_bind, EStateM.run_get]
  cases hfind : o.accounts.table.findBy (·.name == name) with
  | none =>
    have := Table.findBy_eq_none.mp hfind i a ha
    simp [hname] at this
  | some r =>
    obtain ⟨j, b⟩ := r
    obtain ⟨hb, hbname⟩ := Table.findBy_eq_some hfind
    have hij : i = j := account_unique ha hb (by rw [hname]; exact (beq_iff_eq.mp hbname).symm)
    subst hij
    cases ha.symm.trans hb
    rfl

/-! ## Single transfers -/

/-- A transfer returns where both accounts exist and the sender's amount is at least its own. -/
theorem transfer_returned {t : TransferOperation} {i : Nat} {a : AccountObject}
    (ha : o.accounts.table.get? i = some a) (hname : a.name = t.fromName) :
    Returned (t.doApply.run o) ↔
      Known o.accounts t.toName ∧ t.amount.amount ≤ a.balance.amount := by
  constructor
  · rintro ⟨u, o', h⟩
    obtain ⟨k, a', j, b, ha', hname', hb, hbname, hle, -⟩ := transfer_eq_ok h
    obtain rfl := account_unique ha ha' (hname.trans hname'.symm)
    cases ha.symm.trans ha'
    exact ⟨⟨j, b, hb, hbname⟩, hle⟩
  · rintro ⟨⟨j, b, hb, hbname⟩, hle⟩
    simp only [TransferOperation.doApply, EStateM.run_bind, run_getAccount ha hname,
      run_getAccount hb hbname, run_fcAssert, if_pos hle, run_modifyRow, returned_ok]

/-- A transfer that returns has posted its amount to the two accounts. -/
theorem transfer_posted {t : TransferOperation} {u : Unit} (h : t.doApply.run o = .ok u o') :
    ∃ c, o' = { o with accounts := c } ∧
      Posted (fun n => only t.fromName (-t.amount.amount) n + only t.toName t.amount.amount n)
        o.accounts c := by
  simp only [TransferOperation.doApply, bind_eq_ok, fcAssert_eq_ok, run_modifyRow,
    EStateM.Result.ok.injEq] at h
  obtain ⟨⟨i, a⟩, _, hfrom, ⟨j, b⟩, _, hto, _, _, ⟨hle, rfl⟩, _, _, ⟨-, rfl⟩, -, rfl⟩ := h
  obtain ⟨rfl, ha, hna⟩ := getAccount_eq_ok hfrom
  obtain ⟨rfl, hb, hnb⟩ := getAccount_eq_ok hto
  have hdebit := Posted.modify (x := -t.amount.amount)
    (f := fun b => { b with amount := b.amount - t.amount.amount }) ha
    (by simp only [Int64.sub_eq_add_neg])
  have hcredit := Posted.modify (x := t.amount.amount)
    (f := fun b => { b with amount := b.amount + t.amount.amount }) (hdebit.get?_some hb) rfl
  rw [hna] at hdebit
  rw [AccountObject.plus_name, hnb] at hcredit
  exact ⟨_, rfl, hdebit.trans hcredit fun _ => rfl⟩

/-- The single transfers of a batch, in map order. -/
def singlesOf (sender : AccountName) (memo : List UInt8) (entries : List (AccountName × Asset)) :
    List TransferOperation :=
  entries.map fun e => { fromName := sender, toName := e.1, amount := e.2, memo }

/-- The single transfers as one sequence. -/
def applySingles (ts : List TransferOperation) : ObjM Unit := forM ts (·.doApply)

/-- The amounts of a batch, added up as `int64_t` does. -/
def wrappedTotal : List (AccountName × Asset) → Int64
  | [] => 0
  | e :: rest => e.2.amount + wrappedTotal rest

/-- What a batch credits to an account. -/
def credits : List (AccountName × Asset) → AccountName → Int64
  | [], _ => 0
  | e :: rest, n => only e.1 e.2.amount n + credits rest n

section Singles

variable {sender : AccountName} {memo : List UInt8} {entries : List (AccountName × Asset)}

theorem singles_posted {u : Unit} (h : (applySingles (singlesOf sender memo entries)).run o = .ok u o') :
    ∃ c, o' = { o with accounts := c } ∧
      Posted (fun n => only sender (-wrappedTotal entries) n + credits entries n) o.accounts c := by
  induction entries generalizing o with
  | nil =>
    cases h
    refine ⟨_, rfl, ⟨rfl, fun i => ?_⟩⟩
    simp [only, wrappedTotal, credits]
  | cons e rest ih =>
    simp only [applySingles, singlesOf, List.map_cons, List.forM_cons] at h ih
    obtain ⟨_, o₁, he, hrest⟩ := bind_eq_ok.mp h
    obtain ⟨c₁, rfl, hc₁⟩ := transfer_posted he
    obtain ⟨c₂, rfl, hc₂⟩ := ih hrest
    refine ⟨c₂, rfl, hc₁.trans hc₂ fun n => ?_⟩
    simp only [only, wrappedTotal, credits]
    grind

/-- The single transfers return where all accounts exist and the sender can pay the sum. -/
theorem singles_returned (memo : List UInt8) {i : Nat} {a : AccountObject}
    (ha : o.accounts.table.get? i = some a) (hname : a.name = sender)
    (hvalid : ∀ e ∈ entries, sender ≠ e.1 ∧ 0 < e.2.amount) :
    Returned ((applySingles (singlesOf sender memo entries)).run o) ↔
      (∀ e ∈ entries, Known o.accounts e.1) ∧
        (entries = [] ∨ batchTotal entries ≤ a.balance.amount.toInt) := by
  induction entries generalizing o a with
  | nil =>
    have hrun : Returned ((applySingles (singlesOf sender memo [])).run o) := ⟨(), o, rfl⟩
    simp [hrun]
  | cons e rest ih =>
    obtain ⟨hne, hpos⟩ := hvalid e List.mem_cons_self
    have hrest := fun e' he' => hvalid e' (List.mem_cons_of_mem e he')
    have hpos' : ∀ e' ∈ rest, 0 < e'.2.amount.toInt := fun e' he' => by
      have := (hrest e' he').2
      rwa [Int64.lt_iff_toInt_lt, Int64.toInt_zero] at this
    have hnonneg := batchTotal_nonneg hpos'
    rw [Int64.lt_iff_toInt_lt, Int64.toInt_zero] at hpos
    let t : TransferOperation := { fromName := sender, toName := e.1, amount := e.2, memo }
    -- After the first transfer the sender has that much less, and the rest asks for the rest.
    have hstep : ∀ u o₁, t.doApply.run o = .ok u o₁ →
        (Returned ((applySingles (singlesOf sender memo rest)).run o₁) ↔
          (∀ e' ∈ rest, Known o.accounts e'.1) ∧ batchTotal (e :: rest) ≤ a.balance.amount.toInt) := by
      intro u o₁ he
      obtain ⟨-, hle⟩ := (transfer_returned (t := t) ha hname).mp ⟨u, o₁, he⟩
      obtain ⟨c₁, rfl, hc₁⟩ := transfer_posted he
      have ha₁ := hc₁.get?_some ha
      simp only [t, only, hname, if_true, if_neg hne, Int64.add_zero] at ha₁
      rw [Int64.le_iff_toInt_le] at hle
      have hdebit := int64_toInt_sub (Int.le_of_lt hpos) hle
      rw [Int64.sub_eq_add_neg] at hdebit
      rw [ih (o := { o with accounts := c₁ }) ha₁ hname hrest]
      simp only [AccountObject.plus, t] at hdebit hle ⊢
      rw [hdebit]
      simp only [hc₁.known, batchTotal, List.map_cons, List.sum_cons] at hnonneg ⊢
      refine and_congr_right fun _ => ⟨?_, fun h => .inr (by omega)⟩
      rintro (rfl | h)
      · simpa using hle
      · omega
    have hcons : Returned ((applySingles (singlesOf sender memo (e :: rest))).run o) ↔
        ∃ u o₁, t.doApply.run o = .ok u o₁ ∧
          Returned ((applySingles (singlesOf sender memo rest)).run o₁) := by
      simp only [applySingles, singlesOf, List.map_cons, List.forM_cons, returned_bind, t]
    rw [hcons]
    constructor
    · rintro ⟨u, o₁, he, htail⟩
      obtain ⟨hknown, -⟩ := (transfer_returned (t := t) ha hname).mp ⟨u, o₁, he⟩
      obtain ⟨hall, hle⟩ := (hstep u o₁ he).mp htail
      exact ⟨List.forall_mem_cons.mpr ⟨hknown, hall⟩, .inr hle⟩
    · rintro ⟨hall, hle⟩
      obtain ⟨hknown, hall⟩ := List.forall_mem_cons.mp hall
      replace hle := hle.resolve_left (List.cons_ne_nil _ _)
      have hfirst : t.amount.amount ≤ a.balance.amount := by
        rw [Int64.le_iff_toInt_le]
        simp only [batchTotal, List.map_cons, List.sum_cons, t] at hle hnonneg ⊢
        omega
      obtain ⟨u, o₁, he⟩ := (transfer_returned (t := t) ha hname).mpr ⟨hknown, hfirst⟩
      exact ⟨u, o₁, he, (hstep u o₁ he).mpr ⟨hall, hle⟩⟩

end Singles

/-! ## The batch -/

variable {entries : List (AccountName × Asset)}

/-- The first loop returns where the recipients exist and the amounts carry the sum's symbol. -/
theorem sumTransfers_run (sum : Asset) (hknown : ∀ e ∈ entries, Known o.accounts e.1)
    (hsym : ∀ e ∈ entries, e.2.symbol = sum.symbol) :
    (sumTransfers entries sum).run o =
      .ok { sum with amount := sum.amount + wrappedTotal entries } o := by
  induction entries generalizing sum with
  | nil => simp [sumTransfers, wrappedTotal]
  | cons e rest ih =>
    obtain ⟨⟨j, b, hb, hbname⟩, hknown⟩ := List.forall_mem_cons.mp hknown
    obtain ⟨he, hsym⟩ := List.forall_mem_cons.mp hsym
    simp only [sumTransfers, EStateM.run_bind, run_getAccount hb hbname, Asset.add, run_fcAssert,
      if_pos he.symm, EStateM.run_pure]
    rw [ih { sum with amount := sum.amount + e.2.amount } hknown hsym]
    simp only [wrappedTotal, Int64.add_assoc]

theorem sumTransfers_of_returned {sum : Asset} (h : Returned ((sumTransfers entries sum).run o)) :
    (∀ e ∈ entries, Known o.accounts e.1) ∧ ∀ e ∈ entries, e.2.symbol = sum.symbol := by
  induction entries generalizing sum with
  | nil => simp
  | cons e rest ih =>
    simp only [sumTransfers, returned_bind] at h
    obtain ⟨r, _, hget, s, _, hadd, hrest⟩ := h
    obtain ⟨rfl, hb, hname⟩ := getAccount_eq_ok hget
    obtain ⟨rfl, hsym, rfl⟩ := assetAdd_eq_ok hadd
    obtain ⟨hknown, hsyms⟩ := ih hrest
    exact ⟨List.forall_mem_cons.mpr ⟨⟨r.1, r.2, hb, hname⟩, hknown⟩,
      List.forall_mem_cons.mpr ⟨hsym.symm, hsyms⟩⟩

/-- One round of the second loop, where it returns. -/
theorem creditTransfers_cons {e : AccountName × Asset} (rest : List (AccountName × Asset)) {i : Nat}
    {a : AccountObject} (ha : o.accounts.table.get? i = some a) (hname : a.name = e.1)
    (hsym : a.balance.symbol = e.2.symbol) :
    ∃ c, Posted (only e.1 e.2.amount) o.accounts c ∧
      (creditTransfers (e :: rest)).run o =
        (creditTransfers rest).run { o with accounts := c } := by
  refine ⟨o.accounts.modify i (setBalance fun _ =>
    { a.balance with amount := a.balance.amount + e.2.amount }), ?_, ?_⟩
  · rw [← hname]
    exact Posted.modify ha rfl
  · simp only [creditTransfers, EStateM.run_bind, run_getAccount ha hname, Asset.add, run_fcAssert,
      if_pos hsym, EStateM.run_pure, run_modifyRow]
    rfl

/-- The second loop returns where every recipient's balance carries the amount's symbol. -/
theorem creditTransfers_returned :
    Returned ((creditTransfers entries).run o) ↔
      ∀ e ∈ entries, Holds o.accounts e.2.symbol e.1 := by
  induction entries generalizing o with
  | nil => simp [creditTransfers]
  | cons e rest ih =>
    rw [List.forall_mem_cons]
    constructor
    · intro h
      have hround := h
      simp only [creditTransfers, returned_bind] at hround
      obtain ⟨r, _, hget, _, _, hadd, -⟩ := hround
      obtain ⟨rfl, ha, hname⟩ := getAccount_eq_ok hget
      obtain ⟨-, hsym, -⟩ := assetAdd_eq_ok hadd
      obtain ⟨c₁, hc₁, hrun⟩ := creditTransfers_cons rest ha hname hsym
      rw [hrun, ih] at h
      exact ⟨⟨r.1, r.2, ha, hname, hsym⟩, fun e' he' => hc₁.holds.mp (h e' he')⟩
    · rintro ⟨⟨i, a, ha, hname, hsym⟩, hrest⟩
      obtain ⟨c₁, hc₁, hrun⟩ := creditTransfers_cons rest ha hname hsym
      rw [hrun, ih]
      exact fun e' he' => hc₁.holds.mpr (hrest e' he')

/-- The second loop posts every amount to its recipient. -/
theorem creditTransfers_posted {u : Unit} (h : (creditTransfers entries).run o = .ok u o') :
    ∃ c, o' = { o with accounts := c } ∧ Posted (credits entries) o.accounts c := by
  induction entries generalizing o with
  | nil =>
    cases h
    exact ⟨_, rfl, Posted.zero⟩
  | cons e rest ih =>
    obtain ⟨i, a, ha, hname, hsym⟩ :=
      creditTransfers_returned.mp ⟨u, o', h⟩ e List.mem_cons_self
    obtain ⟨c₁, hc₁, hrun⟩ := creditTransfers_cons rest ha hname hsym
    rw [hrun] at h
    obtain ⟨c₂, rfl, hc₂⟩ := ih h
    exact ⟨c₂, rfl, hc₁.trans hc₂ fun _ => rfl⟩

/-- Every amount of the batch, the sender's balance and the recipients' carry `NEWS_SYMBOL`. -/
structure Uniform (c : Content AccountObject) (sender : AccountObject)
    (entries : List (AccountName × Asset)) : Prop where
  amounts : ∀ e ∈ entries, e.2.symbol = newsSymbol
  sender : sender.balance.symbol = newsSymbol
  recipients : ∀ e ∈ entries, Holds c newsSymbol e.1

instance (c : Content AccountObject) (sender : AccountObject)
    (entries : List (AccountName × Asset)) : Decidable (Uniform c sender entries) :=
  decidable_of_iff
    ((∀ e ∈ entries, e.2.symbol = newsSymbol) ∧ sender.balance.symbol = newsSymbol ∧
      ∀ e ∈ entries, Holds c newsSymbol e.1)
    ⟨fun ⟨h₁, h₂, h₃⟩ => ⟨h₁, h₂, h₃⟩, fun ⟨h₁, h₂, h₃⟩ => ⟨h₁, h₂, h₃⟩⟩

section Batch

variable {t : TransfersOperation} {i : Nat} {a : AccountObject}

/-- A batch whose first loop and checks return debits the sender and goes on to the credits. -/
theorem batch_run (ha : o.accounts.table.get? i = some a) (hname : a.name = t.fromName)
    (hknown : ∀ e ∈ t.toNames.entries, Known o.accounts e.1)
    (hsym : ∀ e ∈ t.toNames.entries, e.2.symbol = newsSymbol)
    (hsender : a.balance.symbol = newsSymbol)
    (hle : wrappedTotal t.toNames.entries ≤ a.balance.amount) :
    ∃ c, Posted (only t.fromName (-wrappedTotal t.toNames.entries)) o.accounts c ∧
      t.doApply.run o = (creditTransfers t.toNames.entries).run { o with accounts := c } := by
  refine ⟨o.accounts.modify i (setBalance fun _ =>
    { a.balance with amount := a.balance.amount - wrappedTotal t.toNames.entries }), ?_, ?_⟩
  · rw [← hname]
    exact Posted.modify ha (by rw [Int64.sub_eq_add_neg])
  · simp only [TransfersOperation.doApply, EStateM.run_bind, run_getAccount ha hname,
      sumTransfers_run { amount := 0 } hknown hsym, Int64.zero_add, Asset.ge, Asset.sub,
      run_fcAssert, if_pos hsender, EStateM.run_pure, decide_eq_true hle, if_true, run_modifyRow]
    rfl

/-- A batch returns where everything carries the one symbol and the sender's amount is at least
the sum as it wraps. -/
theorem batch_returned (ha : o.accounts.table.get? i = some a) (hname : a.name = t.fromName) :
    Returned (t.doApply.run o) ↔
      Uniform o.accounts a t.toNames.entries ∧
        wrappedTotal t.toNames.entries ≤ a.balance.amount := by
  constructor
  · intro h
    have hchecks := h
    simp only [TransfersOperation.doApply, returned_bind, run_getAccount ha hname] at hchecks
    obtain ⟨_, _, hget, s, _, hsum, hchecks⟩ := hchecks
    cases hget
    obtain ⟨hknown, hsym⟩ := sumTransfers_of_returned ⟨s, _, hsum⟩
    change ∀ e ∈ t.toNames.entries, e.2.symbol = newsSymbol at hsym
    rw [sumTransfers_run { amount := 0 } hknown hsym] at hsum
    cases hsum
    obtain ⟨_, _, hge, _, _, hassert, -⟩ := hchecks
    simp only [Asset.ge, bind_eq_ok, fcAssert_eq_ok] at hge
    obtain ⟨_, _, ⟨hsender, rfl⟩, hge⟩ := hge
    cases hge
    have hle := (fcAssert_eq_ok.mp hassert).1
    simp only [Int64.zero_add, decide_eq_true_eq] at hle
    obtain ⟨c₁, hc₁, hrun⟩ := batch_run ha hname hknown hsym hsender hle
    rw [hrun, creditTransfers_returned] at h
    refine ⟨⟨hsym, hsender, fun e he => ?_⟩, hle⟩
    rw [← hsym e he]
    exact hc₁.holds.mp (h e he)
  · rintro ⟨huniform, hle⟩
    have hknown : ∀ e ∈ t.toNames.entries, Known o.accounts e.1 := by
      intro e he
      obtain ⟨j, b, hb, hbname, -⟩ := huniform.recipients e he
      exact ⟨j, b, hb, hbname⟩
    obtain ⟨c₁, hc₁, hrun⟩ := batch_run ha hname hknown huniform.amounts huniform.sender hle
    rw [hrun, creditTransfers_returned]
    intro e he
    rw [huniform.amounts e he]
    exact hc₁.holds.mpr (huniform.recipients e he)

/-- A batch that returns has posted what its single transfers would. -/
theorem batch_posted {u : Unit} (ha : o.accounts.table.get? i = some a)
    (hname : a.name = t.fromName) (h : t.doApply.run o = .ok u o') :
    ∃ c, o' = { o with accounts := c } ∧
      Posted (fun n => only t.fromName (-wrappedTotal t.toNames.entries) n +
        credits t.toNames.entries n) o.accounts c := by
  obtain ⟨huniform, hle⟩ := (batch_returned ha hname).mp ⟨u, o', h⟩
  have hknown : ∀ e ∈ t.toNames.entries, Known o.accounts e.1 := by
    intro e he
    obtain ⟨j, b, hb, hbname, -⟩ := huniform.recipients e he
    exact ⟨j, b, hb, hbname⟩
  obtain ⟨c₁, hc₁, hrun⟩ := batch_run ha hname hknown huniform.amounts huniform.sender hle
  rw [hrun] at h
  obtain ⟨c₂, rfl, hc₂⟩ := creditTransfers_posted h
  exact ⟨c₂, rfl, hc₁.trans hc₂ fun _ => rfl⟩

end Batch

/-! ## Agreement -/

/-- The batch's single transfers. -/
def TransfersOperation.singles (t : TransfersOperation) : List TransferOperation :=
  singlesOf t.fromName t.memo t.toNames.entries

/-- The batch succeeds exactly when its single transfers do, and both leave the same objects. -/
def BatchAgrees (o : Objects) (t : TransfersOperation) : Prop :=
  (Returned (t.doApply.run o) ↔ Returned ((applySingles t.singles).run o)) ∧
    ∀ u u' o₁ o₂, t.doApply.run o = .ok u o₁ → (applySingles t.singles).run o = .ok u' o₂ → o₁ = o₂

/-- If all accounts exist: where the sender can pay the sum, everything carries `NEWS_SYMBOL`; and
where it cannot, either something does not or the sum as it wraps is too much as well. -/
def BatchFits (o : Objects) (t : TransfersOperation) : Prop :=
  ∀ i a, o.accounts.table.get? i = some a → a.name = t.fromName →
    (∀ e ∈ t.toNames.entries, Known o.accounts e.1) →
      if batchTotal t.toNames.entries ≤ a.balance.amount.toInt then
        Uniform o.accounts a t.toNames.entries
      else
        ¬ Uniform o.accounts a t.toNames.entries ∨
          a.balance.amount < wrappedTotal t.toNames.entries

instance (o : Objects) (t : TransfersOperation) : Decidable (BatchFits o t) :=
  decidable_of_iff
    (∀ r ∈ o.accounts.table.rows, r.2.name = t.fromName →
      (∀ e ∈ t.toNames.entries, Known o.accounts e.1) →
        if batchTotal t.toNames.entries ≤ r.2.balance.amount.toInt then
          Uniform o.accounts r.2 t.toNames.entries
        else
          ¬ Uniform o.accounts r.2 t.toNames.entries ∨
            r.2.balance.amount < wrappedTotal t.toNames.entries)
    ⟨fun h i a ha => h (i, a) (Table.get?_eq_some_iff_mem.mp ha),
      fun h r hr => h r.1 r.2 (Table.get?_eq_some_iff_mem.mpr hr)⟩

/-- A sum of positive amounts that fits is the sum as it wraps. -/
theorem wrappedTotal_toInt (hpos : ∀ e ∈ entries, 0 < e.2.amount.toInt)
    (hfits : batchTotal entries ≤ int64Max.toInt) :
    (wrappedTotal entries).toInt = batchTotal entries := by
  rw [int64Max_toInt] at hfits
  induction entries with
  | nil => rfl
  | cons e rest ih =>
    obtain ⟨he, hrest⟩ := List.forall_mem_cons.mp hpos
    have hnonneg := batchTotal_nonneg hrest
    simp only [batchTotal, List.map_cons, List.sum_cons] at hfits hnonneg ih ⊢
    have htail := ih hrest (by omega)
    rw [wrappedTotal, int64_toInt_add (by omega) (by omega) (by omega), htail]

variable {t : TransfersOperation}

/-- The sender of a batch that returns exists. -/
theorem batch_sender (h : Returned (t.doApply.run o)) : Known o.accounts t.fromName := by
  simp only [TransfersOperation.doApply, returned_bind] at h
  obtain ⟨r, _, hget, -⟩ := h
  obtain ⟨-, ha, hname⟩ := getAccount_eq_ok hget
  exact ⟨r.1, r.2, ha, hname⟩

/-- The sender of single transfers that return exists. -/
theorem singles_sender (hne : t.toNames.entries ≠ [])
    (h : Returned ((applySingles t.singles).run o)) : Known o.accounts t.fromName := by
  obtain ⟨e, rest, hentries⟩ := List.exists_cons_of_ne_nil hne
  simp only [TransfersOperation.singles, singlesOf, hentries, applySingles, List.map_cons,
    List.forM_cons, returned_bind] at h
  obtain ⟨_, _, hfirst, -⟩ := h
  obtain ⟨i, a, -, -, ha, hname, -⟩ := transfer_eq_ok hfirst
  exact ⟨i, a, ha, hname⟩

/-- Where both succeed they leave the same objects. -/
theorem batch_eq_singles {u u' : Unit} {o₁ o₂ : Objects} (h₁ : t.doApply.run o = .ok u o₁)
    (h₂ : (applySingles t.singles).run o = .ok u' o₂) : o₁ = o₂ := by
  obtain ⟨i, a, ha, hname⟩ := batch_sender ⟨u, o₁, h₁⟩
  obtain ⟨c₁, rfl, hc₁⟩ := batch_posted ha hname h₁
  obtain ⟨c₂, rfl, hc₂⟩ := singles_posted h₂
  rw [hc₁.unique hc₂]

/-- **A batch and its single transfers.** For every state and every batch that passes `validate`,
the two agree exactly where the batch fits. -/
theorem batchAgrees_iff {u : Unit} (hvalid : (Operation.transfers t).validate.run o = .ok u o') :
    BatchAgrees o t ↔ BatchFits o t := by
  obtain ⟨hlen, hentries⟩ := valid_of_validate hvalid
  have hne : t.toNames.entries ≠ [] := List.ne_nil_of_length_pos hlen
  have hpos : ∀ e ∈ t.toNames.entries, 0 < e.2.amount.toInt := fun e he => by
    have := (hentries e he).2
    rwa [Int64.lt_iff_toInt_lt, Int64.toInt_zero] at this
  have hsame : BatchAgrees o t ↔
      (Returned (t.doApply.run o) ↔ Returned ((applySingles t.singles).run o)) :=
    and_iff_left fun _ _ _ _ h₁ h₂ => batch_eq_singles h₁ h₂
  rw [hsame]
  by_cases hsender : Known o.accounts t.fromName
  · obtain ⟨i, a, ha, hname⟩ := hsender
    have hbatch := batch_returned ha hname
    have hsingles := singles_returned t.memo ha hname hentries
    rw [TransfersOperation.singles, hbatch, hsingles, or_iff_right hne]
    -- The sender is the only account of its name.
    have hfits : BatchFits o t ↔ ((∀ e ∈ t.toNames.entries, Known o.accounts e.1) →
        if batchTotal t.toNames.entries ≤ a.balance.amount.toInt then
          Uniform o.accounts a t.toNames.entries
        else ¬ Uniform o.accounts a t.toNames.entries ∨
          a.balance.amount < wrappedTotal t.toNames.entries) := by
      constructor
      · exact fun h => h i a ha hname
      · intro h j b hb hbname
        obtain rfl := account_unique ha hb (hname.trans hbname.symm)
        cases ha.symm.trans hb
        exact h
    rw [hfits]
    by_cases hknown : ∀ e ∈ t.toNames.entries, Known o.accounts e.1
    · rw [and_iff_right hknown, forall_prop_of_true hknown]
      split
      · rename_i hpay
        have hmax := a.balance.amount.toInt_lt
        have hwrap := wrappedTotal_toInt hpos (by rw [int64Max_toInt]; omega)
        have hle : wrappedTotal t.toNames.entries ≤ a.balance.amount := by
          rw [Int64.le_iff_toInt_le, hwrap]
          exact hpay
        simp [hpay, hle]
      · rename_i hpay
        simp only [hpay, iff_false, not_and, Int64.not_le, ← imp_iff_not_or]
    · have huniform : ¬ Uniform o.accounts a t.toNames.entries := fun h =>
        hknown fun e he =>
          have ⟨j, b, hb, hbname, _⟩ := h.recipients e he
          ⟨j, b, hb, hbname⟩
      simp [huniform]
  · have hbatch := mt batch_sender hsender
    have hsingles := mt (singles_sender hne) hsender
    have hfits : BatchFits o t := fun i a ha hname => absurd ⟨i, a, ha, hname⟩ hsender
    simp [hbatch, hsingles, hfits]

/-- A batch to three accounts goes through, and is its three transfers. -/
theorem batchAgrees_three :
    let _ : Node := smallNode
    ∃ t : TransfersOperation, t.toNames.entries.length = 3 ∧ Returned (t.doApply.run genesis) ∧
      BatchAgrees genesis t := by
  intro node
  let t : TransfersOperation :=
    { fromName := 1
      toNames := ⟨[(2, { amount := 5 }), (3, { amount := 7 }), (10, { amount := 1 })], by decide⟩
      memo := [] }
  have hvalid : Returned ((Operation.transfers t).validate.run genesis) := by decide +kernel
  obtain ⟨_, hvalid⟩ := eq_ok_of_returned hvalid
  have hfits : BatchFits genesis t := by decide +kernel
  exact ⟨t, rfl, by decide +kernel, (batchAgrees_iff hvalid).mpr hfits⟩

/-- Two amounts of `INT64_MAX` wrap to `-2`: the batch takes that from the sender and pays both
out. The single transfers stop at the second. -/
theorem batch_overflows :
    ¬ ∀ t : TransfersOperation,
      Returned ((Operation.transfers t).validate.run (@genesis smallNode.toEnv)) →
        BatchAgrees (@genesis smallNode.toEnv) t := by
  let _ : Node := smallNode
  intro h
  let t : TransfersOperation :=
    { fromName := 1
      toNames := ⟨[(2, { amount := int64Max }), (3, { amount := int64Max })], by decide⟩
      memo := [] }
  have hagrees := (h t (by decide +kernel)).1
  revert hagrees
  decide +kernel

end NewsChain
