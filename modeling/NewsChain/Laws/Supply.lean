import NewsChain.Laws.Frame

/-!
# The supply

Every balance is an `int64_t` and every operation on it wraps. What the evaluators check keeps the
sender from going negative. Nothing keeps a recipient from passing `INT64_MAX`, and nothing keeps
the sum of a batch from wrapping.

`Operation.Fits` says that an operation does neither in the state it meets.
`FittingRun.conserved` is the outcome: along transactions that fit, balances stay non-negative and
add up to what genesis created. `transfer_overflows` is the run that shows what happens otherwise.
-/

namespace NewsChain

/-! ## Wrapping arithmetic that does not wrap -/

theorem int64_toInt_add {a b : Int64} (ha : 0 ≤ a.toInt) (hb : 0 ≤ b.toInt)
    (h : a.toInt + b.toInt < 2 ^ 63) : (a + b).toInt = a.toInt + b.toInt := by
  rw [Int64.toInt_add]
  exact Int.bmod_eq_of_le (by omega) (by omega)

theorem int64_toInt_sub {a b : Int64} (hb : 0 ≤ b.toInt) (h : b.toInt ≤ a.toInt) :
    (a - b).toInt = a.toInt - b.toInt := by
  have := a.toInt_lt
  rw [Int64.toInt_sub]
  exact Int.bmod_eq_of_le (by omega) (by omega)

/-! ## Supply -/

/-- The mathematical sum of the balances. -/
def supplyOf (c : Content AccountObject) : Int := c.table.map.total (·.balance.amount.toInt)

/-- No balance is negative. -/
def Solvent (c : Content AccountObject) : Prop :=
  ∀ i a, c.table.get? i = some a → 0 ≤ a.balance.amount.toInt

/-- The books of genesis still hold: no balance is negative, and the sum is three times
`INT64_MAX`. -/
structure Conserved (o : Objects) : Prop where
  solvent : Solvent o.accounts
  supply : supplyOf o.accounts = 3 * int64Max.toInt

variable {c c' : Content AccountObject} {o o' : Objects}

theorem supplyOf_modify {i : Nat} {a : AccountObject} (h : c.table.get? i = some a)
    (f : Asset → Asset) :
    supplyOf (c.modify i (setBalance f)) =
      supplyOf c - a.balance.amount.toInt + (f a.balance).amount.toInt := by
  have hget : c.table.map.get? i = some a := h
  have hstore : (c.modify i (setBalance f)).table.map =
      c.table.map.insert i { a with balance := f a.balance } := by
    simp only [Content.modify, Table.modify]
    split
    · rename_i v hv
      cases hv.symm.trans h
      rfl
    · rename_i hv
      cases hv.symm.trans h
  rw [supplyOf, hstore, IdMap.total_insert, hget]
  rfl

theorem supplyOf_emplace {a : AccountObject} (h : c.emplace a = some c') :
    supplyOf c' = supplyOf c + a.balance.amount.toInt := by
  obtain ⟨hid, hfits, rfl⟩ := Content.emplace_eq_some.mp h
  have hget : c.table.map.get? c.nextId = none := hid
  simp only [supplyOf, Table.store, IdMap.total_insert, hget]
  simp

theorem Solvent.modify {i : Nat} {f : Asset → Asset} (hc : Solvent c)
    (hf : ∀ a, c.table.get? i = some a → 0 ≤ (f a.balance).amount.toInt) :
    Solvent (c.modify i (setBalance f)) := by
  intro j b hb
  rw [Content.modify, Table.get?_modify] at hb
  split at hb
  · obtain ⟨a, ha, rfl⟩ := Option.map_eq_some_iff.mp hb
    exact hf a ha
  · exact hc j b hb

theorem Solvent.emplace {a : AccountObject} (hc : Solvent c) (h : c.emplace a = some c')
    (ha : 0 ≤ a.balance.amount.toInt) : Solvent c' := by
  intro j b hb
  rw [Content.get?_emplace h] at hb
  split at hb
  · cases hb
    exact ha
  · exact hc j b hb

/-! ## Looking an account up -/

theorem getAccount_eq_ok {name : AccountName} {r : Nat × AccountObject}
    (h : (getAccount name).run o = .ok r o') :
    o' = o ∧ o.accounts.table.get? r.1 = some r.2 ∧ r.2.name = name := by
  simp only [getAccount, EStateM.run_bind, EStateM.run_get] at h
  split at h
  · rename_i s hs
    cases h
    obtain ⟨hget, hname⟩ := Table.findBy_eq_some hs
    exact ⟨rfl, hget, by simpa using hname⟩
  · cases h

theorem assetAdd_eq_ok {a b s : Asset} (h : (a.add b).run o = .ok s o') :
    o' = o ∧ a.symbol = b.symbol ∧ s = { a with amount := a.amount + b.amount } := by
  simp only [Asset.add, bind_eq_ok, fcAssert_eq_ok] at h
  obtain ⟨_, _, ⟨hsym, rfl⟩, h⟩ := h
  cases h
  exact ⟨rfl, hsym, rfl⟩

theorem assetSub_eq_ok {a b s : Asset} (h : (a.sub b).run o = .ok s o') :
    o' = o ∧ s = { a with amount := a.amount - b.amount } := by
  simp only [Asset.sub, bind_eq_ok, fcAssert_eq_ok] at h
  obtain ⟨_, _, ⟨-, rfl⟩, h⟩ := h
  cases h
  exact ⟨rfl, rfl⟩

theorem assetGe_eq_ok {a b : Asset} {r : Bool} (h : (a.ge b).run o = .ok r o') :
    o' = o ∧ r = decide (b.amount ≤ a.amount) := by
  simp only [Asset.ge, bind_eq_ok, fcAssert_eq_ok] at h
  obtain ⟨_, _, ⟨-, rfl⟩, h⟩ := h
  cases h
  exact ⟨rfl, rfl⟩

/-! ## What the operations ask for -/

/-- The amounts of a batch, added up without wrapping. -/
def batchTotal (entries : List (AccountName × Asset)) : Int :=
  (entries.map (·.2.amount.toInt)).sum

/-- Crediting an amount to an account of this name passes no balance over `INT64_MAX`. -/
def CreditFits (c : Content AccountObject) (e : AccountName × Asset) : Prop :=
  ∀ i a, c.table.get? i = some a → a.name = e.1 →
    a.balance.amount.toInt + e.2.amount.toInt ≤ int64Max.toInt

instance (c : Content AccountObject) (e : AccountName × Asset) : Decidable (CreditFits c e) :=
  decidable_of_iff
    (∀ r ∈ c.table.rows, r.2.name = e.1 →
      r.2.balance.amount.toInt + e.2.amount.toInt ≤ int64Max.toInt)
    ⟨fun h i a ha => h (i, a) (Table.get?_eq_some_iff_mem.mp ha),
      fun h r hr => h r.1 r.2 (Table.get?_eq_some_iff_mem.mpr hr)⟩

/-- No credit of the operation passes `INT64_MAX`, and neither does the sum of a batch. -/
def Operation.Fits (c : Content AccountObject) : Operation → Prop
  | .createAccount _ => True
  | .transfer o => CreditFits c (o.toName, o.amount)
  | .transfers o =>
    batchTotal o.toNames.entries ≤ int64Max.toInt ∧ ∀ e ∈ o.toNames.entries, CreditFits c e

/-- What `validate` accepts. -/
def Operation.Valid : Operation → Prop
  | .createAccount _ => True
  | .transfer o => o.fromName ≠ o.toName ∧ 0 < o.amount.amount
  | .transfers o =>
    0 < o.toNames.entries.length ∧
      ∀ e ∈ o.toNames.entries, o.fromName ≠ e.1 ∧ 0 < e.2.amount

theorem int64Max_toInt : int64Max.toInt = 2 ^ 63 - 1 := by decide

theorem forM_eq_ok {β : Type} {l : List β} {f : β → ObjM PUnit} {P : β → Prop} {u : PUnit}
    (hf : ∀ b s s' u, (f b).run s = .ok u s' → P b) (h : (forM l f).run o = .ok u o') :
    ∀ b ∈ l, P b := by
  induction l generalizing o with
  | nil => nofun
  | cons b l ih =>
    rw [List.forM_cons] at h
    obtain ⟨_, s, hb, hl⟩ := bind_eq_ok.mp h
    intro b' hb'
    rcases List.mem_cons.mp hb' with rfl | hb'
    · exact hf _ _ _ _ hb
    · exact ih hl b' hb'

/-- An operation that passes `validate` is valid. -/
theorem valid_of_validate {op : Operation} {u : Unit} (h : op.validate.run o = .ok u o') :
    op.Valid := by
  cases op with
  | createAccount t => trivial
  | transfer t =>
    obtain ⟨_, _, h₁, h₂⟩ := bind_eq_ok.mp h
    exact ⟨(fcAssert_eq_ok.mp h₁).1, (fcAssert_eq_ok.mp h₂).1⟩
  | transfers t =>
    obtain ⟨_, _, h₁, h₂⟩ := bind_eq_ok.mp h
    refine ⟨(fcAssert_eq_ok.mp h₁).1, forM_eq_ok (fun e s s' u he => ?_) h₂⟩
    obtain ⟨_, _, he₁, he₂⟩ := bind_eq_ok.mp he
    exact ⟨(fcAssert_eq_ok.mp he₁).1, (fcAssert_eq_ok.mp he₂).1⟩

/-! ## One operation -/

theorem Conserved.createAccount {t : CreateAccountOperation} {u : Unit} (ho : Conserved o)
    (h : t.doApply.run o = .ok u o') : Conserved o' := by
  simp only [CreateAccountOperation.doApply, bind_eq_ok, EStateM.run_get, EStateM.Result.ok.injEq,
    fcAssert_eq_ok] at h
  obtain ⟨_, _, ⟨rfl, rfl⟩, _, _, ⟨-, rfl⟩, _, _, ⟨-, rfl⟩, _, _, ⟨rfl, rfl⟩, _, s, hacc, haut⟩ := h
  rw [run_create] at hacc haut
  split at hacc
  · rename_i c hc
    cases hacc
    have hzero : (0 : Int64).toInt = 0 := by decide
    have hsolvent : Solvent c := ho.solvent.emplace hc (by simp [hzero])
    have hsupply : supplyOf c = 3 * int64Max.toInt := by
      rw [supplyOf_emplace hc, hzero, Int.add_zero]
      exact ho.supply
    split at haut
    · cases haut
      exact ⟨hsolvent, hsupply⟩
    · cases haut
  · cases hacc

/-- What a transfer that returns has done. -/
theorem transfer_eq_ok {t : TransferOperation} {u : Unit} (h : t.doApply.run o = .ok u o') :
    ∃ i a j b, o.accounts.table.get? i = some a ∧ a.name = t.fromName ∧
      o.accounts.table.get? j = some b ∧ b.name = t.toName ∧
      t.amount.amount ≤ a.balance.amount ∧
      o'.accounts = (o.accounts.modify i
        (setBalance fun x => { x with amount := x.amount - t.amount.amount })).modify j
        (setBalance fun x => { x with amount := x.amount + t.amount.amount }) := by
  simp only [TransferOperation.doApply, bind_eq_ok, fcAssert_eq_ok, run_modifyRow,
    EStateM.Result.ok.injEq] at h
  obtain ⟨⟨i, a⟩, _, hfrom, ⟨j, b⟩, _, hto, _, _, ⟨hle, rfl⟩, _, _, ⟨-, rfl⟩, -, rfl⟩ := h
  obtain ⟨rfl, ha, hna⟩ := getAccount_eq_ok hfrom
  obtain ⟨rfl, hb, hnb⟩ := getAccount_eq_ok hto
  exact ⟨i, a, j, b, ha, hna, hb, hnb, hle, rfl⟩

theorem Conserved.transfer {t : TransferOperation} {u : Unit} (ho : Conserved o)
    (hvalid : (Operation.transfer t).Valid) (hfits : (Operation.transfer t).Fits o.accounts)
    (h : t.doApply.run o = .ok u o') : Conserved o' := by
  obtain ⟨i, a, j, b, ha, hna, hb, hnb, hle, hacc⟩ := transfer_eq_ok h
  obtain ⟨hne, hpos⟩ := hvalid
  have hij : j ≠ i := fun hji => by
    subst hji
    cases ha.symm.trans hb
    exact hne (hna.symm.trans hnb)
  rw [Int64.lt_iff_toInt_lt, Int64.toInt_zero] at hpos
  rw [Int64.le_iff_toInt_le] at hle
  have hfit : b.balance.amount.toInt + t.amount.amount.toInt ≤ int64Max.toInt := hfits j b hb hnb
  rw [int64Max_toInt] at hfit
  have hb0 := ho.solvent j b hb
  have hdebit := int64_toInt_sub (a := a.balance.amount) (b := t.amount.amount) (by omega) hle
  have hcredit := int64_toInt_add (a := b.balance.amount) (b := t.amount.amount) hb0 (by omega)
    (by omega)
  -- the recipient's row is not the sender's, so the second write finds it as it was
  have hb' : (o.accounts.modify i (setBalance fun x =>
      { x with amount := x.amount - t.amount.amount })).table.get? j = some b := by
    rw [Content.modify, Table.get?_modify, if_neg hij]
    exact hb
  constructor
  · rw [hacc]
    refine (ho.solvent.modify fun x hx => ?_).modify fun x hx => ?_
    · cases hx.symm.trans ha
      show 0 ≤ (a.balance.amount - t.amount.amount).toInt
      omega
    · cases hx.symm.trans hb'
      show 0 ≤ (b.balance.amount + t.amount.amount).toInt
      omega
  · rw [hacc, supplyOf_modify hb', supplyOf_modify ha, ← ho.supply]
    show supplyOf o.accounts - a.balance.amount.toInt + (a.balance.amount - t.amount.amount).toInt -
      b.balance.amount.toInt + (b.balance.amount + t.amount.amount).toInt = _
    omega

/-! ## A batch -/

theorem batchTotal_nonneg {entries : List (AccountName × Asset)}
    (hpos : ∀ e ∈ entries, 0 < e.2.amount.toInt) : 0 ≤ batchTotal entries := by
  induction entries with
  | nil => simp [batchTotal]
  | cons e rest ih =>
    have he := hpos e List.mem_cons_self
    have hrest := ih fun e' he' => hpos e' (List.mem_cons_of_mem _ he')
    simp only [batchTotal, List.map_cons, List.sum_cons] at hrest ⊢
    omega

/-- The first loop of a batch adds the amounts up, as long as their sum does not wrap. -/
theorem sumTransfers_eq_ok {entries : List (AccountName × Asset)} {s s' : Asset}
    (h : (sumTransfers entries s).run o = .ok s' o') (hs : 0 ≤ s.amount.toInt)
    (hpos : ∀ e ∈ entries, 0 < e.2.amount.toInt)
    (hfits : s.amount.toInt + batchTotal entries ≤ int64Max.toInt) :
    o' = o ∧ s'.amount.toInt = s.amount.toInt + batchTotal entries := by
  rw [int64Max_toInt] at hfits
  induction entries generalizing s with
  | nil =>
    cases h
    exact ⟨rfl, by simp [batchTotal]⟩
  | cons e rest ih =>
    have he := hpos e List.mem_cons_self
    have hrest := fun e' he' => hpos e' (List.mem_cons_of_mem e he')
    have hnonneg := batchTotal_nonneg hrest
    simp only [sumTransfers, bind_eq_ok] at h
    obtain ⟨_, _, hget, x, _, hadd, htail⟩ := h
    obtain ⟨rfl, -⟩ := getAccount_eq_ok hget
    obtain ⟨rfl, -, rfl⟩ := assetAdd_eq_ok hadd
    simp only [batchTotal, List.map_cons, List.sum_cons] at hfits hnonneg ⊢
    have hsum := int64_toInt_add (a := s.amount) (b := e.2.amount) hs (by omega) (by omega)
    obtain ⟨rfl, hs'⟩ := ih htail (by simp only [hsum]; omega) hrest
      (by simp only [hsum, batchTotal]; omega)
    refine ⟨rfl, ?_⟩
    rw [hs', hsum]
    simp only [batchTotal]
    omega

/-- The second loop credits every recipient, as long as no credit wraps. -/
theorem creditTransfers_eq_ok {entries : List (AccountName × Asset)} {u : Unit}
    (h : (creditTransfers entries).run o = .ok u o')
    (hsorted : entries.Pairwise (fun a b => a.1 < b.1))
    (hpos : ∀ e ∈ entries, 0 < e.2.amount.toInt) (hfits : ∀ e ∈ entries, CreditFits o.accounts e)
    (ho : Solvent o.accounts) :
    Solvent o'.accounts ∧ supplyOf o'.accounts = supplyOf o.accounts + batchTotal entries := by
  induction entries generalizing o with
  | nil =>
    cases h
    exact ⟨ho, by simp [batchTotal]⟩
  | cons e rest ih =>
    obtain ⟨hlt, hrest⟩ := List.pairwise_cons.mp hsorted
    have he := hpos e List.mem_cons_self
    simp only [creditTransfers, bind_eq_ok, run_modifyRow, EStateM.Result.ok.injEq] at h
    obtain ⟨⟨j, b⟩, _, hget, x, _, hadd, _, _, ⟨-, rfl⟩, htail⟩ := h
    obtain ⟨rfl, hb, hname⟩ := getAccount_eq_ok hget
    obtain ⟨rfl, -, rfl⟩ := assetAdd_eq_ok hadd
    have hfit : b.balance.amount.toInt + e.2.amount.toInt ≤ int64Max.toInt :=
      hfits e List.mem_cons_self j b hb hname
    have hb0 := ho j b hb
    rw [int64Max_toInt] at hfit
    have hcredit := int64_toInt_add (a := b.balance.amount) (b := e.2.amount) hb0 (by omega)
      (by omega)
    -- the remaining recipients have other names, so their rows are as they were
    obtain ⟨hsolvent, hsupply⟩ := ih htail hrest
      (fun e' he' => hpos e' (List.mem_cons_of_mem _ he'))
      (fun e' he' i a ha hna => by
        simp only [Column.accounts, Content.modify, Table.get?_modify] at ha
        split at ha
        · rename_i hij
          obtain ⟨v, hv, rfl⟩ := Option.map_eq_some_iff.mp ha
          cases hv.symm.trans hb
          have hsame : e.1 = e'.1 := hname.symm.trans hna
          exact absurd (hsame ▸ hlt e' he') (UInt64.lt_irrefl _)
        · exact hfits e' (List.mem_cons_of_mem _ he') i a ha hna)
      (ho.modify fun a ha => by
        show 0 ≤ (b.balance.amount + e.2.amount).toInt
        omega)
    refine ⟨hsolvent, ?_⟩
    rw [hsupply]
    have hmod := supplyOf_modify hb fun _ =>
      { b.balance with amount := b.balance.amount + e.2.amount }
    simp only [Column.accounts, hmod, hcredit, batchTotal, List.map_cons, List.sum_cons]
    omega

theorem Conserved.transfers {t : TransfersOperation} {u : Unit} (ho : Conserved o)
    (hvalid : (Operation.transfers t).Valid) (hfits : (Operation.transfers t).Fits o.accounts)
    (h : t.doApply.run o = .ok u o') : Conserved o' := by
  obtain ⟨-, hentries⟩ := hvalid
  obtain ⟨hbatch, hcredits⟩ := hfits
  have hpos : ∀ e ∈ t.toNames.entries, 0 < e.2.amount.toInt := fun e he => by
    have := (hentries e he).2
    rwa [Int64.lt_iff_toInt_lt, Int64.toInt_zero] at this
  have hnonneg := batchTotal_nonneg hpos
  simp only [TransfersOperation.doApply, bind_eq_ok, fcAssert_eq_ok, run_modifyRow,
    EStateM.Result.ok.injEq] at h
  obtain ⟨⟨i, a⟩, _, hget, sum, _, hsum, _, _, hge, _, _, ⟨hle, rfl⟩, x, _, hsub, _, _, ⟨-, rfl⟩,
    hcredit⟩ := h
  obtain ⟨rfl, ha, hna⟩ := getAccount_eq_ok hget
  obtain ⟨rfl, hamount⟩ := sumTransfers_eq_ok hsum (by decide) hpos (by
    show (0 : Int64).toInt + _ ≤ _
    rw [Int64.toInt_zero]
    omega)
  obtain ⟨rfl, rfl⟩ := assetGe_eq_ok hge
  obtain ⟨rfl, rfl⟩ := assetSub_eq_ok hsub
  rw [decide_eq_true_eq, Int64.le_iff_toInt_le] at hle
  dsimp only at hle
  have hamount' : sum.amount.toInt = batchTotal t.toNames.entries := by
    rw [hamount]
    show (0 : Int64).toInt + _ = _
    rw [Int64.toInt_zero]
    omega
  have hdebit := int64_toInt_sub (a := a.balance.amount) (b := sum.amount) (by omega) hle
  obtain ⟨hsolvent, hsupply⟩ := creditTransfers_eq_ok hcredit t.toNames.sorted hpos
    (fun e he j b hb hnb => by
      simp only [Column.accounts, Content.modify, Table.get?_modify] at hb
      split at hb
      · obtain ⟨v, hv, rfl⟩ := Option.map_eq_some_iff.mp hb
        cases hv.symm.trans ha
        exact absurd (hna.symm.trans hnb) (hentries e he).1
      · exact hcredits e he j b hb hnb)
    (ho.solvent.modify fun b hb => by
      show 0 ≤ (a.balance.amount - sum.amount).toInt
      omega)
  refine ⟨hsolvent, ?_⟩
  rw [hsupply]
  have hmod := supplyOf_modify ha fun _ =>
    { a.balance with amount := a.balance.amount - sum.amount }
  simp only [Column.accounts, hmod, hdebit, ← ho.supply]
  omega

/-- A valid operation that fits keeps the books. -/
theorem Conserved.evaluate {op : Operation} {u : Unit} (ho : Conserved o) (hvalid : op.Valid)
    (hfits : op.Fits o.accounts) (h : op.evaluate.run o = .ok u o') : Conserved o' := by
  cases op with
  | createAccount t => exact ho.createAccount h
  | transfer t => exact ho.transfer hvalid hfits h
  | transfers t => exact ho.transfers hvalid hfits h

/-! ## Runs -/

theorem systemAccounts_conserved : Conserved (finalState (initSystemAccounts.run .empty)) := by
  have hrows : ∀ r ∈ (finalState (initSystemAccounts.run .empty)).accounts.table.rows,
      0 ≤ r.2.balance.amount.toInt := by decide +kernel
  exact ⟨fun i a ha => hrows (i, a) (Table.get?_eq_some_iff_mem.mp ha), by decide +kernel⟩

/-- The books of genesis hold at genesis. -/
theorem genesis_conserved [Env] : Conserved genesis := by
  have hframe : ∀ o c, Conserved o → Conserved { o with authorities := c } :=
    fun o c h => ⟨h.solvent, h.supply⟩
  have hzero : (0 : Int64).toInt = 0 := by decide
  have hcreate : Keeps Conserved (create .accounts { name := systemAcceptName }) := by
    intro o ho
    rw [run_create]
    split
    · rename_i c hc
      refine ⟨ho.solvent.emplace hc (Int.le_of_eq hzero.symm), ?_⟩
      show supplyOf c = _
      rw [supplyOf_emplace hc, hzero, Int.add_zero]
      exact ho.supply
    · exact ho
  exact Keeps.after systemAccounts_conserved fun _ =>
    (Keeps.forM fun _ _ => Keeps.create Column.authorities hframe).bind fun _ =>
      hcreate.bind fun _ => (Keeps.create Column.authorities hframe).bind fun _ =>
        Keeps.modify fun o h => ⟨h.solvent, h.supply⟩

section Runs

variable [Node]

/-- Each operation fits the state that those before it leave. -/
def OperationsFit (num : Nat) (id : TransactionId) : UInt16 → List Operation → Objects → Prop
  | _, [], _ => True
  | i, op :: ops, o =>
    op.Fits o.accounts ∧
      ∀ o', (applyOperation num id i op).run o = .ok () o' → OperationsFit num id (i + 1) ops o'

/-- The operations of a transaction fit, from the state in which the first of them runs. -/
def TransactionFits (skip : SkipFlags) (num : Nat) (trx : SignedTransaction) (o : Objects) : Prop :=
  ∀ o', (enterTransaction skip trx).run o = .ok () o' →
    OperationsFit num trx.id 0 trx.operations o'

/-- The states reached from genesis by applying transactions whose operations are valid, where `P`
is asked of each step. Between transactions anything but the accounts may change: blocks move
time on, rejected transactions are undone. -/
inductive TransactionRun (P : SkipFlags → Nat → SignedTransaction → Objects → Prop) :
    Objects → Prop
  | genesis : TransactionRun P genesis
  | apply {o o' : Objects} (skip : SkipFlags) (num : Nat) (trx : SignedTransaction) :
      TransactionRun P o → (∀ op ∈ trx.operations, op.Valid) → P skip num trx o →
        (applyTransactionImpl skip num trx).run o = .ok () o' → TransactionRun P o'
  | between {o o' : Objects} : TransactionRun P o → o'.accounts = o.accounts → TransactionRun P o'

omit [Node] in
theorem Conserved.of_accounts (h : Conserved o) (e : o'.accounts = o.accounts) : Conserved o' :=
  ⟨e ▸ h.solvent, e ▸ h.supply⟩

/-- Operations that fit keep the books, handlers included. -/
theorem Conserved.applyOperations {num : Nat} {id : TransactionId} {ops : List Operation}
    {i : UInt16} (ho : Conserved o) (hvalid : ∀ op ∈ ops, op.Valid)
    (hfits : OperationsFit num id i ops o)
    (h : (NewsChain.applyOperations num id i ops).run o = .ok () o') : Conserved o' := by
  induction ops generalizing o i with
  | nil =>
    cases h
    exact ho
  | cons op ops ih =>
    obtain ⟨hfit, hrest⟩ := hfits
    obtain ⟨_, s, hop, htail⟩ := bind_eq_ok.mp h
    obtain ⟨_, s₁, heval, hnote⟩ := bind_eq_ok.mp hop
    have hs₁ : Conserved s₁ := ho.evaluate (hvalid op List.mem_cons_self) hfit heval
    have hs : s.accounts = s₁.accounts := by
      have := notify_keeps (I := fun x => x.accounts = s₁.accounts)
        ⟨fun _ _ h => h, fun _ _ h => h⟩
        { op, trxId := id, block := num, trxInBlock := i.toNat } s₁ rfl
      rwa [hnote] at this
    exact ih (hs₁.of_accounts hs) (fun op' h' => hvalid op' (List.mem_cons_of_mem _ h'))
      (hrest s hop) htail

/-- **Conservation of supply.** Along every run of valid transactions whose credits and batch sums
stay within `INT64_MAX`, no balance is negative and the balances add up to the supply of
genesis. -/
theorem fittingRun_conserved {o : Objects} (h : TransactionRun TransactionFits o) : Conserved o := by
  induction h with
  | genesis => exact genesis_conserved
  | between _ e ih => exact ih.of_accounts e
  | @apply o o' skip num trx _ hvalid hfits happly ih =>
    obtain ⟨_, s, henter, hops⟩ := bind_eq_ok.mp happly
    have hs : s.accounts = o.accounts := by
      have := enterTransaction_keeps (I := fun x => x.accounts = o.accounts) (fun _ _ h => h)
        skip trx o rfl
      rwa [henter] at this
    exact (ih.of_accounts hs).applyOperations hvalid (hfits s henter) hops

end Runs

theorem unitTransfer_valid {recipient : AccountName} (h : 1 ≠ recipient) :
    ∀ op ∈ (unitTransfer recipient).operations, op.Valid := by
  simp only [unitTransfer, List.mem_singleton, forall_eq, Operation.Valid]
  exact ⟨h, by decide⟩

/-- The books hold after one unit of account 1 has gone to the empty account 10. -/
theorem fittingRun_conserved_unitTransfer :
    Conserved (finalState
      ((@applyTransactionImpl smallNode skipNothing 1 (unitTransfer 10)).run (@genesis smallNode.toEnv))) := by
  let _ : Node := smallNode
  have hreturned : Returned ((applyTransactionImpl skipNothing 1 (unitTransfer 10)).run genesis) := by
    decide +kernel
  obtain ⟨_, hrun⟩ := eq_ok_of_returned hreturned
  have hcredit : CreditFits (finalState ((enterTransaction skipNothing (unitTransfer 10)).run
      genesis)).accounts (10, { amount := 1 }) := by decide +kernel
  have hfits : TransactionFits skipNothing 1 (unitTransfer 10) genesis := by
    intro o' ho'
    rw [ho'] at hcredit
    exact ⟨hcredit, fun _ _ => trivial⟩
  exact fittingRun_conserved
    (.apply skipNothing 1 _ .genesis (unitTransfer_valid (by decide)) hfits hrun)

/-- Without the bound on credits the books do not hold: a valid and properly signed transfer of
one unit to account 2, which holds `INT64_MAX`, leaves it with `INT64_MIN`. -/
theorem transfer_overflows :
    ¬ ∀ o, @TransactionRun smallNode (fun _ _ _ _ => True) o → Conserved o := by
  let _ : Node := smallNode
  intro h
  have hreturned : Returned ((applyTransactionImpl skipNothing 1 (unitTransfer 2)).run genesis) := by
    decide +kernel
  obtain ⟨_, hrun⟩ := eq_ok_of_returned hreturned
  have hrow : ((finalState ((applyTransactionImpl skipNothing 1 (unitTransfer 2)).run
      genesis)).accounts.table.get? 1).map (·.balance.amount.toInt) = some (-2 ^ 63) := by
    decide +kernel
  obtain ⟨a, ha, hneg⟩ := Option.map_eq_some_iff.mp hrow
  have := (h _ (.apply skipNothing 1 _ .genesis (unitTransfer_valid (by decide)) trivial
    hrun)).solvent 1 a ha
  omega

end NewsChain
