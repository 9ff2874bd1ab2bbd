import NewsChain.Laws.Frame

/-!
# What a block does to the objects

`_apply_block` is a part that can reject the block (`enterBlock`), one write of the global
properties, and a part that cannot fail (`leaveBlock`). The last needs the hardfork properties to
count what they list, which they do at genesis and after every block.
-/

namespace NewsChain

variable {o o' : Objects}

/-! ## Expired transactions -/

theorem earliestOf_eq_none {rows : List (Nat × TransactionObject)} :
    earliestOf rows = none ↔ rows = [] := by
  cases rows with
  | nil => exact ⟨fun _ => rfl, fun _ => rfl⟩
  | cons r rest =>
    simp only [earliestOf]
    split
    · simp
    · split <;> simp

/-- The first row of the expiration order is a row, and no row expires earlier. -/
theorem earliestOf_eq_some {rows : List (Nat × TransactionObject)} {r : Nat × TransactionObject}
    (h : earliestOf rows = some r) :
    r ∈ rows ∧ ∀ r' ∈ rows, r.2.expiration ≤ r'.2.expiration := by
  induction rows generalizing r with
  | nil => cases h
  | cons x rest ih =>
    simp only [earliestOf] at h
    split at h
    · rename_i hnone
      cases h
      simp [earliestOf_eq_none.mp hnone]
    · rename_i l hl
      obtain ⟨hmem, hle⟩ := ih hl
      split at h
      · rename_i hlt
        cases h
        refine ⟨List.mem_cons_of_mem _ hmem, fun r' hr' => ?_⟩
        rcases List.mem_cons.mp hr' with rfl | hr'
        · exact UInt32.le_of_lt hlt
        · exact hle r' hr'
      · rename_i hlt
        cases h
        refine ⟨List.mem_cons_self, fun r' hr' => ?_⟩
        rcases List.mem_cons.mp hr' with rfl | hr'
        · exact UInt32.le_refl _
        · exact UInt32.le_trans (UInt32.not_lt.mp hlt) (hle r' hr')

theorem filter_eq_self_of_live {t : Table TransactionObject} {now : TimePointSec}
    (h : ∀ r ∈ t.rows, now ≤ r.2.expiration) (i : Nat) :
    t.get? i = (t.get? i).filter fun x => decide (now ≤ x.expiration) := by
  cases hg : t.get? i with
  | none => rfl
  | some x =>
    have hlive : now ≤ x.expiration := h (i, x) (Table.get?_eq_some_iff_mem.mp hg)
    simp [Option.filter, hlive]

/-- `clear_expired_transactions` takes out the transactions that expire before the head, and writes
nothing else. -/
theorem run_clearExpired {rounds : Nat} (h : o.transactions.table.rows.length ≤ rounds) :
    ∃ c, (clearExpired rounds).run o = .ok () { o with transactions := c } ∧
      ∀ i, c.table.get? i =
        (o.transactions.table.get? i).filter fun t => decide (o.gpo.time ≤ t.expiration) := by
  induction rounds generalizing o with
  | zero =>
    have hrows : o.transactions.table.rows = [] := List.length_eq_zero_iff.mp (Nat.le_zero.mp h)
    exact ⟨o.transactions, rfl, filter_eq_self_of_live (by simp [hrows])⟩
  | succ rounds ih =>
    simp only [clearExpired, EStateM.run_bind, EStateM.run_get, earliestExpiring]
    cases hfirst : earliestOf o.transactions.table.rows with
    | none =>
      have hrows := earliestOf_eq_none.mp hfirst
      exact ⟨o.transactions, rfl, filter_eq_self_of_live (by simp [hrows])⟩
    | some r =>
      obtain ⟨hmem, hle⟩ := earliestOf_eq_some hfirst
      simp only [EStateM.run_bind, EStateM.run_get]
      split
      · rename_i hexp
        have hshorter : (o.transactions.table.erase r.1).rows.length <
            o.transactions.table.rows.length :=
          List.length_filter_lt_length_iff_exists.mpr ⟨r, hmem, by simp⟩
        obtain ⟨c, hrun, hget⟩ := ih
          (o := { o with transactions := o.transactions.erase r.1 })
          (Nat.le_of_lt_succ (Nat.lt_of_lt_of_le hshorter h))
        refine ⟨c, hrun, fun i => ?_⟩
        rw [hget]
        simp only [Content.erase, Table.get?_erase]
        split
        · rename_i hi
          rw [hi, Table.get?_eq_some_iff_mem.mpr hmem]
          simp [Option.filter, UInt32.not_le.mpr hexp]
        · rfl
      · rename_i hexp
        refine ⟨o.transactions, rfl, filter_eq_self_of_live fun r' hr' => ?_⟩
        exact UInt32.le_trans (UInt32.not_lt.mp hexp) (hle r' hr')

theorem run_clearExpiredTransactions (o : Objects) :
    ∃ c, clearExpiredTransactions.run o = .ok () { o with transactions := c } ∧
      ∀ i, c.table.get? i =
        (o.transactions.table.get? i).filter fun t => decide (o.gpo.time ≤ t.expiration) :=
  run_clearExpired (Nat.le_refl _)

/-! ## Hardforks -/

/-- The hardfork properties list the time of genesis and of every hardfork so far. -/
def HardforkOk (o : Objects) : Prop :=
  o.hardfork.processedHardfork.length = o.hardfork.lastHardfork + 1

/-- The next hardfork can be applied where the list is as long as the count says. -/
theorem run_applyHardforkImpl (h : HardforkOk o) :
    ∃ x, (applyHardforkImpl (o.hardfork.lastHardfork + 1)).run o =
        .ok () { o with hardfork := x } ∧ HardforkOk { o with hardfork := x } ∧
      x.lastHardfork = o.hardfork.lastHardfork + 1 := by
  refine ⟨{ o.hardfork with
      processedHardfork := o.hardfork.processedHardfork ++
        [hardforkTimes (o.hardfork.lastHardfork + 1)]
      lastHardfork := o.hardfork.lastHardfork + 1
      currentHardforkVersion := hardforkVersions (o.hardfork.lastHardfork + 1) }, ?_, ?_, rfl⟩
  · simp [applyHardforkImpl, run_fcAssert, h.symm]
  · simp [HardforkOk, h.symm]

theorem applyHardforkImpl_keeps_hardforkOk (n : Nat) : Keeps HardforkOk (applyHardforkImpl n) := by
  intro o ho
  by_cases hn : n = o.hardfork.lastHardfork + 1
  · obtain ⟨x, hrun, hx, -⟩ := run_applyHardforkImpl ho
    rw [hn, hrun]
    exact hx
  · have hrun : (applyHardforkImpl n).run o =
        .error (.assertion "Hardfork being applied out of") o := by
      simp [applyHardforkImpl, run_fcAssert, hn]
    rw [hrun]
    exact ho

theorem setHardfork_keeps_hardforkOk (n count i : Nat) :
    Keeps HardforkOk (setHardfork n count i) := by
  induction count generalizing i with
  | zero => exact .pure _
  | succ count ih =>
    refine Keeps.ite (Keeps.get.bind fun _ => Keeps.bind ?_ fun _ =>
      (applyHardforkImpl_keeps_hardforkOk i).bind fun _ => ih _) (.pure _)
    exact fun o ho => ho

/-- `set_hardfork` cannot throw after blocks that counted their hardforks. -/
theorem run_setHardfork (h : HardforkOk o) (n count i : Nat)
    (hi : i = o.hardfork.lastHardfork + 1) :
    ∃ x, (setHardfork n count i).run o = .ok () { o with hardfork := x } := by
  induction count generalizing o i with
  | zero => exact ⟨o.hardfork, rfl⟩
  | succ count ih =>
    simp only [setHardfork]
    split
    · let o₁ : Objects := { o with hardfork :=
        { o.hardfork with
          nextHardforkVersion := hardforkVersions i, nextHardforkTime := o.gpo.time } }
      obtain ⟨x, hrun, hx, hlast⟩ := run_applyHardforkImpl (o := o₁) h
      obtain ⟨y, hrest⟩ := ih (o := { o₁ with hardfork := x }) hx (i + 1) (by rw [hlast, hi])
      subst hi
      exact ⟨y, bind_eq_ok.mpr ⟨o, o, rfl, bind_eq_ok.mpr ⟨(), o₁, rfl, bind_eq_ok.mpr
        ⟨(), _, hrun, hrest⟩⟩⟩⟩
    · exact ⟨o.hardfork, rfl⟩

/-- `process_hardforks` cannot throw after blocks that counted their hardforks. -/
theorem run_processHardforks (h : HardforkOk o) (rounds : Nat) :
    ∃ x, (processHardforks rounds).run o = .ok () { o with hardfork := x } ∧
      HardforkOk { o with hardfork := x } := by
  induction rounds generalizing o with
  | zero => exact ⟨o.hardfork, rfl, h⟩
  | succ rounds ih =>
    simp only [processHardforks, EStateM.run_bind, EStateM.run_get]
    split
    · obtain ⟨x, hrun, hx, -⟩ := run_applyHardforkImpl h
      obtain ⟨y, hrun', hy⟩ := ih hx
      exact ⟨y, by rw [EStateM.run_bind, hrun]; exact hrun', hy⟩
    · exact ⟨o.hardfork, rfl, h⟩

/-! ## Genesis -/

/-- Rows stand below the next id, under names of a list. -/
structure NamedIn {V : Type} [Indexed V] (name : V → AccountName) (names : List AccountName)
    (c : Content V) : Prop where
  below : c.Below
  mem : ∀ i v, c.table.get? i = some v → name v ∈ names

/-- A row under a new name can be created, where rows collide by their names alone. -/
theorem NamedIn.emplace {V : Type} [Indexed V] {name : V → AccountName}
    {names : List AccountName} {c : Content V} (hclash : ∀ v w : V, Clash v w → name v = name w)
    {v : V} (h : NamedIn name names c) (hv : name v ∉ names) :
    ∃ c', c.emplace v = some c' ∧ NamedIn name (name v :: names) c' := by
  obtain ⟨c', hc⟩ := h.below.emplace_isSome (v := v) fun i w hw hvw =>
    hv (hclash v w hvw ▸ h.mem i w hw)
  refine ⟨c', hc, h.below.emplace hc, fun i w hw => ?_⟩
  rw [Content.get?_emplace hc] at hw
  split at hw
  · cases hw
    exact List.mem_cons_self
  · exact List.mem_cons_of_mem _ (h.mem i w hw)

/-- The objects during `init_genesis`: these accounts, these authorities, no hardfork. -/
structure Founding (accounts authorities : List AccountName) (o : Objects) : Prop where
  accounts : NamedIn (·.name) accounts o.accounts
  authorities : NamedIn (·.name) authorities o.authorities
  lastHardfork : o.hardfork.lastHardfork = 0

theorem create_account_returns {accounts authorities : List AccountName} {v : AccountObject}
    (hfresh : v.name ∉ accounts) :
    Returns (Founding accounts authorities) (Founding (v.name :: accounts) authorities)
      (create .accounts v) := by
  intro o ho
  obtain ⟨c, hc, hnamed⟩ := ho.accounts.emplace (v := v) (fun v w ⟨k, hk, he⟩ => by
    obtain rfl := List.mem_singleton.mp hk
    exact he) hfresh
  refine ⟨(), { o with accounts := c }, ?_, hnamed, ho.authorities, ho.lastHardfork⟩
  rw [run_create]
  simp only [Column.accounts, hc]

theorem create_authority_returns {accounts authorities : List AccountName}
    {v : AccountAuthorityObject} (hfresh : v.name ∉ authorities) :
    Returns (Founding accounts authorities) (Founding accounts (v.name :: authorities))
      (create .authorities v) := by
  intro o ho
  obtain ⟨c, hc, hnamed⟩ := ho.authorities.emplace (v := v) (fun v w ⟨k, hk, he⟩ => by
    obtain rfl := List.mem_singleton.mp hk
    exact he) hfresh
  refine ⟨(), { o with authorities := c }, ?_, ho.accounts, hnamed, ho.lastHardfork⟩
  rw [run_create]
  simp only [Column.authorities, hc]

/-- The names of the system accounts, the last one first. -/
def systemNames : List AccountName :=
  [systemAccountName + 2, systemAccountName + 1, systemAccountName + 0]

/-- **The rule of `init_genesis`**: what follows the names of the accounts and of the authorities, each
created under a new name, comes to the same names of both. -/
theorem initGenesis_rule [Env] {P : List AccountName → List AccountName → Objects → Prop}
    {Q : Objects → Prop} (hempty : P [] [] { Objects.empty with gpo := { time := genesisTime } })
    (haccount : ∀ accounts authorities v, v.name ∉ accounts →
      Returns (P accounts authorities) (P (v.name :: accounts) authorities) (create .accounts v))
    (hauthority : ∀ accounts authorities v, v.name ∉ authorities →
      Returns (P accounts authorities) (P accounts (v.name :: authorities)) (create .authorities v))
    (hlast : Returns (P (systemAcceptName :: systemNames) (systemAcceptName :: systemNames)) Q
      (modifyHardfork fun hpo => { hpo with processedHardfork := [genesisTime] })) :
    Returns (· = .empty) Q initGenesis := by
  have htime : Returns (· = .empty) (P [] [])
      (modifyGpo fun gpo => { gpo with time := genesisTime }) :=
    Returns.modify fun s hs => by
      rw [hs]
      exact hempty
  have haccounts : Returns (· = .empty) (P systemNames []) initSystemAccounts :=
    htime.bind fun _ =>
      (haccount [] [] { name := systemAccountName + 0, balance := _ } (by decide)).bind fun _ =>
        (haccount _ [] { name := systemAccountName + 1, balance := _ } (by decide)).bind fun _ =>
          (haccount _ [] { name := systemAccountName + 2, balance := _ } (by decide)).bind
            fun _ => .pure _
  have hname : ∀ {accounts authorities} name {posting owner}, name ∉ authorities →
      Returns (P accounts authorities) (P accounts (name :: authorities))
        (create .authorities ⟨name, posting, owner⟩) := fun name _ _ h => hauthority _ _ ⟨name, _, _⟩ h
  refine haccounts.bind fun _ => ?_
  refine Returns.bind (Q := P systemNames systemNames) ?_ fun _ => ?_
  · exact (hname (systemAccountName + 0) (by decide)).bind fun _ =>
      (hname (systemAccountName + 1) (by decide)).bind fun _ =>
        (hname (systemAccountName + 2) (by decide)).bind fun _ => .pure _
  · exact (haccount _ _ { name := systemAcceptName } (by decide)).bind fun _ =>
      (hname systemAcceptName (by decide)).bind fun _ => hlast

/-- `init_genesis` returns, with one hardfork time listed. -/
theorem initGenesis_returns [Env] : Returns (· = .empty) HardforkOk initGenesis := by
  refine initGenesis_rule (P := Founding) ?_ (fun _ _ _ h => create_account_returns h)
    (fun _ _ _ h => create_authority_returns h) (Returns.modify fun o ho => ?_)
  · exact ⟨⟨Content.below_empty, nofun⟩, ⟨Content.below_empty, nofun⟩, rfl⟩
  · simp [HardforkOk, ho.lastHardfork]

theorem hardforkOk_genesis [Env] : HardforkOk genesis := by
  obtain ⟨_, o, hrun, ho⟩ := initGenesis_returns _ rfl
  rw [genesis, hrun]
  exact ho

/-- No block and no transaction at genesis. -/
theorem blank_genesis [Env] :
    genesis.gpo = { time := genesisTime } ∧ genesis.transactions = .empty := by
  let Blank (o : Objects) : Prop := o.gpo = { time := genesisTime } ∧ o.transactions = .empty
  have hsystem : Blank (finalState (initSystemAccounts.run .empty)) :=
    ⟨by decide +kernel, by decide +kernel⟩
  exact Keeps.after (I := Blank) hsystem fun _ =>
    (Keeps.forM fun _ _ => Keeps.create Column.authorities fun _ _ h => h).bind fun _ =>
      (Keeps.create Column.accounts fun _ _ h => h).bind fun _ =>
        (Keeps.create Column.authorities fun _ _ h => h).bind fun _ => Keeps.modify fun _ h => h

/-! ## The two parts of a block -/

/-- The global properties after `update_global_property_object`. -/
def DynamicGlobalProperty.entered [Env] (gpo : DynamicGlobalProperty) (b : SignedBlock) :
    DynamicGlobalProperty :=
  { gpo with
    time := b.timestamp
    headBlockNum := b.blockNum
    headBlockId := b.id
    currentAslot := gpo.currentAslot + gpo.slotAtTime b.timestamp }

/-- The global properties after the write of `update_last_irreversible_block`. -/
def DynamicGlobalProperty.raised (gpo : DynamicGlobalProperty) : DynamicGlobalProperty :=
  if irreversibleBlockNum ≤ gpo.headBlockNum then
    { gpo with lastIrreversibleBlockNum := gpo.headBlockNum - irreversibleBlockNum }
  else gpo

namespace DynamicGlobalProperty

variable (gpo : DynamicGlobalProperty)

@[simp] theorem raised_time : gpo.raised.time = gpo.time := by unfold raised; split <;> rfl

@[simp] theorem raised_headBlockNum : gpo.raised.headBlockNum = gpo.headBlockNum := by
  unfold raised; split <;> rfl

@[simp] theorem raised_currentAslot : gpo.raised.currentAslot = gpo.currentAslot := by
  unfold raised; split <;> rfl

@[simp] theorem raised_headBlockId : gpo.raised.headBlockId = gpo.headBlockId := by
  unfold raised; split <;> rfl

end DynamicGlobalProperty

/-- The objects after that write. -/
def Objects.raised (o : Objects) : Objects := { o with gpo := o.gpo.raised }

theorem run_raiseLastIrreversible (o : Objects) :
    raiseLastIrreversible.run o = .ok () o.raised := rfl

variable [Node]

/-- The part of a block after its writes to the log: it cannot throw, the head stays, the
transactions that have expired by the head's time are gone, and the summary names the block. -/
theorem run_leaveBlock (h : HardforkOk o) (b : SignedBlock) :
    ∃ o', (Objects.leaveBlock b).run o = .ok () o' ∧ o'.gpo = o.gpo ∧ HardforkOk o' ∧
      (∀ i, o'.transactions.table.get? i =
        (o.transactions.table.get? i).filter fun t => decide (o.gpo.time ≤ t.expiration)) ∧
      o'.blockSummary = Function.update o.blockSummary (UInt16.ofNat b.blockNum) b.id := by
  let o₁ := { o with blockSummary := Function.update o.blockSummary (UInt16.ofNat b.blockNum) b.id }
  obtain ⟨c, hclear, hget⟩ := run_clearExpiredTransactions o₁
  obtain ⟨x, hfork, hx⟩ := run_processHardforks (o := { o₁ with transactions := c }) h hardforkNum
  refine ⟨{ o₁ with transactions := c, hardfork := x }, ?_, rfl, hx, hget, rfl⟩
  have hsummary : (createBlockSummary b).run o = .ok () o₁ := rfl
  simp only [Objects.leaveBlock, EStateM.run_bind, hsummary, hclear, hfork]

/-- The part of a block that can reject it counts its hardforks. -/
theorem enterBlock_keeps_hardforkOk (skip : SkipFlags) (b : SignedBlock) :
    Keeps HardforkOk (Objects.enterBlock skip b) := by
  refine (Keeps.onlyIf fun _ => Keeps.get.bind fun _ => setHardfork_keeps_hardforkOk _ _ _).bind
    fun _ => (Keeps.onlyIf fun _ => Keeps.fcAssert).bind fun _ => Keeps.bind ?_ fun _ =>
      Keeps.modify fun _ ho => ho
  exact applyTransactions_keeps (fun _ _ ho => ho)
    ⟨fun _ _ ho => ho, fun _ _ ho => ho⟩ ⟨fun _ _ ho => ho, fun _ _ ho => ho⟩ _ _ _

/-- A block that is not refused has applied its transactions, from the state it found up to the
hardforks of a first block. -/
theorem enterBlock_eq_ok {skip : SkipFlags} {b : SignedBlock}
    (h : (Objects.enterBlock skip b).run o = .ok () o') :
    ∃ x o₁, (forM b.transactions (applyTransactionImpl skip b.blockNum)).run
        { o with hardfork := x } = .ok () o₁ ∧ o' = { o₁ with gpo := o₁.gpo.entered b } := by
  unfold Objects.enterBlock at h
  obtain ⟨_, o₁, hfork, h⟩ := bind_eq_ok.mp h
  obtain ⟨_, o₂, hmerkle, h⟩ := bind_eq_ok.mp h
  obtain ⟨_, o₃, htrx, h⟩ := bind_eq_ok.mp h
  obtain ⟨x, hx⟩ : ∃ x, o₁ = { o with hardfork := x } :=
    (Keeps.onlyIf fun _ => Keeps.get.bind fun _ =>
      setHardfork_keeps (fun _ y ho => ⟨y, by rw [ho.choose_spec]⟩) _ _ _).of_ok
      (I := fun s => ∃ x, s = { o with hardfork := x }) ⟨o.hardfork, rfl⟩ hfork
  rw [(Keeps.onlyIf fun _ => Keeps.fcAssert).of_ok (I := (· = { o with hardfork := x })) hx
    hmerkle] at htrx
  cases h
  exact ⟨x, o₃, htrx, rfl⟩

theorem gpo_enterBlock {skip : SkipFlags} {b : SignedBlock}
    (h : (Objects.enterBlock skip b).run o = .ok () o') : o'.gpo = o.gpo.entered b := by
  obtain ⟨x, o₁, htrx, rfl⟩ := enterBlock_eq_ok h
  have hgpo : o₁.gpo = o.gpo :=
    (applyTransactions_keeps (fun _ _ ho => ho)
      ⟨fun _ _ ho => ho, fun _ _ ho => ho⟩ ⟨fun _ _ ho => ho, fun _ _ ho => ho⟩ _ _ _).of_ok
      (I := fun s : Objects => s.gpo = o.gpo) (s := { o with hardfork := x }) rfl htrx
  show o₁.gpo.entered b = _
  rw [hgpo]

theorem blockSummary_enterBlock {skip : SkipFlags} {b : SignedBlock}
    (h : (Objects.enterBlock skip b).run o = .ok () o') : o'.blockSummary = o.blockSummary := by
  obtain ⟨x, o₁, htrx, rfl⟩ := enterBlock_eq_ok h
  have hsummary : o₁.blockSummary = o.blockSummary :=
    (applyTransactions_keeps (fun _ _ ho => ho)
      ⟨fun _ _ ho => ho, fun _ _ ho => ho⟩ ⟨fun _ _ ho => ho, fun _ _ ho => ho⟩ _ _ _).of_ok
      (I := fun s : Objects => s.blockSummary = o.blockSummary) (s := { o with hardfork := x }) rfl
      htrx
  exact hsummary

/-- A block on the objects is its two parts, with the write between them. -/
theorem applyBlock_eq_ok {skip : SkipFlags} {b : SignedBlock} :
    (Objects.applyBlock skip b).run o = .ok () o' ↔
      ∃ o₁, (Objects.enterBlock skip b).run o = .ok () o₁ ∧
        (Objects.leaveBlock b).run o₁.raised = .ok () o' := by
  constructor
  · intro h
    obtain ⟨_, o₁, henter, h⟩ := bind_eq_ok.mp h
    obtain ⟨_, o₂, hraise, hleave⟩ := bind_eq_ok.mp h
    cases hraise
    exact ⟨o₁, henter, hleave⟩
  · rintro ⟨o₁, henter, hleave⟩
    exact bind_eq_ok.mpr
      ⟨(), o₁, henter, bind_eq_ok.mpr ⟨(), _, run_raiseLastIrreversible o₁, hleave⟩⟩

/-- What a block leaves: the global properties and the count of hardforks. -/
theorem gpo_applyBlock {skip : SkipFlags} {b : SignedBlock} (hfork : HardforkOk o)
    (h : (Objects.applyBlock skip b).run o = .ok () o') :
    o'.gpo = (o.gpo.entered b).raised ∧ HardforkOk o' := by
  obtain ⟨o₁, henter, hleave⟩ := applyBlock_eq_ok.mp h
  have hfork₁ : HardforkOk o₁ := (enterBlock_keeps_hardforkOk skip b).of_ok hfork henter
  obtain ⟨o₂, hleave', hgpo, hfork', -⟩ := run_leaveBlock (o := o₁.raised) hfork₁ b
  rw [hleave] at hleave'
  cases hleave'
  exact ⟨by rw [hgpo, Objects.raised, gpo_enterBlock henter], hfork'⟩

/-- The block summaries a block leaves: its own, and the others as they were. -/
theorem blockSummary_applyBlock {skip : SkipFlags} {b : SignedBlock} (hfork : HardforkOk o)
    (h : (Objects.applyBlock skip b).run o = .ok () o') :
    o'.blockSummary = Function.update o.blockSummary (UInt16.ofNat b.blockNum) b.id := by
  obtain ⟨o₁, henter, hleave⟩ := applyBlock_eq_ok.mp h
  have hfork₁ : HardforkOk o₁ := (enterBlock_keeps_hardforkOk skip b).of_ok hfork henter
  obtain ⟨o₂, hleave', -, -, -, hsummary⟩ := run_leaveBlock (o := o₁.raised) hfork₁ b
  rw [hleave] at hleave'
  cases hleave'
  rw [hsummary, ← blockSummary_enterBlock henter]
  rfl

/-- What a block leaves in the transaction index: of the rows after its transactions, those that
have not expired by its own time. -/
theorem transactions_applyBlock {skip : SkipFlags} {b : SignedBlock} (hfork : HardforkOk o)
    (h : (Objects.applyBlock skip b).run o = .ok () o') :
    ∃ x o₁, (forM b.transactions (applyTransactionImpl skip b.blockNum)).run
        { o with hardfork := x } = .ok () o₁ ∧
      ∀ i, o'.transactions.table.get? i =
        (o₁.transactions.table.get? i).filter fun t => decide (b.timestamp ≤ t.expiration) := by
  obtain ⟨o₁, henter, hleave⟩ := applyBlock_eq_ok.mp h
  have hfork₁ : HardforkOk o₁ := (enterBlock_keeps_hardforkOk skip b).of_ok hfork henter
  obtain ⟨o₂, hleave', -, -, hget, -⟩ := run_leaveBlock (o := o₁.raised) hfork₁ b
  rw [hleave] at hleave'
  cases hleave'
  obtain ⟨x, o₃, htrx, rfl⟩ := enterBlock_eq_ok henter
  have htime : (o₃.gpo.entered b).raised.time = b.timestamp := by
    simp [DynamicGlobalProperty.entered]
  exact ⟨x, o₃, htrx, htime ▸ hget⟩

end NewsChain
