import NewsChain.Laws.Authority
import NewsChain.Laws.Reached

/-!
# Accounts and their authorities

An account is two rows, one in `account_object_index` and one in `account_authority_index`, created
one after the other. `Paired` says that both indexes carry the same names. Both creates look at
their own index alone, so where the names agree they agree on whether a name is taken, and the
second cannot fail when the first has not (`Paired.second_returns`).
-/

namespace NewsChain

variable {V : Type} [Indexed V] {key : V → AccountName} {names : List AccountName} {c c' : Content V}

/-! ## The names of an index -/

/-- The names of a content are those of a list. -/
structure Registered (key : V → AccountName) (names : List AccountName) (c : Content V) : Prop where
  below : c.Below
  names : ∀ n, (∃ i v, c.table.get? i = some v ∧ key v = n) ↔ n ∈ names

namespace Registered

theorem empty : Registered key [] (.empty : Content V) where
  below := Content.below_empty
  names n := by
    refine ⟨?_, fun hn => absurd hn List.not_mem_nil⟩
    rintro ⟨i, v, hv, -⟩
    cases hv

/-- A row that is created adds its name. -/
theorem of_emplace {v : V} (h : Registered key names c) (hc : c.emplace v = some c') :
    Registered key (key v :: names) c' where
  below := h.below.emplace hc
  names n := by
    have hnew : c.table.get? c.nextId = none := (Content.emplace_eq_some.mp hc).1
    rw [List.mem_cons, ← h.names n]
    constructor
    · rintro ⟨i, w, hw, rfl⟩
      rw [Content.get?_emplace hc] at hw
      split at hw
      · exact .inl (by rw [Option.some.inj hw])
      · exact .inr ⟨i, w, hw, rfl⟩
    · rintro (rfl | ⟨i, w, hw, rfl⟩)
      · exact ⟨c.nextId, v, by rw [Content.get?_emplace hc, if_pos rfl], rfl⟩
      · refine ⟨i, w, ?_, rfl⟩
        rw [Content.get?_emplace hc, if_neg, hw]
        rintro rfl
        rw [hnew] at hw
        cases hw

/-- Where rows collide by their names alone, a row can be created exactly under a new name. -/
theorem emplace_isSome {v : V} (h : Registered key names c)
    (hclash : ∀ v w : V, Clash v w ↔ key v = key w) :
    (∃ c', c.emplace v = some c') ↔ key v ∉ names := by
  constructor
  · rintro ⟨c', hc⟩ hmem
    obtain ⟨hnew, hfits, -⟩ := Content.emplace_eq_some.mp hc
    obtain ⟨i, w, hw, hkey⟩ := (h.names _).mpr hmem
    refine Table.fits_iff.mp hfits i w hw ?_ ((hclash v w).mpr hkey.symm)
    rintro rfl
    rw [hnew] at hw
    cases hw
  · intro hfresh
    exact h.below.emplace_isSome fun i w hw hvw =>
      hfresh ((h.names _).mp ⟨i, w, hw, ((hclash v w).mp hvw).symm⟩)

/-- What is written over a row keeps its name. -/
theorem modify (h : Registered key names c) (i : Nat) (m : Modifier V)
    (hkey : ∀ v, key (m.apply v) = key v) : Registered key names (c.modify i m) where
  below := h.below.modify i m
  names n := by
    rw [← h.names n]
    constructor
    · rintro ⟨j, w, hw, rfl⟩
      rw [Content.modify, Table.get?_modify] at hw
      split at hw
      · obtain ⟨v, hv, rfl⟩ := Option.map_eq_some_iff.mp hw
        exact ⟨i, v, hv, (hkey v).symm⟩
      · exact ⟨j, w, hw, rfl⟩
    · rintro ⟨j, v, hv, rfl⟩
      by_cases hj : j = i
      · refine ⟨j, m.apply v, ?_, hkey v⟩
        rw [Content.modify, Table.get?_modify, if_pos hj, ← hj, hv, Option.map_some]
      · refine ⟨j, v, ?_, rfl⟩
        rw [Content.modify, Table.get?_modify, if_neg hj, hv]

end Registered

theorem clash_account (v w : AccountObject) : Clash v w ↔ v.name = w.name := by
  constructor
  · rintro ⟨k, hk, he⟩
    obtain rfl := List.mem_singleton.mp hk
    exact he
  · exact fun he => ⟨_, List.mem_singleton.mpr rfl, he⟩

theorem clash_authority (v w : AccountAuthorityObject) : Clash v w ↔ v.name = w.name := by
  constructor
  · rintro ⟨k, hk, he⟩
    obtain rfl := List.mem_singleton.mp hk
    exact he
  · exact fun he => ⟨_, List.mem_singleton.mpr rfl, he⟩

/-! ## Pairs -/

/-- There is an account of this name. -/
def Objects.HasAccount (o : Objects) (name : AccountName) : Prop :=
  ∃ i a, o.accounts.table.get? i = some a ∧ a.name = name

/-- There is an authority of this name. -/
def Objects.HasAuthority (o : Objects) (name : AccountName) : Prop :=
  ∃ i a, o.authorities.table.get? i = some a ∧ a.name = name

/-- The names of both indexes are those of the lists. -/
structure Founded (accounts authorities : List AccountName) (o : Objects) : Prop where
  accounts : Registered (·.name) accounts o.accounts
  authorities : Registered (·.name) authorities o.authorities

theorem Founded.createAccount {accounts authorities : List AccountName} {v : AccountObject}
    (hfresh : v.name ∉ accounts) :
    Returns (Founded accounts authorities) (Founded (v.name :: accounts) authorities)
      (create .accounts v) := by
  intro o ho
  obtain ⟨c, hc⟩ := (ho.accounts.emplace_isSome clash_account).mpr hfresh
  refine ⟨(), { o with accounts := c }, ?_, ho.accounts.of_emplace hc, ho.authorities⟩
  rw [run_create]
  simp only [Column.accounts, hc]

theorem Founded.createAuthority {accounts authorities : List AccountName}
    {v : AccountAuthorityObject} (hfresh : v.name ∉ authorities) :
    Returns (Founded accounts authorities) (Founded accounts (v.name :: authorities))
      (create .authorities v) := by
  intro o ho
  obtain ⟨c, hc⟩ := (ho.authorities.emplace_isSome clash_authority).mpr hfresh
  refine ⟨(), { o with authorities := c }, ?_, ho.accounts, ho.authorities.of_emplace hc⟩
  rw [run_create]
  simp only [Column.authorities, hc]

variable [Node]

/-- Both indexes carry the same names, and who created an account after genesis is there. -/
structure Paired (o : Objects) : Prop where
  names : ∃ names, Founded names names o
  creators : ∀ i a, o.accounts.table.get? i = some a → genesis.accounts.table.get? i = none →
    o.HasAccount a.creator

namespace Paired

variable {o o' : Objects}

theorem genesis : Paired NewsChain.genesis := by
  have hrun : Returns (· = .empty)
      (Founded (systemAcceptName :: systemNames) (systemAcceptName :: systemNames)) initGenesis :=
    initGenesis_rule (P := Founded) ⟨.empty, .empty⟩ (fun _ _ _ h => Founded.createAccount h)
      (fun _ _ _ h => Founded.createAuthority h) (Returns.modify fun o ho => ⟨ho.1, ho.2⟩)
  obtain ⟨_, o, hrun, ho⟩ := hrun _ rfl
  have hgenesis : NewsChain.genesis = o := by
    rw [NewsChain.genesis, hrun]
    rfl
  refine ⟨⟨_, hgenesis ▸ ho⟩, fun i a ha hnone => ?_⟩
  rw [hnone] at ha
  cases ha

/-- Nothing else has a part in it. -/
theorem of_eq (h : Paired o) (haccounts : o'.accounts = o.accounts)
    (hauthorities : o'.authorities = o.authorities) : Paired o' := by
  obtain ⟨⟨names, hfounded⟩, hcreators⟩ := h
  refine ⟨⟨names, ?_, ?_⟩, ?_⟩
  · rw [haccounts]
    exact hfounded.accounts
  · rw [hauthorities]
    exact hfounded.authorities
  · unfold Objects.HasAccount
    rw [haccounts]
    exact hcreators

/-- The names are the same. -/
theorem hasAccount_iff (h : Paired o) (name : AccountName) :
    o.HasAccount name ↔ o.HasAuthority name := by
  obtain ⟨names, haccounts, hauthorities⟩ := h.names
  exact (haccounts.names name).trans (hauthorities.names name).symm

/-- **The second create cannot fail** when the first has not. -/
theorem second_returns (h : Paired o) {v : AccountObject} {w : AccountAuthorityObject}
    (hname : w.name = v.name) (hfirst : (create .accounts v).run o = .ok () o') :
    ∃ o'', (create .authorities w).run o' = .ok () o'' ∧
      ∃ names, v.name ∉ names ∧ Founded names names o ∧
        Founded (v.name :: names) (v.name :: names) o'' := by
  obtain ⟨names, hfounded⟩ := h.names
  have hfresh : v.name ∉ names := by
    refine (hfounded.accounts.emplace_isSome clash_account).mp ?_
    rw [run_create] at hfirst
    split at hfirst
    · rename_i c hc
      exact ⟨c, hc⟩
    · cases hfirst
  obtain ⟨_, o₁, hrun, h₁⟩ := Founded.createAccount (v := v) hfresh o hfounded
  rw [hfirst] at hrun
  cases hrun
  obtain ⟨_, o₂, hrun, h₂⟩ := Founded.createAuthority (v := w) (by rw [hname]; exact hfresh) o' h₁
  exact ⟨o₂, hrun, names, hfresh, hfounded, hname ▸ h₂⟩

/-! ## One operation -/

omit [Node] in
theorem run_createAccount (op : CreateAccountOperation) (o : Objects) : op.doApply.run o =
    if (o.accounts.table.findBy (·.name == op.creator)).isSome then
      if (o.accounts.table.findBy (·.name == op.name)).isNone then
        match (create .accounts
          { name := op.name, creator := op.creator, createTime := o.gpo.time }).run o with
        | .ok _ o₁ => (create .authorities
            { name := op.name, posting := op.posting, owner := op.owner }).run o₁
        | .error e o₁ => .error e o₁
      else .error (.assertion "user is existed.") o
    else .error (.assertion "not find creator") o := by
  simp only [CreateAccountOperation.doApply, EStateM.run_bind, EStateM.run_get, run_fcAssert]
  by_cases hcreator : (o.accounts.table.findBy (·.name == op.creator)).isSome
  · by_cases hname : (o.accounts.table.findBy (·.name == op.name)).isNone
    · simp only [if_pos hcreator, if_pos hname]
      cases (create .accounts
        { name := op.name, creator := op.creator, createTime := o.gpo.time }).run o <;> rfl
    · simp only [if_pos hcreator, if_neg hname]
  · simp only [if_neg hcreator]

/-- `create_account` creates both rows, or nothing is written. -/
theorem createAccount_cases (h : Paired o) (op : CreateAccountOperation) :
    (∃ e, op.doApply.run o = .error e o) ∨
    ∃ c o₂, o.accounts.emplace
        { name := op.name, creator := op.creator, createTime := o.gpo.time } = some c ∧
      op.doApply.run o = .ok () o₂ ∧ o₂.accounts = c ∧ o.HasAccount op.creator ∧
      ∃ names, Founded names names o ∧ Founded (op.name :: names) (op.name :: names) o₂ := by
  rw [run_createAccount]
  by_cases hcreator : (o.accounts.table.findBy (·.name == op.creator)).isSome
  · rw [if_pos hcreator]
    by_cases hname : (o.accounts.table.findBy (·.name == op.name)).isNone
    · rw [if_pos hname, run_create]
      cases hc : (Column.accounts.get o).emplace
          { name := op.name, creator := op.creator, createTime := o.gpo.time } with
      | none => exact .inl ⟨_, rfl⟩
      | some c =>
        have hfirst : (create .accounts
            { name := op.name, creator := op.creator, createTime := o.gpo.time }).run o =
              .ok () (Column.accounts.set c o) := by rw [run_create, hc]
        obtain ⟨o₂, hsecond, names, -, hfounded, hfounded'⟩ := h.second_returns
          (w := { name := op.name, posting := op.posting, owner := op.owner }) rfl hfirst
        refine .inr ⟨c, o₂, hc, hsecond, ?_, ?_, names, hfounded, hfounded'⟩
        · rw [run_create] at hsecond
          split at hsecond
          · cases hsecond
            rfl
          · cases hsecond
        · obtain ⟨r, hr⟩ := Option.isSome_iff_exists.mp hcreator
          obtain ⟨hget, hfound⟩ := Table.findBy_eq_some hr
          exact ⟨r.1, r.2, hget, beq_iff_eq.mp hfound⟩
    · rw [if_neg hname]
      exact .inl ⟨_, rfl⟩
  · rw [if_neg hcreator]
    exact .inl ⟨_, rfl⟩

theorem createAccount (op : CreateAccountOperation) : Keeps Paired op.doApply := by
  intro o ho
  rcases ho.createAccount_cases op with ⟨e, hrun⟩ | ⟨c, o₂, hc, hrun, hacc, hthere, names, hfounded,
    hfounded'⟩
  · rw [hrun]
    exact ho
  · rw [hrun]
    -- Nobody loses an account.
    have hgrown : ∀ name, o.HasAccount name → o₂.HasAccount name := fun name hname =>
      (hfounded'.accounts.names name).mpr (.tail _ ((hfounded.accounts.names name).mp hname))
    refine ⟨⟨_, hfounded'⟩, fun i a ha hnone => hgrown _ ?_⟩
    rw [finalState_ok, hacc, Content.get?_emplace hc] at ha
    split at ha
    · cases ha
      exact hthere
    · exact ho.creators i a ha hnone

/-- A balance has no part in it. -/
theorem keptByBalances : KeptByBalances Paired := by
  rintro o i f ⟨⟨names, hfounded⟩, hcreators⟩
  have hnames : Founded names names { o with accounts := o.accounts.modify i (setBalance f) } :=
    ⟨hfounded.accounts.modify i _ fun _ => rfl, hfounded.authorities⟩
  refine ⟨⟨names, hnames⟩, fun j a ha hnone => ?_⟩
  have hthere : o.HasAccount a.creator := by
    have hget : (o.accounts.modify i (setBalance f)).table.get? j = some a := ha
    rw [Content.modify, Table.get?_modify] at hget
    split at hget
    · rename_i hj
      obtain ⟨b, hb, rfl⟩ := Option.map_eq_some_iff.mp hget
      exact hcreators i b hb (hj ▸ hnone)
    · exact hcreators j a hget hnone
  exact (hnames.accounts.names _).mpr ((hfounded.accounts.names _).mp hthere)

theorem evaluate (op : Operation) : Keeps Paired op.evaluate := by
  cases op with
  | createAccount op => exact createAccount op
  | transfer op => exact transfer_keeps keptByBalances op
  | transfers op => exact transfers_keeps keptByBalances op

end Paired

/-- **Every state that is reached is paired.** -/
theorem IsReached.paired {o : Objects} (h : IsReached o) : Paired o := by
  obtain ⟨notes, h⟩ := h
  induction h with
  | genesis => exact .genesis
  | operation _ hrun ih =>
    exact notify_keeps ⟨fun _ _ h => h.of_eq rfl rfl, fun _ _ h => h.of_eq rfl rfl⟩ _ _
      ((Paired.evaluate _).of_ok ih hrun)
  | refused _ hrun ih => exact (Paired.evaluate _).of_error ih hrun
  | write _ _ _ _ _ ih => exact ih.of_eq rfl rfl

/-! ## Looking a key up -/

/-- `get_owner` of `_apply_transaction`. -/
def Objects.ownerKey (o : Objects) : GetKeyByName := fun name =>
  match o.authorityOf name with
  | none => .error (.assertion "in verify_authority, cant find account")
  | some a => .ok a.2.owner.key

omit [Node] in
theorem authorityOf_isSome {o : Objects} {name : AccountName} :
    (o.authorityOf name).isSome ↔ o.HasAuthority name := by
  constructor
  · intro hsome
    obtain ⟨r, hr⟩ := Option.isSome_iff_exists.mp hsome
    obtain ⟨hget, hname⟩ := Table.findBy_eq_some hr
    exact ⟨r.1, r.2, hget, beq_iff_eq.mp hname⟩
  · rintro ⟨i, a, ha, hname⟩
    by_contra hnone
    have hfind := Option.not_isSome_iff_eq_none.mp hnone
    have hother := Table.findBy_eq_none.mp hfind i a ha
    rw [beq_eq_false_iff_ne] at hother
    exact hother hname

/-- **Accounts and authorities stay paired.** The present objects of a database and those of its open
sessions are reached, whatever was called, returned or thrown. In every state that is reached both
indexes carry the same names, each once; the creator of an account after genesis has an account;
after the first create of `create_account` the second returns; and a key is found exactly for
the name of an account. -/
theorem reached_paired :
    (∀ d, AnyRun d → Throughout IsReached d) ∧
    ∀ o, IsReached o →
      (∀ name, o.HasAccount name ↔ o.HasAuthority name) ∧
      (∀ i j a b, o.accounts.table.get? i = some a → o.accounts.table.get? j = some b →
        a.name = b.name → i = j) ∧
      (∀ i j a b, o.authorities.table.get? i = some a → o.authorities.table.get? j = some b →
        a.name = b.name → i = j) ∧
      (∀ i a, o.accounts.table.get? i = some a → genesis.accounts.table.get? i = none →
        o.HasAccount a.creator) ∧
      (∀ (op : CreateAccountOperation) o', (create .accounts
          { name := op.name, creator := op.creator, createTime := o.gpo.time }).run o = .ok () o' →
        Returned ((create .authorities
          { name := op.name, posting := op.posting, owner := op.owner }).run o')) ∧
      ∀ name, ((∃ k, o.postingKey name = .ok k) ↔ o.HasAccount name) ∧
        ((∃ k, o.ownerKey name = .ok k) ↔ o.HasAccount name) := by
  refine ⟨fun d => anyRun_reached, fun o ho => ?_⟩
  have hpaired := ho.paired
  refine ⟨hpaired.hasAccount_iff, fun i j a b ha hb hname => ?_, fun i j a b ha hb hname => ?_,
    hpaired.creators, fun op o' hfirst => ?_, fun name => ?_⟩
  · exact o.accounts.table.unique i j a b ha hb ((clash_account a b).mpr hname)
  · exact o.authorities.table.unique i j a b ha hb ((clash_authority a b).mpr hname)
  · obtain ⟨o'', hsecond, -⟩ := hpaired.second_returns
      (w := { name := op.name, posting := op.posting, owner := op.owner }) rfl hfirst
    exact ⟨(), o'', hsecond⟩
  · rw [hpaired.hasAccount_iff, ← authorityOf_isSome, Objects.postingKey, Objects.ownerKey]
    cases o.authorityOf name <;> simp

omit [Node] in
/-- An account that was created in a pending transaction has its authority, and a creator. -/
theorem reached_paired_created :
    let _ : Node := smallNode
    ∃ d : Database, AnyRun d ∧ d.store.frames ≠ [] ∧ d.store.content.HasAuthority 1000 ∧
      (∃ k, d.store.content.ownerKey 1000 = .ok k) ∧
      (∀ i j a b, d.store.content.accounts.table.get? i = some a →
        d.store.content.accounts.table.get? j = some b → a.name = b.name → i = j) ∧
      ∀ i a, d.store.content.accounts.table.get? i = some a →
        genesis.accounts.table.get? i = none → d.store.content.HasAccount a.creator := by
  intro node
  let op : CreateAccountOperation :=
    { name := 1000
      creator := 1
      posting := { key := 1, weightType := 1 }
      owner := { key := 1, weightType := 1 } }
  let trx : SignedTransaction := { unitTransfer 2 with operations := [.createAccount op] }
  let d : Database := finalState ((pushTransaction skipNothing trx).run .genesis)
  have hrun : AnyRun d := .pushTransaction skipNothing trx .genesis
  have hthere : ∃ r ∈ d.store.content.accounts.table.findBy (·.name == 1000), r.2.name = 1000 := by
    decide +kernel
  obtain ⟨r, hr, hname⟩ := hthere
  have haccount : d.store.content.HasAccount 1000 := ⟨r.1, r.2, (Table.findBy_eq_some hr).1, hname⟩
  obtain ⟨hreached, hpaired⟩ := reached_paired
  obtain ⟨hnames, hunique, -, hcreators, -, hkeys⟩ := hpaired _ (hreached d hrun).content
  exact ⟨d, hrun, by decide +kernel, (hnames 1000).mp haccount, (hkeys 1000).2.mpr haccount, hunique,
    hcreators⟩

end NewsChain
