import NewsChain.Laws.ApplyBlock

/-!
# No transaction twice on one chain

A transaction is refused where its id is in the transaction index. The index forgets an id when
the transaction has expired by the head's time, and an expired transaction is refused by its
expiration, so an id can be applied once: `sessionRun_noReplay`.

The expiration is not looked at while the head's number is 0, which is meant for the first block.
`replayed_over_zero` is a chain that is at number 0 after its first block.
-/

namespace NewsChain

section Runs

variable [Node]

/-- The transactions of a chain of blocks, newest block first. -/
def chainTransactions (chain : List SignedBlock) : List SignedTransaction :=
  chain.flatMap (·.transactions)

/-! ## One transaction -/

/-- A transaction that passes the checks has not expired, unless the head's number is 0. -/
theorem checkTransaction_live {skip : SkipFlags} {t : SignedTransaction} {o o' : Objects}
    (h : (checkTransaction skip t).run o = .ok () o') :
    0 < o.gpo.headBlockNum → o.gpo.time ≤ t.expiration := by
  intro hnum
  unfold checkTransaction at h
  obtain ⟨_, o₁, hvalid, h⟩ := bind_eq_ok.mp h
  rw [(Keeps.onlyIf fun _ => validate_keeps _).of_ok (I := (· = o)) rfl hvalid] at h
  obtain ⟨_, o₂, hget, h⟩ := bind_eq_ok.mp h
  cases hget
  obtain ⟨_, o₃, hdupe, h⟩ := bind_eq_ok.mp h
  rw [(fcAssert_eq_ok.mp hdupe).2] at h
  obtain ⟨_, o₄, hget, h⟩ := bind_eq_ok.mp h
  cases hget
  obtain ⟨_, o₅, hexp, h⟩ := bind_eq_ok.mp h
  rw [run_onlyIf, if_pos hnum] at hexp
  obtain ⟨_, o₆, htapos, hexp⟩ := bind_eq_ok.mp hexp
  rw [(Keeps.onlyIf fun _ => Keeps.get.bind fun _ => Keeps.fcAssert).of_ok (I := (· = o)) rfl
    htapos] at hexp
  obtain ⟨_, o₇, hget, hexp⟩ := bind_eq_ok.mp hexp
  cases hget
  exact (fcAssert_eq_ok.mp hexp).1

/-- A transaction that is applied was new to the index, is now in it, and had not expired. -/
theorem applyTransactionImpl_enters {skip : SkipFlags} {num : Nat} {t : SignedTransaction}
    {o o' : Objects} (hskip : skip.has skipTransactionDupeCheck = false)
    (h : (applyTransactionImpl skip num t).run o = .ok () o') :
    o.transactions.emplace
        { trxId := t.id, expiration := t.expiration, packedTrx := Env.pack t } =
      some o'.transactions ∧
    o'.gpo = o.gpo ∧ (0 < o.gpo.headBlockNum → o.gpo.time ≤ t.expiration) := by
  obtain ⟨_, o₁, henter, hops⟩ := bind_eq_ok.mp h
  obtain ⟨_, o₂, hcheck, hcreate⟩ := bind_eq_ok.mp henter
  have hsame : o₂ = o := (checkTransaction_keeps skip t).of_ok (I := (· = o)) rfl hcheck
  subst hsame
  have hafter : o'.transactions = o₁.transactions ∧ o'.gpo = o₁.gpo :=
    (applyOperations_keeps (I := fun x => x.transactions = o₁.transactions ∧ x.gpo = o₁.gpo)
      ⟨fun _ _ h => h, fun _ _ h => h⟩ ⟨fun _ _ h => h, fun _ _ h => h⟩ _ _ _ _).of_ok
      ⟨rfl, rfl⟩ hops
  rw [run_onlyIf, if_pos (by simp [hskip]), run_create] at hcreate
  split at hcreate
  · rename_i c hc
    cases hcreate
    exact ⟨hafter.1 ▸ hc, hafter.2, checkTransaction_live hcheck⟩
  · cases hcreate

/-! ## The invariant inside a block -/

/-- The transaction index during a block, after the transactions `ts` of the chain: distinct ids,
one row for each that has not expired, and no others. -/
structure Entered (ts : List SignedTransaction) (o : Objects) : Prop where
  nodup : (ts.map (·.id)).Nodup
  known : ∀ t ∈ ts, (0 < o.gpo.headBlockNum → o.gpo.time ≤ t.expiration) →
    ∃ i r, o.transactions.table.get? i = some r ∧ r.trxId = t.id
  rows : ∀ i r, o.transactions.table.get? i = some r →
    ∃ t ∈ ts, t.id = r.trxId ∧ t.expiration = r.expiration

variable {S : SignedTransaction → Prop}

/-- Applying one more transaction of `S` keeps the index in step, as the id of a transaction in
`S` fixes its expiration. -/
theorem Entered.applyTransaction {skip : SkipFlags} {num : Nat} {t : SignedTransaction}
    {ts : List SignedTransaction} {o o' : Objects}
    (hid : ∀ t t', S t → S t' → t.id = t'.id → t.expiration = t'.expiration)
    (hskip : skip.has skipTransactionDupeCheck = false) (hS : ∀ t' ∈ t :: ts, S t')
    (ho : Entered ts o) (h : (applyTransactionImpl skip num t).run o = .ok () o') :
    Entered (t :: ts) o' := by
  obtain ⟨hemplace, hgpo, hlive⟩ := applyTransactionImpl_enters hskip h
  have hget := Content.get?_emplace hemplace
  obtain ⟨hnone, hfits, hstore⟩ := Content.emplace_eq_some.mp hemplace
  have hfresh : t.id ∉ ts.map (·.id) := by
    intro hmem
    obtain ⟨t', ht', heq⟩ := List.mem_map.mp hmem
    have hexp := hid t' t (hS _ (List.mem_cons_of_mem _ ht')) (hS _ List.mem_cons_self) heq
    obtain ⟨i, r, hr, hrid⟩ := ho.known t' ht' fun hnum => hexp ▸ hlive hnum
    have hne : i ≠ o.transactions.nextId := by
      rintro rfl
      rw [hnone] at hr
      cases hr
    exact Table.fits_iff.mp hfits i r hr hne
      ⟨_, List.mem_cons_self, (hrid.trans heq).symm⟩
  refine ⟨List.nodup_cons.mpr ⟨hfresh, ho.nodup⟩, ?_, ?_⟩
  · intro t' ht' hlive'
    rw [hgpo] at hlive'
    rcases List.mem_cons.mp ht' with rfl | ht'
    · exact ⟨o.transactions.nextId, _, by rw [hget, if_pos rfl], rfl⟩
    · obtain ⟨i, r, hr, hrid⟩ := ho.known t' ht' hlive'
      have hne : i ≠ o.transactions.nextId := by
        rintro rfl
        rw [hnone] at hr
        cases hr
      exact ⟨i, r, by rw [hget, if_neg hne, hr], hrid⟩
  · intro i r hr
    rw [hget] at hr
    split at hr
    · cases hr
      exact ⟨t, List.mem_cons_self, rfl, rfl⟩
    · obtain ⟨t', ht', hrow⟩ := ho.rows i r hr
      exact ⟨t', List.mem_cons_of_mem _ ht', hrow⟩

/-- The same for the transactions of a block, one after the other. -/
theorem Entered.applyTransactions {skip : SkipFlags} {num : Nat} {new ts : List SignedTransaction}
    {o o' : Objects}
    (hid : ∀ t t', S t → S t' → t.id = t'.id → t.expiration = t'.expiration)
    (hskip : skip.has skipTransactionDupeCheck = false) (hnew : ∀ t ∈ new, S t)
    (hts : ∀ t ∈ ts, S t) (ho : Entered ts o)
    (h : (forM new (applyTransactionImpl skip num)).run o = .ok () o') :
    Entered (new.reverse ++ ts) o' ∧ o'.gpo = o.gpo := by
  induction new generalizing ts o with
  | nil =>
    cases h
    exact ⟨ho, rfl⟩
  | cons t new ih =>
    rw [List.forM_cons] at h
    obtain ⟨_, o₁, ht, hrest⟩ := bind_eq_ok.mp h
    have hcons : ∀ t' ∈ t :: ts, S t' := fun t' ht' => by
      rcases List.mem_cons.mp ht' with rfl | ht'
      · exact hnew _ List.mem_cons_self
      · exact hts t' ht'
    obtain ⟨hent, hgpo⟩ := ih (fun t' ht' => hnew t' (List.mem_cons_of_mem _ ht')) hcons
      (ho.applyTransaction hid hskip hcons ht) hrest
    refine ⟨by simpa using hent, hgpo.trans (applyTransactionImpl_enters hskip ht).2.1⟩

/-! ## The invariant between blocks -/

/-- What holds of a chain and the objects it leads to: no id twice, and the index holds the
chain's transactions that have not expired by the head's time. -/
structure NoReplay (chain : List SignedBlock) (o : Objects) : Prop where
  nodup : ((chainTransactions chain).map (·.id)).Nodup
  index : ∀ id, o.isKnowTransaction id = true ↔
    ∃ t ∈ chainTransactions chain, t.id = id ∧ o.gpo.time ≤ t.expiration

/-- The invariant behind `NoReplay`. -/
structure Replayable (S : SignedTransaction → Prop) (chain : List SignedBlock) (o : Objects) :
    Prop where
  entered : Entered (chainTransactions chain) o
  live : ∀ i r, o.transactions.table.get? i = some r → o.gpo.time ≤ r.expiration
  mem : ∀ t ∈ chainTransactions chain, S t
  fresh : chain = [] → o.gpo.headBlockNum = 0
  hardfork : HardforkOk o

omit [Node] in
theorem isKnowTransaction_iff {o : Objects} {id : TransactionId} :
    o.isKnowTransaction id = true ↔
      ∃ i r, o.transactions.table.get? i = some r ∧ r.trxId = id := by
  unfold Objects.isKnowTransaction
  constructor
  · intro h
    obtain ⟨r, hr⟩ := Option.isSome_iff_exists.mp h
    obtain ⟨hget, hid⟩ := Table.findBy_eq_some hr
    exact ⟨r.1, r.2, hget, by simpa using hid⟩
  · rintro ⟨i, r, hr, hid⟩
    by_contra hnone
    have := Table.findBy_eq_none.mp (Option.not_isSome_iff_eq_none.mp hnone) i r hr
    simp [hid] at this

theorem Replayable.noReplay {chain : List SignedBlock} {o : Objects} (h : Replayable S chain o) :
    NoReplay chain o := by
  refine ⟨h.entered.nodup, fun id => isKnowTransaction_iff.trans ⟨?_, ?_⟩⟩
  · rintro ⟨i, r, hr, rfl⟩
    obtain ⟨t, ht, hid, hexp⟩ := h.entered.rows i r hr
    exact ⟨t, ht, hid, hexp ▸ h.live i r hr⟩
  · rintro ⟨t, ht, rfl, hlive⟩
    exact h.entered.known t ht fun _ => hlive

theorem replayable_genesis : Replayable S [] genesis where
  entered :=
    { nodup := .nil
      known := nofun
      rows := fun i r h => by
        rw [blank_genesis.2] at h
        cases h }
  live := fun i r h => by
    rw [blank_genesis.2] at h
    cases h
  mem := nofun
  fresh := fun _ => by rw [blank_genesis.1]
  hardfork := hardforkOk_genesis

/-- A block of `S`-transactions, not older than its parent and not numbered 0, keeps the
invariant. -/
theorem Replayable.applyBlock {skip : SkipFlags} {b : SignedBlock} {chain : List SignedBlock}
    {o o' : Objects} (hid : ∀ t t', S t → S t' → t.id = t'.id → t.expiration = t'.expiration)
    (hskip : skip.has skipTransactionDupeCheck = false)
    (htime : chain ≠ [] → o.gpo.time ≤ b.timestamp) (hnum : b.blockNum ≠ 0)
    (hS : ∀ t ∈ b.transactions, S t) (ho : Replayable S chain o)
    (h : (Objects.applyBlock skip b).run o = .ok () o') : Replayable S (b :: chain) o' := by
  obtain ⟨hgpo, hfork⟩ := gpo_applyBlock ho.hardfork h
  have htime' : o'.gpo.time = b.timestamp := by simp [hgpo, DynamicGlobalProperty.entered]
  have hnum' : 0 < o'.gpo.headBlockNum := by
    simp only [hgpo, DynamicGlobalProperty.raised_headBlockNum, DynamicGlobalProperty.entered]
    omega
  obtain ⟨x, o₁, htrx, hget⟩ := transactions_applyBlock ho.hardfork h
  obtain ⟨hent, hgpo₁⟩ := Entered.applyTransactions (o := { o with hardfork := x }) hid hskip hS
    ho.mem ⟨ho.entered.nodup, ho.entered.known, ho.entered.rows⟩ htrx
  have hrow : ∀ i r, o'.transactions.table.get? i = some r ↔
      o₁.transactions.table.get? i = some r ∧ b.timestamp ≤ r.expiration := by
    intro i r
    rw [hget, Option.filter_eq_some_iff, decide_eq_true_eq]
  have hmem : ∀ t, t ∈ chainTransactions (b :: chain) ↔
      t ∈ b.transactions.reverse ++ chainTransactions chain := by
    simp [chainTransactions]
  have hperm : ((chainTransactions (b :: chain)).map (·.id)).Perm
      ((b.transactions.reverse ++ chainTransactions chain).map (·.id)) :=
    ((List.reverse_perm _).symm.append_right _).map _
  -- What is live at the new head was live at the old one, unless there was none.
  have hlive : ∀ t : SignedTransaction, b.timestamp ≤ t.expiration →
      0 < o₁.gpo.headBlockNum → o₁.gpo.time ≤ t.expiration := by
    intro t ht hpos
    rw [hgpo₁] at hpos ⊢
    refine UInt32.le_trans (htime fun hchain => ?_) ht
    exact absurd (ho.fresh hchain) (Nat.ne_of_gt hpos)
  have hSmem : ∀ t ∈ b.transactions.reverse ++ chainTransactions chain, S t := by
    intro t ht
    rcases List.mem_append.mp ht with ht | ht
    · exact hS t (List.mem_reverse.mp ht)
    · exact ho.mem t ht
  refine ⟨⟨hperm.nodup_iff.mpr hent.nodup, ?_, ?_⟩, ?_, ?_,
    fun h => absurd h (List.cons_ne_nil _ _), hfork⟩
  · intro t ht ht'
    have hexp : b.timestamp ≤ t.expiration := htime' ▸ ht' hnum'
    obtain ⟨i, r, hr, hrid⟩ := hent.known t ((hmem t).mp ht) (hlive t hexp)
    obtain ⟨t', ht₂, hid', hexp'⟩ := hent.rows i r hr
    have hsame := hid t' t (hSmem t' ht₂) (hSmem t ((hmem t).mp ht)) (hid'.trans hrid)
    exact ⟨i, r, (hrow i r).mpr ⟨hr, by rw [← hexp', hsame]; exact hexp⟩, hrid⟩
  · intro i r hr
    obtain ⟨t, ht, hrow'⟩ := hent.rows i r ((hrow i r).mp hr).1
    exact ⟨t, (hmem t).mpr ht, hrow'⟩
  · intro i r hr
    exact htime' ▸ ((hrow i r).mp hr).2
  · exact fun t ht => hSmem t ((hmem t).mp ht)

/-! ## Runs -/

/-- The chains and stores reached from genesis by applying blocks in sessions and by undoing the
newest block, with the duplicate check on and along which time does not go back from a block to
its child. `P` is asked of each block; everything outside the store may change freely. -/
inductive SessionRun (P : SignedBlock → Prop) : List SignedBlock → Snapshots Objects → Prop
  | genesis : SessionRun P [] { content := genesis }
  | apply {chain : List SignedBlock} {skip : SkipFlags} {b : SignedBlock} {d d' : Database} :
      SessionRun P chain d.store → skip.has skipTransactionDupeCheck = false →
        (chain ≠ [] → d.gpo.time ≤ b.timestamp) → P b →
        (applyInSession skip b).run d = .ok () d' → SessionRun P (b :: chain) d'.store
  | undo {chain : List SignedBlock} {b : SignedBlock} {s : Snapshots Objects} :
      SessionRun P (b :: chain) s → s.frames ≠ [] → SessionRun P chain s.undo

/-- Every content the store can go back to belongs to the chain it goes back to. -/
theorem SessionRun.tracks {P : SignedBlock → Prop} {chain : List SignedBlock}
    {s : Snapshots Objects} (hid : ∀ t t', S t → S t' → t.id = t'.id → t.expiration = t'.expiration)
    (hP : ∀ b, P b → b.blockNum ≠ 0 ∧ ∀ t ∈ b.transactions, S t) (h : SessionRun P chain s) :
    s.Tracks (Replayable S) chain := by
  induction h with
  | genesis => exact .initial replayable_genesis
  | apply _ hskip htime hb happly ih =>
    obtain ⟨r, o, hrun, hstore⟩ := applyInSession_eq_ok happly
    have hnext := ih.content.applyBlock hid hskip htime (hP _ hb).1 (hP _ hb).2 hrun
    rw [hstore]
    exact (ih.put_start hnext).commit r
  | undo _ hframes ih => exact ih.undo hframes

/-- **No replay on one chain.** Where no block has number 0 and an id fixes the expiration among
the run's transactions, no id is applied twice on the chain, and the index holds exactly the ids of
the chain's transactions that have not expired by the head's time. -/
theorem sessionRun_noReplay {chain : List SignedBlock} {s : Snapshots Objects}
    (hid : ∀ t t', S t → S t' → t.id = t'.id → t.expiration = t'.expiration)
    (h : SessionRun (fun b => b.blockNum ≠ 0 ∧ ∀ t ∈ b.transactions, S t) chain s) :
    NoReplay chain s.content :=
  (h.tracks hid fun _ hb => hb).content.noReplay

end Runs

/-- A block over genesis with one transfer: its transaction is in the index once. -/
theorem sessionRun_noReplay_unitTransfer :
    @NoReplay smallNode [@blockOn smallNode .null genesisTime [unitTransfer 10]]
      (@Database.store smallNode (finalState ((@applyInSession smallNode skipNothing
        (@blockOn smallNode .null genesisTime [unitTransfer 10])).run
          (@Database.genesis smallNode)))).content := by
  let _ : Node := smallNode
  have hreturned : Returned ((applyInSession skipNothing
      (blockOn .null genesisTime [unitTransfer 10])).run .genesis) := by decide +kernel
  obtain ⟨_, hrun⟩ := eq_ok_of_returned hreturned
  exact sessionRun_noReplay (S := (· = unitTransfer 10)) (fun _ _ h h' _ => by rw [h, h'])
    (.apply (d := .genesis) .genesis (by decide) (fun h => absurd rfl h)
      ⟨by decide +kernel, fun t ht => List.mem_singleton.mp ht⟩ hrun)

/-- With a block numbered 0 a transaction can be replayed: the expiration is not looked at over
such a head either, so a transaction the index has forgotten is applied again. -/
theorem replayed_over_zero :
    ¬ ∀ chain s, @SessionRun smallNode (fun b => ∀ t ∈ b.transactions, t = unitTransfer 10) chain s →
      @NoReplay smallNode chain s.content := by
  let _ : Node := smallNode
  intro h
  let x : SignedBlock := blockOn ⟨0xFFFFFFFF, 0, 0, 0, 0⟩ (genesisTime + 3) [unitTransfer 10]
  let y : SignedBlock := blockOn x.id (genesisTime + 6) [unitTransfer 10]
  let d : Database := finalState ((applyInSession skipNothing x).run .genesis)
  have hx : Returned ((applyInSession skipNothing x).run .genesis) := by decide +kernel
  have hy : Returned ((applyInSession skipNothing y).run d) := by decide +kernel
  obtain ⟨_, hx⟩ := eq_ok_of_returned hx
  obtain ⟨_, hy⟩ := eq_ok_of_returned hy
  have htime : d.gpo.time ≤ y.timestamp := by decide +kernel
  have hchain := (h _ _ (.apply (.apply (d := .genesis) .genesis (by decide) (fun h => absurd rfl h)
    (fun t ht => List.mem_singleton.mp ht) hx) (by decide) (fun _ => htime)
    (fun t ht => List.mem_singleton.mp ht) hy)).nodup
  revert hchain
  decide +kernel

end NewsChain
