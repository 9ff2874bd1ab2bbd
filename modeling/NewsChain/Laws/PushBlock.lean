import NewsChain.Laws.ForkBranch
import NewsChain.Laws.Pending

/-!
# `_push_block` as a run

The parts of `_push_block` as equations between runs, and the rule its invariants are proved with:
every block it applies, except on the direct path, builds on the head it is applied to.
-/

namespace NewsChain

open EStateM (Result)

variable [Node]

/-! ## The parts as equations -/

/-- `fork_database::remove` of the id of each item. -/
def ForkDatabase.removeAll (fdb : ForkDatabase) (items : List ForkItem) : ForkDatabase :=
  items.foldl (fun f i => f.remove i.id) fdb

section Parts

variable {d : Database} {skip : SkipFlags} {b : SignedBlock}

@[simp] theorem run_modifyForkDb (f : ForkDatabase → ForkDatabase) (d : Database) :
    (modifyForkDb f).run d = .ok () { d with forkDb := f d.forkDb } := rfl

theorem run_forkDb {α : Type} (f : ForkDatabase → Except Exc (α × ForkDatabase)) (d : Database) :
    (forkDb f).run d =
      match f d.forkDb with
      | .ok (a, fdb) => .ok a { d with forkDb := fdb }
      | .error e => .error e d := rfl

theorem resetPendingSession_settled (h : d.pendingSession = false) :
    resetPendingSession.run d = .ok () d := by
  simp [resetPendingSession, h]

theorem run_popBlock (h : d.pendingSession = false) :
    popBlock.run d =
      match d.fetchBlockById d.headBlockId with
      | none => .error (.assertion "there is no block to pop") d
      | some headBlock =>
        match d.forkDb.popBlock with
        | .error e => .error e d
        | .ok fdb => .ok ()
          { d with
            forkDb := fdb
            store := d.store.undo
            poppedTx := headBlock.transactions ++ d.poppedTx } := by
  simp only [popBlock, EStateM.run_bind, resetPendingSession_settled h, EStateM.run_get]
  cases d.fetchBlockById d.headBlockId with
  | none => rfl
  | some headBlock =>
    simp only [EStateM.run_bind, run_forkDb]
    cases d.forkDb.popBlock <;> rfl

theorem run_applyPushed (skip : SkipFlags) (b : SignedBlock) (d : Database) :
    (applyPushed skip b).run d =
      match (applyInSession skip b).run d with
      | .ok _ d' => .ok true d'
      | .error e d' => .error e { d' with forkDb := d'.forkDb.remove b.id } := by
  simp only [applyPushed, run_tryCatch, EStateM.run_bind]
  cases (applyInSession skip b).run d <;> rfl

theorem run_removeAll (items : List ForkItem) (d : Database) :
    (forM items fun i => modifyForkDb (·.remove i.id) : DbM Unit).run d =
      .ok () { d with forkDb := d.forkDb.removeAll items } := by
  induction items generalizing d with
  | nil => rfl
  | cons i items ih =>
    rw [List.forM_cons, EStateM.run_bind]
    exact ih { d with forkDb := d.forkDb.remove i.id }

theorem run_restoreBranch (skip : SkipFlags) (failed : List ForkItem) (old : Branch) (e : Exc)
    (d : Database) :
    (restoreBranch skip failed old e).run d =
      let d₁ := { d with forkDb := (d.forkDb.removeAll failed).setHead old.front }
      match (popUntil old.back.data.previous d₁.popRounds).run d₁ with
      | .error e' d₂ => .error e' d₂
      | .ok _ d₂ =>
        match (forM old.items fun i => applyInSession skip i.data : DbM Unit).run d₂ with
        | .error e' d₃ => .error e' d₃
        | .ok _ d₃ => .error e d₃ := by
  simp only [restoreBranch, EStateM.run_bind, run_removeAll, run_modifyForkDb, EStateM.run_get]
  cases (popUntil old.back.data.previous _).run _ with
  | error e' d₂ => rfl
  | ok _ d₂ =>
    cases hitems : (forM old.items fun i => applyInSession skip i.data : DbM Unit).run d₂ with
    | error e' d₃ => simp only [hitems]
    | ok _ d₃ =>
      simp only [hitems]
      rfl

theorem run_applyBranch_cons (skip : SkipFlags) (old : Branch) (i : ForkItem)
    (rest : List ForkItem) (d : Database) :
    (applyBranch skip old (i :: rest)).run d =
      match (applyInSession skip i.data).run d with
      | .ok _ d' => (applyBranch skip old rest).run d'
      | .error e d' => (restoreBranch skip (i :: rest) old e).run d' := by
  simp only [applyBranch, EStateM.run_bind, run_tryCatch]
  cases (applyInSession skip i.data).run d <;> rfl

theorem run_switchForks (skip : SkipFlags) (newHead : ForkItem) (d : Database) :
    (switchForks skip newHead).run d =
      match d.forkDb.fetchBranchFrom newHead.id d.headBlockId with
      | .error e => .error e d
      | .ok (first, second) =>
        let d₁ := { d with forkDb := d.forkDb.hold (first.items ++ second.items) }
        match (popUntil second.back.data.previous d₁.popRounds).run d₁ with
        | .error e d₂ => .error e d₂
        | .ok _ d₂ => (applyBranch skip second first.items).run d₂ := by
  simp only [switchForks, EStateM.run_bind, EStateM.run_get, run_forkDb]
  cases d.forkDb.fetchBranchFrom newHead.id d.headBlockId with
  | error e => rfl
  | ok branches =>
    simp only [Except.map, run_modifyForkDb]
    cases (popUntil branches.2.back.data.previous _).run _ <;> rfl

theorem run_pushBlockImpl_flags (hskip : skip.has skipForkDb = false) (b : SignedBlock)
    (d : Database) :
    (pushBlockImpl skip b).run d =
      match d.forkDb.pushBlock b with
      | .error e => .error e d
      | .ok (newBlock, fdb) =>
        let d₁ := { d with forkDb := fdb }
        if newBlock.data.previous ≠ d.headBlockId then
          if d.headBlockNum < newBlock.num then (switchForks skip newBlock).run d₁
          else .ok false d₁
        else (applyPushed skip b).run d₁ := by
  simp only [pushBlockImpl, hskip, Bool.not_false, if_true, EStateM.run_bind, run_forkDb]
  cases d.forkDb.pushBlock b with
  | error e => rfl
  | ok r =>
    have hid : Database.headBlockId { d with forkDb := r.2 } = d.headBlockId := rfl
    have hnum : Database.headBlockNum { d with forkDb := r.2 } = d.headBlockNum := rfl
    simp only [EStateM.run_get, hid]
    split
    · simp only [EStateM.run_bind, EStateM.run_get, hnum]
      split <;> rfl
    · rfl

theorem run_pushBlockImpl (b : SignedBlock) (d : Database) :
    (pushBlockImpl skipNothing b).run d =
      match d.forkDb.pushBlock b with
      | .error e => .error e d
      | .ok (newBlock, fdb) =>
        let d₁ := { d with forkDb := fdb }
        if newBlock.data.previous ≠ d.headBlockId then
          if d.headBlockNum < newBlock.num then (switchForks skipNothing newBlock).run d₁
          else .ok false d₁
        else (applyPushed skipNothing b).run d₁ :=
  run_pushBlockImpl_flags (by decide) b d

theorem run_releaseItems {α : Type} (m : DbM α) (d : Database) :
    (releaseItems m).run d =
      match m.run d with
      | .ok a d' => .ok a { d' with forkDb := d'.forkDb.hold [] }
      | .error e d' => .error e { d' with forkDb := d'.forkDb.hold [] } := by
  simp only [releaseItems, EStateM.run_bind, run_tryCatch]
  cases m.run d <;> rfl

end Parts

/-! ## Popping down to a block -/

theorem ForkDatabase.popBlock_eq_ok {fdb fdb' : ForkDatabase} :
    fdb.popBlock = .ok fdb' ↔
      ∃ head prev, fdb.head = some head ∧ head.Follows prev ∧ fdb.owns prev.ptr = true ∧
        fdb' = fdb.setHead prev := by
  unfold ForkDatabase.popBlock
  cases hhead : fdb.head with
  | none => simp
  | some head =>
    simp only [ForkDatabase.lineage]
    cases hanc : head.ancestors with
    | nil =>
      simp only [List.takeWhile_nil, reduceCtorEq, false_iff]
      rintro ⟨_, prev, ⟨⟩, hprev, -⟩
      rw [hprev.ancestors] at hanc
      cases hanc
    | cons p ps =>
      have hfollows := (head.ancestors_eq_cons hanc).1
      simp only [List.takeWhile_cons]
      split
      · rename_i hmatch
        split at hmatch
        · rename_i howns
          cases hmatch
          constructor
          · intro h
            cases h
            exact ⟨head, p, rfl, hfollows, howns, rfl⟩
          · rintro ⟨_, prev, ⟨⟩, hprev, -, rfl⟩
            rw [hprev.ancestors] at hanc
            cases hanc
            rfl
        · cases hmatch
      · rename_i hmatch
        simp only [reduceCtorEq, false_iff]
        rintro ⟨_, prev, ⟨⟩, hprev, howns, -⟩
        rw [hprev.ancestors] at hanc
        cases hanc
        exact hmatch _ _ _ (by rw [if_pos howns])

/-- `popUntil` keeps what a pop keeps, and it returns only at the block it was asked for: the
rounds do not run out, since every pop shortens the line of the fork database's head. -/
theorem popUntil_cases {P : Database → Prop} {id : BlockId} {rounds : Nat} {d : Database}
    (hsettled : ∀ d, P d → d.pendingSession = false)
    (hpop : ∀ d d', P d → d.headBlockId ≠ id → popBlock.run d = .ok () d' → P d')
    (hd : P d) (hrounds : d.popRounds ≤ rounds) :
    (∃ d', (popUntil id rounds).run d = .ok () d' ∧ P d' ∧ d'.headBlockId = id) ∨
      ∃ e d', (popUntil id rounds).run d = .error e d' ∧ P d' ∧ d'.headBlockId ≠ id ∧
        popBlock.run d' = .error e d' := by
  induction rounds generalizing d with
  | zero =>
    exfalso
    simp only [Database.popRounds] at hrounds
    cases hhead : d.forkDb.head <;> simp [hhead] at hrounds
  | succ rounds ih =>
    have hrun : (popUntil id (rounds + 1)).run d =
        if d.headBlockId ≠ id then (popBlock >>= fun _ => popUntil id rounds).run d
        else .ok () d := run_onlyIf _ _ d
    by_cases hid : d.headBlockId = id
    · exact .inl ⟨d, by rw [hrun, if_neg (not_not.mpr hid)], hd, hid⟩
    · rw [hrun, if_pos hid, EStateM.run_bind]
      cases hrun' : popBlock.run d with
      | error e d' =>
        have hsame : d' = d := by
          rw [run_popBlock (hsettled d hd)] at hrun'
          split at hrun'
          · cases hrun'; rfl
          · split at hrun'
            · cases hrun'; rfl
            · cases hrun'
        subst hsame
        exact .inr ⟨e, d', rfl, hd, hid, hrun'⟩
      | ok _ d' =>
        refine ih (hpop d d' hd hid hrun') ?_
        rw [run_popBlock (hsettled d hd)] at hrun'
        split at hrun'
        · cases hrun'
        · split at hrun'
          · cases hrun'
          · rename_i fdb hfdb
            obtain ⟨head, prev, hhead, hprev, -, rfl⟩ := ForkDatabase.popBlock_eq_ok.mp hfdb
            cases hrun'
            have hlen : head.line.length = prev.line.length + 1 := by rw [hprev]; rfl
            simp only [Database.popRounds, hhead, Option.map_some, Option.getD_some] at hrounds
            simp only [Database.popRounds, ForkDatabase.setHead, Option.map_some,
              Option.getD_some]
            omega

/-! ## The rule -/

/-- The head number goes with the head id, and going back does not raise it. -/
def Lowers (I : Database → Prop) : Prop :=
  ∀ d, I d → d.headBlockNum = numFromId d.headBlockId ∧
    d.store.undo.content.gpo.headBlockNum ≤ d.headBlockNum

/-- What an invariant of `_push_block` has to show: of the fork database it only asks that there is
a head, a pop keeps it, and so does the application of a block that builds on the head. Such a
block has a number other than 0 wherever the head number cannot wrap around. -/
structure PushInvariant (I : Database → Prop) : Prop where
  settled : ∀ {d}, I d → d.pendingSession = false
  hardfork : ∀ {d}, I d → HardforkOk d.store.content
  forkDb : ∀ {d} fdb, (d.forkDb.head ≠ none → fdb.head ≠ none) → I d → I { d with forkDb := fdb }
  pop : ∀ {d} txs, I d → I { d with store := d.store.undo, poppedTx := txs }
  apply : ∀ {d} b, I d → b.previous = d.headBlockId → (Lowers I → b.blockNum ≠ 0) →
    I (finalState ((applyInSession skipNothing b).run d))

/-- An application that returned has made the block the head. -/
theorem gpo_applyInSession {skip : SkipFlags} {b : SignedBlock} {d d' : Database}
    (hfork : HardforkOk d.store.content) (h : (applyInSession skip b).run d = .ok () d') :
    d'.gpo = (d.gpo.entered b).raised := by
  obtain ⟨r, o, hrun, hstore⟩ := applyInSession_eq_ok h
  rw [Database.gpo, hstore]
  exact (gpo_applyBlock hfork hrun).1

namespace PushInvariant

variable {I : Database → Prop} {b : SignedBlock} {d : Database}

theorem popBlock (hI : PushInvariant I) {d' : Database} (hd : I d)
    (h : popBlock.run d = .ok () d') : I d' := by
  rw [run_popBlock (hI.settled hd)] at h
  split at h
  · cases h
  · split at h
    · cases h
    · rename_i fdb hfdb
      obtain ⟨_, prev, -, -, -, rfl⟩ := ForkDatabase.popBlock_eq_ok.mp hfdb
      cases h
      exact hI.forkDb (d.forkDb.setHead prev) (fun _ => Option.some_ne_none _) (hI.pop _ hd)

/-- Popping keeps the invariant, and the head number where that falls. -/
theorem popUntil (hI : PushInvariant I) (id : BlockId) (hd : I d) :
    (∃ d', (NewsChain.popUntil id d.popRounds).run d = .ok () d' ∧ I d' ∧ d'.headBlockId = id ∧
        (Lowers I → d'.headBlockNum ≤ d.headBlockNum)) ∨
      ∃ e d', (NewsChain.popUntil id d.popRounds).run d = .error e d' ∧ I d' := by
  let P (x : Database) : Prop := I x ∧ (Lowers I → x.headBlockNum ≤ d.headBlockNum)
  have hpop : ∀ x x', P x → x.headBlockId ≠ id → NewsChain.popBlock.run x = .ok () x' → P x' := by
    intro x x' hx _ h
    refine ⟨hI.popBlock hx.1 h, fun hl => Nat.le_trans ?_ (hx.2 hl)⟩
    rw [run_popBlock (hI.settled hx.1)] at h
    split at h
    · cases h
    · split at h
      · cases h
      · cases h
        exact (hl x hx.1).2
  rcases popUntil_cases (P := P) (fun x hx => hI.settled hx.1) hpop ⟨hd, fun _ => Nat.le_refl _⟩
    (Nat.le_refl _) with ⟨d', hrun, hd', hid⟩ | ⟨e, d', hrun, hd', -, -⟩
  · exact .inl ⟨d', hrun, hd'.1, hid, hd'.2⟩
  · exact .inr ⟨e, d', hrun, hd'.1⟩

/-- The lowest block of a branch builds on the head, and is not numbered 0. -/
def Starts (I : Database → Prop) (items : List ForkItem) (d : Database) : Prop :=
  ∀ i ∈ items.head?, i.data.previous = d.headBlockId ∧ (Lowers I → i.num ≠ 0)

/-- After the lowest block has been applied, the next one starts the rest of the branch. -/
theorem starts_rest (hI : PushInvariant I) {i : ForkItem} {rest : List ForkItem} {d' : Database}
    (hd : I d) (hchain : (i :: rest).IsChain fun a b => b.Follows a)
    (h : (applyInSession skipNothing i.data).run d = .ok () d') : Starts I rest d' := by
  intro j hj
  cases rest with
  | nil => cases hj
  | cons k rest =>
    cases hj
    have hfollows := (List.isChain_cons_cons.mp hchain).1
    have hgpo := gpo_applyInSession (hI.hardfork hd) h
    refine ⟨?_, fun _ => ?_⟩
    · rw [hfollows.previous, Database.headBlockId, hgpo]
      simp [DynamicGlobalProperty.entered, ForkItem.id]
    · have := hfollows.num
      omega

theorem applyItems (hI : PushInvariant I) {items : List ForkItem} (hd : I d)
    (hchain : items.IsChain fun a b => b.Follows a) (hstart : Starts I items d) :
    I (finalState ((forM items fun i => applyInSession skipNothing i.data : DbM Unit).run d)) := by
  induction items generalizing d with
  | nil => exact hd
  | cons i items ih =>
    obtain ⟨hprev, hnum⟩ := hstart i rfl
    have hi := hI.apply i.data hd hprev hnum
    rw [List.forM_cons, EStateM.run_bind]
    cases happly : (applyInSession skipNothing i.data).run d with
    | error e d' =>
      rw [happly] at hi
      exact hi
    | ok _ d' =>
      rw [happly] at hi
      exact ih hi hchain.tail (hI.starts_rest hd hchain happly)

theorem restoreBranch (hI : PushInvariant I) {failed : List ForkItem} {old : Branch} {e : Exc}
    (hd : I d) (hold : old.items.IsChain fun a b => b.Follows a)
    (hnum : Lowers I → old.back.num ≠ 0) :
    I (finalState ((restoreBranch skipNothing failed old e).run d)) := by
  rw [run_restoreBranch]
  have hd₁ := hI.forkDb ((d.forkDb.removeAll failed).setHead old.front)
    (fun _ => Option.some_ne_none _) hd
  rcases hI.popUntil old.back.data.previous hd₁ with
    ⟨d₂, hrun, hd₂, hid, -⟩ | ⟨e', d₂, hrun, hd₂⟩
  · simp only [hrun]
    have hitems := hI.applyItems hd₂ hold fun i hi => by
      cases hi
      exact ⟨hid.symm, hnum⟩
    cases hrun' : (forM old.items fun i => applyInSession skipNothing i.data : DbM Unit).run d₂ <;>
      rw [hrun'] at hitems <;> exact hitems
  · simp only [hrun]
    exact hd₂

theorem applyBranch (hI : PushInvariant I) {items : List ForkItem} {old : Branch} (hd : I d)
    (hchain : items.IsChain fun a b => b.Follows a) (hstart : Starts I items d)
    (hold : old.items.IsChain fun a b => b.Follows a) (hnum : Lowers I → old.back.num ≠ 0) :
    I (finalState ((applyBranch skipNothing old items).run d)) := by
  induction items generalizing d with
  | nil => exact hd
  | cons i items ih =>
    obtain ⟨hprev, hi⟩ := hstart i rfl
    have hi := hI.apply i.data hd hprev hi
    rw [run_applyBranch_cons]
    cases happly : (applyInSession skipNothing i.data).run d with
    | error e d' =>
      rw [happly] at hi
      exact hI.restoreBranch hi hold hnum
    | ok _ d' =>
      rw [happly] at hi
      exact ih hi hchain.tail (hI.starts_rest hd hchain happly)

/-- A switch to a higher branch keeps the invariant, whether it works or not. -/
theorem switchForks (hI : PushInvariant I) {newHead : ForkItem} (hd : I d)
    (hhigher : d.headBlockNum < newHead.num) :
    I (finalState ((switchForks skipNothing newHead).run d)) := by
  rw [run_switchForks]
  cases hfetch : d.forkDb.fetchBranchFrom newHead.id d.headBlockId with
  | error e => exact hd
  | ok branches =>
    obtain ⟨first, second⟩ := branches
    obtain ⟨f, s, -, -, hforked⟩ := ForkDatabase.fetchBranchFrom_eq_ok hfetch
    have hd₁ := hI.forkDb (d.forkDb.hold (first.items ++ second.items)) id hd
    rcases hI.popUntil second.back.data.previous hd₁ with
      ⟨d₂, hrun, hd₂, hid, hnum⟩ | ⟨e', d₂, hrun, hd₂⟩
    · simp only [hrun]
      -- The number of the head is the one before that of the backs, and does not wrap around.
      have hback : Lowers I → first.back.num ≠ 0 := by
        intro hl
        have hlow := hnum hl
        have hhead := (hl d₂ hd₂).1
        have hlt := newHead.data.blockNum_lt
        rw [hid, ← hforked.previous] at hhead
        simp only [ForkItem.num, BlockHeader.blockNum] at hhigher hlt ⊢
        change d₂.headBlockNum ≤ d.headBlockNum at hlow
        omega
      have hsame : second.back.num = first.back.num := by
        simp only [ForkItem.num, BlockHeader.blockNum, hforked.previous]
      refine hI.applyBranch hd₂ (ForkDatabase.climbs_of_line hforked.firstLine) ?_
        (ForkDatabase.climbs_of_line hforked.secondLine) (fun hl => hsame ▸ hback hl)
      intro i hi
      cases hi
      exact ⟨by rw [hforked.previous, hid], hback⟩
    · simp only [hrun]
      exact hd₂

/-- **The rule.** An invariant that holds once the fork database has accepted the block holds
after `_push_block`, if the application of the block on the direct path keeps it. -/
theorem afterBlock (hI : PushInvariant I) {newBlock : ForkItem} {fdb : ForkDatabase}
    (hpush : d.forkDb.pushBlock b = .ok (newBlock, fdb)) (hd : I { d with forkDb := fdb })
    (hdirect : newBlock.data.previous = d.headBlockId →
      I (finalState ((applyInSession skipNothing b).run { d with forkDb := fdb }))) :
    I (d.afterBlock b) := by
  have himpl : I (finalState ((pushBlockImpl skipNothing b).run d)) := by
    rw [run_pushBlockImpl, hpush]
    simp only
    split
    · split
      · rename_i hhigher
        exact hI.switchForks hd hhigher
      · exact hd
    · rename_i hprev
      have hi := hdirect (not_not.mp hprev)
      rw [run_applyPushed]
      cases happly : (applyInSession skipNothing b).run { d with forkDb := fdb } with
      | ok _ d' =>
        rw [happly] at hi
        exact hi
      | error e d' =>
        rw [happly] at hi
        exact hI.forkDb (d'.forkDb.remove b.id) id hi
  rw [Database.afterBlock, run_releaseItems]
  cases hrun : (pushBlockImpl skipNothing b).run d <;> rw [hrun] at himpl <;>
    exact hI.forkDb _ id himpl

end PushInvariant

/-- A block the fork database refuses changes nothing. -/
theorem afterBlock_of_refused {d : Database} {b : SignedBlock} {e : Exc}
    (h : d.forkDb.pushBlock b = .error e) :
    d.afterBlock b = { d with forkDb := d.forkDb.hold [] } := by
  rw [Database.afterBlock, run_releaseItems, run_pushBlockImpl, h]
  rfl

end NewsChain
