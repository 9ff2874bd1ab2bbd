import Mathlib.Data.Set.Basic
import NewsChain.Chain.Authority
import NewsChain.Laws.Signature

/-!
# The signers a transaction needs

`verify_authority` returns exactly where the keys recovered from the signatures are the posting
keys of the names the operations collect: the loop over the names looks for missing keys, the last
loop for superfluous ones, and the marks between them make the two sets equal whatever keys are
shared between accounts or recovered twice.

The checks of a block are the same function at the keys of the authority rows
(`run_verifyAuthority`).
-/

namespace NewsChain

/-! ## Names -/

theorem mem_flatInsert {n m : AccountName} {names : List AccountName} :
    m ∈ flatInsert n names ↔ m = n ∨ m ∈ names := by
  induction names with
  | nil => simp [flatInsert]
  | cons x xs ih =>
    unfold flatInsert
    split
    · simp
    · split
      · rename_i h
        simp [h]
      · simp only [List.mem_cons, ih]
        tauto

/-- The posting names are what the operations ask for; no operation asks for an owner. -/
theorem signNames_spec (ops : List Operation) :
    (∀ name, name ∈ (signNames ops).1 ↔ ∃ op ∈ ops, op.signName = name) ∧ (signNames ops).2 = [] := by
  have hfold : ∀ names : List AccountName × List AccountName,
      let r := ops.foldl (fun names op => (op.getSignName names.1, op.getSignOwner names.2)) names
      (∀ name, name ∈ r.1 ↔ name ∈ names.1 ∨ ∃ op ∈ ops, op.signName = name) ∧ r.2 = names.2 := by
    induction ops with
    | nil => simp
    | cons op ops ih =>
      intro names
      obtain ⟨hmem, howner⟩ := ih (op.getSignName names.1, op.getSignOwner names.2)
      refine ⟨fun name => ?_, howner⟩
      rw [List.foldl_cons, hmem, Operation.getSignName, mem_flatInsert]
      simp only [List.mem_cons, exists_eq_or_imp, eq_comm (a := name)]
      tauto
  obtain ⟨hmem, howner⟩ := hfold ([], [])
  exact ⟨fun name => (hmem name).trans (by simp), howner⟩

/-! ## Marks -/

namespace UsedKeys

variable {used : UsedKeys} {pk k : PublicKey} {v b : Bool}

@[simp] theorem mem_assign : (k, b) ∈ used.assign pk v ↔ (k = pk ∧ b = v) ∨ (k ≠ pk ∧ (k, b) ∈ used) := by
  simp [assign, and_comm]

theorem contains_iff : used.contains pk = true ↔ ∃ b, (pk, b) ∈ used := by
  simp [contains]

end UsedKeys

/-- Before the names are looked at, the recovered keys are there and none is marked. -/
theorem mem_unmarked {pubs : List PublicKey} {k : PublicKey} {b : Bool} :
    (k, b) ∈ pubs.foldl (fun (used : UsedKeys) pk => used.assign pk false) [] ↔
      k ∈ pubs ∧ b = false := by
  have hfold : ∀ used : UsedKeys, (∀ p ∈ used, p.2 = false) →
      ((k, b) ∈ pubs.foldl (fun used p => used.assign p false) used ↔
        (k ∈ pubs ∧ b = false) ∨ (k, b) ∈ used) := by
    induction pubs with
    | nil => simp
    | cons p pubs ih =>
      intro used hused
      rw [List.foldl_cons, ih]
      · by_cases hk : k = p
        · subst hk
          have : (k, b) ∈ used → b = false := hused (k, b)
          simp only [UsedKeys.mem_assign, List.mem_cons]
          tauto
        · simp [hk]
      · rintro ⟨k', b'⟩ h
        rcases UsedKeys.mem_assign.mp h with ⟨-, rfl⟩ | ⟨-, h⟩
        · rfl
        · exact hused _ h
  simpa using hfold [] (by simp)

/-- A loop over names returns where each name has a key and the key is there, and marks those. -/
theorem useKeys_eq_ok {getKey : GetKeyByName} {message : String} {names : List AccountName}
    {used used' : UsedKeys} (h : useKeys getKey message names used = .ok used') :
    (∀ name ∈ names, ∃ pk, getKey name = .ok pk ∧ ∃ b, (pk, b) ∈ used) ∧
      ∀ k b, (k, b) ∈ used' ↔
        ((∃ name ∈ names, getKey name = .ok k) ∧ b = true) ∨
          ((∀ name ∈ names, getKey name ≠ .ok k) ∧ (k, b) ∈ used) := by
  induction names generalizing used with
  | nil =>
    cases h
    simp
  | cons name names ih =>
    unfold useKeys at h
    cases hkey : getKey name with
    | error e =>
      rw [hkey] at h
      cases h
    | ok pk =>
      rw [hkey] at h
      simp only [ok_bind] at h
      split at h
      case isFalse => cases h
      case isTrue hthere =>
        obtain ⟨hall, hmem⟩ := ih h
        have hpk := UsedKeys.contains_iff.mp hthere
        refine ⟨?_, fun k b => ?_⟩
        · intro n hn
          rcases List.mem_cons.mp hn with rfl | hn
          · exact ⟨pk, hkey, hpk⟩
          · obtain ⟨k, hk, b, hb⟩ := hall n hn
            refine ⟨k, hk, ?_⟩
            rcases UsedKeys.mem_assign.mp hb with ⟨rfl, -⟩ | ⟨-, hb⟩
            · exact hpk
            · exact ⟨b, hb⟩
        · rw [hmem, UsedKeys.mem_assign]
          by_cases hk : k = pk
          · subst hk
            by_cases hlater : ∃ n ∈ names, getKey n = .ok k
            · simp [hkey, hlater]
            · have hnone : ∀ n ∈ names, ¬ getKey n = .ok k := fun n hn heq => hlater ⟨n, hn, heq⟩
              simp only [List.mem_cons, exists_eq_or_imp, hkey, true_and, forall_eq_or_imp, ne_eq,
                not_true_eq_false, false_and, or_false, hlater, false_or]
              tauto
          · have hne : getKey name ≠ .ok k := by
              rw [hkey]
              exact fun heq => hk (Except.ok.inj heq).symm
            simp [hne, hk]

/-- It returns there, and elsewhere it throws. -/
theorem useKeys_returns {getKey : GetKeyByName} {message : String} {names : List AccountName}
    {used : UsedKeys}
    (h : ∀ name ∈ names, ∃ pk, getKey name = .ok pk ∧ ∃ b, (pk, b) ∈ used) :
    ∃ used', useKeys getKey message names used = .ok used' := by
  induction names generalizing used with
  | nil => exact ⟨used, rfl⟩
  | cons name names ih =>
    obtain ⟨pk, hkey, hpk⟩ := h name (.head _)
    rw [useKeys, hkey, ok_bind, if_pos (UsedKeys.contains_iff.mpr hpk)]
    refine ih fun n hn => ?_
    obtain ⟨k, hk, b, hb⟩ := h n (.tail _ hn)
    refine ⟨k, hk, ?_⟩
    by_cases heq : k = pk
    · exact ⟨true, UsedKeys.mem_assign.mpr (.inl ⟨heq, rfl⟩)⟩
    · exact ⟨b, UsedKeys.mem_assign.mpr (.inr ⟨heq, hb⟩)⟩

/-! ## The signer set -/

section Signers

variable [Env] [Signing]

/-- The keys recovered from the signatures. -/
def SignedTransaction.recoveredKeys (t : SignedTransaction) (chainId : ChainId) : Set PublicKey :=
  {k | ∃ s ∈ t.signatures, SignedTransaction.signerKey (t.sigDigest chainId) s = .ok k}

omit [Env] [Signing] in
/-- The keys of the accounts that have to sign. -/
def requiredKeys (getPosting : GetKeyByName) (operations : List Operation) : Set PublicKey :=
  {k | ∃ op ∈ operations, getPosting op.signName = .ok k}

omit [Env] [Signing] in
/-- A list of fallible results is there exactly where each of them is. -/
theorem mapM_eq_ok {α β : Type} {f : α → Except Exc β} {as : List α} :
    (∃ bs, as.mapM f = .ok bs) ↔ ∀ a ∈ as, ∃ b, f a = .ok b := by
  induction as with
  | nil => simp [pure, Except.pure]
  | cons a as ih =>
    simp only [List.mapM_cons, except_bind_eq_ok, List.forall_mem_cons, ← ih]
    constructor
    · rintro ⟨_, b, hb, bs, hbs, -⟩
      exact ⟨⟨b, hb⟩, bs, hbs⟩
    · rintro ⟨⟨b, hb⟩, bs, hbs⟩
      exact ⟨_, b, hb, bs, hbs, rfl⟩

omit [Env] [Signing] in
theorem mem_mapM {α β : Type} {f : α → Except Exc β} {as : List α} {bs : List β} {b : β}
    (h : as.mapM f = .ok bs) : b ∈ bs ↔ ∃ a ∈ as, f a = .ok b := by
  induction as generalizing bs with
  | nil =>
    cases h
    simp
  | cons a as ih =>
    simp only [List.mapM_cons, except_bind_eq_ok] at h
    obtain ⟨c, hc, cs, hcs, heq⟩ := h
    cases heq
    rw [List.mem_cons, ih hcs]
    simp [hc, eq_comm]

/-- **`verify_authority` accepts exactly the required signer set**: it returns where every signature
gives a key, every collected name has one, and the two sets of keys are equal. -/
theorem verifyAuthorityBy_iff (t : SignedTransaction) (getPosting getOwner : GetKeyByName)
    (chainId : ChainId) :
    t.verifyAuthorityBy getPosting getOwner chainId = .ok () ↔
      (∀ s ∈ t.signatures, ∃ k, SignedTransaction.signerKey (t.sigDigest chainId) s = .ok k) ∧
      (∀ op ∈ t.operations, ∃ k, getPosting op.signName = .ok k) ∧
      t.recoveredKeys chainId = requiredKeys getPosting t.operations := by
  obtain ⟨hnames, howner⟩ := signNames_spec t.operations
  have hexists : ∀ k, (∃ name ∈ (signNames t.operations).1, getPosting name = .ok k) ↔
      k ∈ requiredKeys getPosting t.operations := by
    intro k
    simp only [hnames, requiredKeys, Set.mem_ofPred_eq]
    constructor
    · rintro ⟨_, ⟨op, hop, rfl⟩, hk⟩
      exact ⟨op, hop, hk⟩
    · rintro ⟨op, hop, hk⟩
      exact ⟨_, ⟨op, hop, rfl⟩, hk⟩
  constructor
  · intro h
    obtain ⟨pubs, hpubs, h⟩ := except_bind_eq_ok.mp h
    obtain ⟨used, hused, h⟩ := except_bind_eq_ok.mp h
    rw [howner] at h
    rw [useKeys, ok_bind] at h
    split at h
    case isFalse => cases h
    case isTrue hall =>
      obtain ⟨hkeys, hmem⟩ := useKeys_eq_ok hused
      have hrecovered : ∀ k, k ∈ pubs ↔ k ∈ t.recoveredKeys chainId := fun k => mem_mapM hpubs
      refine ⟨mapM_eq_ok.mp ⟨pubs, hpubs⟩, ?_, ?_⟩
      · intro op hop
        obtain ⟨k, hk, -⟩ := hkeys op.signName ((hnames _).mpr ⟨op, hop, rfl⟩)
        exact ⟨k, hk⟩
      · ext k
        rw [← hrecovered, ← hexists]
        constructor
        · intro hk
          -- an unmarked key would still be in the map as it came from the signatures
          by_contra hnone
          have hin : (k, false) ∈ used := (hmem k false).mpr
            (.inr ⟨fun name hname heq => hnone ⟨name, hname, heq⟩, mem_unmarked.mpr ⟨hk, rfl⟩⟩)
          have := List.all_eq_true.mp hall _ hin
          cases this
        · rintro ⟨name, hname, hk⟩
          obtain ⟨k', hk', b, hb⟩ := hkeys name hname
          rw [hk] at hk'
          cases hk'
          exact (mem_unmarked.mp hb).1
  · rintro ⟨hsigs, hops, hsets⟩
    obtain ⟨pubs, hpubs⟩ := mapM_eq_ok.mpr hsigs
    have hrecovered : ∀ k, k ∈ pubs ↔ k ∈ t.recoveredKeys chainId := fun k => mem_mapM hpubs
    have hsigned : ∀ name ∈ (signNames t.operations).1, ∃ k, getPosting name = .ok k ∧
        ∃ b, (k, b) ∈ pubs.foldl (fun (used : UsedKeys) pk => used.assign pk false) [] := by
      intro name hname
      obtain ⟨op, hop, rfl⟩ := (hnames name).mp hname
      obtain ⟨k, hk⟩ := hops op hop
      exact ⟨k, hk, false, mem_unmarked.mpr
        ⟨(hrecovered k).mpr (hsets ▸ (hexists k).mp ⟨_, hname, hk⟩), rfl⟩⟩
    obtain ⟨used, hused⟩ := useKeys_returns hsigned
    have hmarked : used.all (·.2) = true := by
      refine List.all_eq_true.mpr ?_
      rintro ⟨k, b⟩ hkb
      rcases ((useKeys_eq_ok hused).2 k b).mp hkb with ⟨-, rfl⟩ | ⟨hnone, hin⟩
      · rfl
      · have hk := (hrecovered k).mp (mem_unmarked.mp hin).1
        rw [hsets, ← hexists] at hk
        obtain ⟨name, hname, heq⟩ := hk
        exact absurd heq (hnone name hname)
    refine except_bind_eq_ok.mpr ⟨pubs, hpubs, except_bind_eq_ok.mpr ⟨used, hused, ?_⟩⟩
    rw [howner, useKeys, ok_bind, if_pos hmarked]

end Signers

/-! ## The checks of a block -/

section Checks

variable [Node] [Signing]

/-- `get_posting` of `_apply_transaction`. -/
def Objects.postingKey (o : Objects) : GetKeyByName := fun name =>
  match o.authorityOf name with
  | none => .error (.assertion "in verify_authority, cant find account")
  | some a => .ok a.2.posting.key

omit [Node] [Signing] in
/-- Assertions with one text, over a list. -/
theorem run_forM_fcAssert {σ α : Type} {P : α → Prop} [DecidablePred P] {message : String}
    (as : List α) (s : σ) :
    (forM as fun a => fcAssert (P a) message).run s =
      if ∀ a ∈ as, P a then .ok () s else .error (.assertion message) s := by
  induction as with
  | nil => rfl
  | cons a as ih =>
    rw [List.forM_cons, EStateM.run_bind, run_fcAssert]
    by_cases ha : P a
    · simp only [ha, if_true, ih, List.forall_mem_cons, true_and]
    · simp only [List.forall_mem_cons, ha, false_and, if_false]

omit [Node] [Signing] in
/-- The loop over the names, in both forms. -/
theorem run_usePosting {o : Objects} {pubs : List PublicKey} {names : List AccountName}
    {used : UsedKeys} (hused : ∀ k, k ∈ pubs ↔ ∃ b, (k, b) ∈ used) :
    (∃ used' keys, useKeys o.postingKey "posting signed error" names used = .ok used' ∧
        (names.mapM (usePosting pubs)).run o = .ok keys o ∧ names.mapM o.postingKey = .ok keys) ∨
      ∃ e, useKeys o.postingKey "posting signed error" names used = .error e ∧
        (names.mapM (usePosting pubs)).run o = .error e o := by
  induction names generalizing used with
  | nil => exact .inl ⟨used, [], rfl, rfl, rfl⟩
  | cons name names ih =>
    have hrun : (usePosting pubs name).run o =
        match o.authorityOf name with
        | none => .error (.assertion "in verify_authority, cant find account") o
        | some a => if a.2.posting.key ∈ pubs then .ok a.2.posting.key o
            else .error (.assertion "posting signed error") o := by
      show (match o.authorityOf name with
        | none => throw (.assertion "in verify_authority, cant find account")
        | some a => do
          fcAssert (a.2.posting.key ∈ pubs) "posting signed error"
          pure a.2.posting.key : ObjM PublicKey).run o = _
      cases o.authorityOf name with
      | none => rfl
      | some a =>
        by_cases hin : a.2.posting.key ∈ pubs <;>
          simp only [EStateM.run_bind, run_fcAssert, hin, if_true, if_false, EStateM.run_pure]
    rw [List.mapM_cons, EStateM.run_bind, hrun, useKeys, List.mapM_cons, Objects.postingKey]
    cases o.authorityOf name with
    | none => exact .inr ⟨_, rfl, rfl⟩
    | some a =>
      simp only [ok_bind]
      by_cases hin : a.2.posting.key ∈ pubs
      · have hthere : used.contains a.2.posting.key := UsedKeys.contains_iff.mpr ((hused _).mp hin)
        have hkept : ∀ k, k ∈ pubs ↔ ∃ b, (k, b) ∈ used.assign a.2.posting.key true := by
          intro k
          rw [hused]
          by_cases hk : k = a.2.posting.key
          · have := (hused _).mp hin
            simp [hk, this]
          · simp [hk]
        rw [if_pos hin, if_pos hthere]
        rcases ih hkept with ⟨used', keys, huse, hmap, hkeys⟩ | ⟨e, huse, hmap⟩
        · refine .inl ⟨used', a.2.posting.key :: keys, huse, ?_, ?_⟩
          · simp only [EStateM.run_bind, hmap]
            rfl
          · rw [hkeys]
            rfl
        · refine .inr ⟨e, huse, ?_⟩
          simp only [EStateM.run_bind, hmap]
      · have hnot : ¬ used.contains a.2.posting.key = true := fun h =>
          hin ((hused _).mpr (UsedKeys.contains_iff.mp h))
        rw [if_neg hin, if_neg hnot]
        exact .inr ⟨_, rfl, rfl⟩

/-- **The checks of a block are `verify_authority`** at the posting keys of the authority rows,
where `transaction::digest` hashes the bytes `sig_digest` hashes. -/
theorem run_verifyAuthority {t : SignedTransaction}
    (hdigest : ∀ t : Transaction, Env.digest t = Signing.sha256 (Raw.pack t)) (o : Objects)
    (getOwner : GetKeyByName) (chainId : ChainId) :
    t.verifyAuthority.run o =
      match t.verifyAuthorityBy o.postingKey getOwner chainId with
      | .ok _ => .ok () o
      | .error e => .error e o := by
  obtain ⟨hnames, howner⟩ := signNames_spec t.operations
  have hfold : t.operations.foldl (fun ns op => flatInsert op.signName ns) [] =
      (signNames t.operations).1 := by
    have hfst : ∀ names : List AccountName × List AccountName,
        t.operations.foldl (fun ns op => flatInsert op.signName ns) names.1 =
          (t.operations.foldl (fun names op =>
            (op.getSignName names.1, op.getSignOwner names.2)) names).1 := by
      induction t.operations with
      | nil => exact fun _ => rfl
      | cons op ops ih => exact fun names => ih (op.getSignName names.1, op.getSignOwner names.2)
    exact hfst ([], [])
  unfold SignedTransaction.verifyAuthority SignedTransaction.verifyAuthorityBy
  rw [EStateM.run_bind, run_signatureKeys hdigest chainId, hfold]
  cases hpubs : t.getSignatureKeys chainId with
  | error e => rfl
  | ok pubs =>
    simp only [ok_bind, howner, useKeys]
    have hunmarked : ∀ k, k ∈ pubs ↔
        ∃ b, (k, b) ∈ pubs.foldl (fun (used : UsedKeys) pk => used.assign pk false) [] := by
      intro k
      simp [mem_unmarked]
    rw [EStateM.run_bind]
    rcases @run_usePosting o pubs (signNames t.operations).1 _ hunmarked with
      ⟨used, keys, huse, hrun, hkeys⟩ | ⟨e, huse, hrun⟩
    · have hmem : ∀ k, k ∈ keys ↔ ∃ name ∈ (signNames t.operations).1, o.postingKey name = .ok k :=
        fun k => mem_mapM hkeys
      have hmarked : used.all (·.2) = true ↔ ∀ k ∈ pubs, k ∈ keys := by
        obtain ⟨hthere, hused⟩ := useKeys_eq_ok huse
        simp only [List.all_eq_true, Prod.forall, hused, hmem]
        constructor
        · intro hall k hk
          by_contra hnone
          have := hall k false (.inr ⟨fun name hname heq => hnone ⟨name, hname, heq⟩,
            mem_unmarked.mpr ⟨hk, rfl⟩⟩)
          cases this
        · rintro hall k b (⟨-, rfl⟩ | ⟨hnone, hin⟩)
          · rfl
          · obtain ⟨name, hname, heq⟩ := hall k (mem_unmarked.mp hin).1
            exact absurd heq (hnone name hname)
      rw [hrun, huse]
      simp only [ok_bind, run_forM_fcAssert]
      by_cases hall : ∀ k ∈ pubs, k ∈ keys
      · rw [if_pos hall, if_pos (hmarked.mpr hall)]
      · rw [if_neg hall, if_neg fun h => hall (hmarked.mp h)]
    · rw [hrun, huse]
      rfl

end Checks

end NewsChain
