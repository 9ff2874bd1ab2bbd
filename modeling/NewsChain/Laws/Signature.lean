import NewsChain.Chain.Signature
import NewsChain.Laws.RawRoundTrip

/-!
# What a signature binds

A signature should name its signer for the chain it was made for and for no other. Both overloads of
`sign` miss that, each on its own side. The digest `get_signature_keys` checks does not depend on
the chain id, so what `sign` appends names the signer for every chain; what the `const` overload
returns was made over other bytes, and names the signer for none.
-/

namespace NewsChain

open Raw (pack)

section Keys

variable [Env] [Signing] {t t' : SignedTransaction} {pk : PrivateKey} {c c' : ChainId}

/-- The chain id is not looked at. -/
theorem names_chainId : t.Names c pk ↔ t.Names c' pk := Iff.rfl

/-! ## The two overloads -/

/-- What `sign` appends names the signer for every chain, where the signatures before it can be
checked. -/
theorem sign_names
    (hrecover : ∀ d, Env.recover (Env.signCompact pk d) d = some (Signing.publicKey pk))
    (hothers : ∃ keys, t.getSignatureKeys c' = .ok keys) : (t.sign pk c).Names c' pk := by
  obtain ⟨keys, hkeys⟩ := hothers
  have hkey : SignedTransaction.signerKey ((t.sign pk c).sigDigest c') (t.signature pk c) =
      .ok (Signing.publicKey pk) := by
    have hsigned : Env.recover (t.signature pk c) ((t.sign pk c).sigDigest c') =
        some (Signing.publicKey pk) := hrecover (t.sigDigest c)
    simp only [SignedTransaction.signerKey, hsigned]
  refine ⟨keys ++ [Signing.publicKey pk], ?_, by simp⟩
  have hkeys' : t.signatures.mapM (SignedTransaction.signerKey ((t.sign pk c).sigDigest c')) =
      .ok keys := hkeys
  show (t.signatures ++ [t.signature pk c]).mapM _ = _
  simp only [List.mapM_append, hkeys', List.mapM_cons, List.mapM_nil, hkey]
  rfl

omit [Env] [Signing] in
/-- The bytes the `const` overload hashes are never those that are checked. -/
theorem pack_chainId_ne (c : ChainId) (t : SignedTransaction) :
    pack c ++ pack t ≠ pack t.toTransaction := by
  intro heq
  have hlength := congrArg List.length heq
  simp only [pack, List.length_append, length_leBytes] at hlength
  omega

/-- What the `const` overload returns names the signer for no chain, where recovery gives the
signer's key on the signed digest alone and the two hashed inputs do not collide. -/
theorem signConst_not_recovered
    (hrecover : ∀ d d', d' ≠ d →
      Env.recover (Env.signCompact pk d) d' ≠ some (Signing.publicKey pk))
    (hcollide : Signing.sha256 (pack c ++ pack t) = Signing.sha256 (pack t.toTransaction) →
      pack c ++ pack t = pack t.toTransaction) :
    Env.recover (t.signConst pk c) (t.sigDigest c') ≠ some (Signing.publicKey pk) :=
  hrecover _ _ fun heq => pack_chainId_ne c t (hcollide heq.symm)

/-- **No signature binds its chain.** With the signature of either overload in its list, no
transaction names the signer for the chain the signature was made for and not for another. -/
theorem sign_never_binds (t : SignedTransaction) (pk : PrivateKey) (c c' : ChainId) :
    ¬ ((t.sign pk c).Names c pk ∧ ¬ (t.sign pk c).Names c' pk) ∧
      ¬ ((t.signedWith (t.signConst pk c)).Names c pk ∧
        ¬ (t.signedWith (t.signConst pk c)).Names c' pk) :=
  ⟨fun h => h.2 (names_chainId.mp h.1), fun h => h.2 (names_chainId.mp h.1)⟩

end Keys

/-- An unsigned transfer that is signed for chain 1 names its signer for chain 2 as well, although
recovery gives the signer's key on the signed digest and on no other. -/
theorem sign_names_chain_two :
    (∀ (pk : PrivateKey) (d d' : Digest),
      @Env.recover keyedEnv (@Env.signCompact keyedEnv pk d) d' =
        some (@Signing.publicKey keyedEnv keyedSigning pk) ↔ d' = d) ∧
    let t := @SignedTransaction.sign keyedEnv keyedSigning
      { unitTransfer 10 with signatures := [] } 5 1
    @SignedTransaction.Names keyedEnv keyedSigning t 1 5 ∧
      @SignedTransaction.Names keyedEnv keyedSigning t 2 5 := by
  let _ : Env := keyedEnv
  let _ : Signing := keyedSigning
  have hrecover (pk : PrivateKey) (d d' : Digest) :
      Env.recover (Env.signCompact pk d) d' = some (Signing.publicKey pk) ↔ d' = d := by
    have hk := pk.isLt
    have hd := d.isLt
    have hs : (Env.signCompact pk d).toNat = pk.toNat * 2 ^ 256 + d.toNat := by
      show (BitVec.ofNat 520 _).toNat = _
      rw [BitVec.toNat_ofNat]
      omega
    have hlow : (Env.signCompact pk d).toNat % 2 ^ 256 = d.toNat := by omega
    have hhigh : (Env.signCompact pk d).toNat / 2 ^ 256 = pk.toNat := by omega
    show (if (Env.signCompact pk d).toNat % 2 ^ 256 = d'.toNat then
      some (BitVec.ofNat 264 ((Env.signCompact pk d).toNat / 2 ^ 256)) else none) =
        some (BitVec.ofNat 264 pk.toNat) ↔ d' = d
    rw [hlow, hhigh]
    by_cases h : d = d'
    · simp [h]
    · have hne : d.toNat ≠ d'.toNat := fun heq => h (BitVec.toNat_inj.mp heq)
      simp [hne, Ne.symm h]
  refine ⟨hrecover, ?_, ?_⟩ <;>
    exact sign_names (fun d => (hrecover 5 d d).mpr rfl) ⟨[], rfl⟩

/-- The checks of a block read the same keys, where `transaction::digest` hashes the same bytes. -/
theorem run_signatureKeys [Node] [Signing] {t : SignedTransaction}
    (hdigest : ∀ t : Transaction, Env.digest t = Signing.sha256 (pack t)) (c : ChainId)
    (o : Objects) :
    t.signatureKeys.run o =
      match t.getSignatureKeys c with
      | .ok keys => .ok keys o
      | .error e => .error e o := by
  have hkeys : ∀ sigs : List Signature,
      ({ t with signatures := sigs } : SignedTransaction).signatureKeys.run o =
        match sigs.mapM (SignedTransaction.signerKey (t.sigDigest c)) with
        | .ok keys => .ok keys o
        | .error e => .error e o := by
    intro sigs
    induction sigs with
    | nil => rfl
    | cons s sigs ih =>
      unfold SignedTransaction.signatureKeys at ih ⊢
      rw [List.mapM_cons, List.mapM_cons, EStateM.run_bind, hdigest]
      simp only [SignedTransaction.signerKey, Transaction.sigDigest] at ih ⊢
      cases Env.recover s (Signing.sha256 (pack t.toTransaction)) with
      | none => rfl
      | some k =>
        rw [hdigest] at ih
        simp only [EStateM.run_pure, EStateM.run_bind, ih]
        cases sigs.mapM (SignedTransaction.signerKey (Signing.sha256 (pack t.toTransaction))) <;> rfl
  exact hkeys t.signatures

end NewsChain
