import NewsChain.Base.Raw
import NewsChain.Chain.Evaluator

/-!
# Signatures of transactions

The two overloads of `signed_transaction::sign` and `get_signature_keys`, over the bytes they hash.
`sig_digest` is given a chain id and hashes the transaction alone. The `const` overload of `sign`
builds a digest of its own, of the chain id and the signed transaction.
-/

namespace NewsChain

open Raw (pack)

/-- `chain_id_type`. -/
abbrev ChainId := Digest

/-- The hash under a signature, and the key it is checked with. -/
class Signing [Env] where
  /-- `digest_type::hash` of the bytes given to an encoder. -/
  sha256 : List UInt8 → Digest
  /-- `private_key::get_public_key`. -/
  publicKey : PrivateKey → PublicKey

variable [Env] [Signing]

/-- `transaction::sig_digest`. Nothing of the chain id is hashed. -/
def Transaction.sigDigest (t : Transaction) (_chainId : ChainId) : Digest :=
  Signing.sha256 (pack t)

namespace SignedTransaction

/-- The signature `signed_transaction::sign` appends. -/
def signature (t : SignedTransaction) (pk : PrivateKey) (chainId : ChainId) : Signature :=
  Env.signCompact pk (t.sigDigest chainId)

/-- The transaction with one more signature. -/
def signedWith (t : SignedTransaction) (s : Signature) : SignedTransaction :=
  { t with signatures := t.signatures ++ [s] }

/-- `signed_transaction::sign`. -/
def sign (t : SignedTransaction) (pk : PrivateKey) (chainId : ChainId) : SignedTransaction :=
  t.signedWith (t.signature pk chainId)

/-- `signed_transaction::sign` of a constant: the digest is of the chain id and of the transaction
with the signatures it has. -/
def signConst (t : SignedTransaction) (pk : PrivateKey) (chainId : ChainId) : Signature :=
  Env.signCompact pk (Signing.sha256 (pack chainId ++ pack t))

/-- `fc::ecc::public_key( s, d )`. -/
def signerKey (d : Digest) (s : Signature) : Except Exc PublicKey :=
  match Env.recover s d with
  | some k => .ok k
  | none => .error (.assertion "unable to reconstruct public key from signature")

/-- `get_signature_keys`. -/
def getSignatureKeys (t : SignedTransaction) (chainId : ChainId) : Except Exc (List PublicKey) :=
  t.signatures.mapM (signerKey (t.sigDigest chainId))

/-- `get_signature_keys( chainId )` returns, with the key of `pk` among its keys. -/
def Names (t : SignedTransaction) (chainId : ChainId) (pk : PrivateKey) : Prop :=
  ∃ keys, t.getSignatureKeys chainId = .ok keys ∧ Signing.publicKey pk ∈ keys

end SignedTransaction

/-- Outside code whose signatures are the key and the digest, which are read back from them. -/
@[reducible] def keyedEnv : Env :=
  { smallNode.toEnv with
    signCompact := fun k d => BitVec.ofNat 520 (k.toNat * 2 ^ 256 + d.toNat)
    recover := fun s d =>
      if s.toNat % 2 ^ 256 = d.toNat then some (BitVec.ofNat 264 (s.toNat / 2 ^ 256)) else none }

/-- A hash that can be computed by hand, and keys that are their own public keys. -/
@[reducible] def keyedSigning : @Signing keyedEnv :=
  @Signing.mk keyedEnv (fun bs => bs.foldl (fun h b => h * 257 + BitVec.ofNat 256 b.toNat) 0)
    fun k => BitVec.ofNat 264 k.toNat

end NewsChain
