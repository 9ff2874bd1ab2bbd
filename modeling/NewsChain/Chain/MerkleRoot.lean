import NewsChain.Base.Types

/-!
# The loops of `caculate_merkle_root`

`signed_block::caculate_merkle_root` as it is written: one vector of digests, overwritten level by
level while it is still being read, with counters of 32 bits. The levels themselves are
`merkleRoot`, which the rest of the chain computes with.

A loop that has not ended when the fuel has, and a read past the end of the vector, answer `none`.
-/

namespace NewsChain

variable [Env]

/-- The loop over the transactions: `ids[i] = transactions[i].merkle_digest()`. -/
def digestLoop (transactions : List SignedTransaction) :
    Nat → UInt32 → List Digest → Option (List Digest)
  | 0, _, _ => none
  | fuel + 1, i, ids =>
    if i.toNat < transactions.length then do
      let t ← transactions[i.toNat]?
      digestLoop transactions fuel (i + 1) (ids.set i.toNat (Env.merkleDigest t))
    else some ids

/-- The loop over one level: `ids[k++]` is the hash of `ids[i]` and `ids[i + 1]`. -/
def levelLoop (max : UInt32) : Nat → UInt32 → UInt32 → List Digest → Option (UInt32 × List Digest)
  | 0, _, _, _ => none
  | fuel + 1, i, k, ids =>
    if i < max then do
      let a ← ids[i.toNat]?
      let b ← ids[(i + 1).toNat]?
      levelLoop max fuel (i + 2) (k + 1) (ids.set k.toNat (Env.hashPair a b))
    else some (k, ids)

/-- The loop over the levels, while `current_number_of_hashes > 1`. An odd last digest is moved
to the end of the next level. -/
def hashLoop : Nat → Nat → List Digest → Option (List Digest)
  | 0, _, _ => none
  | fuel + 1, currentNumberOfHashes, ids =>
    if 1 < currentNumberOfHashes then do
      let max := UInt32.ofNat (currentNumberOfHashes - (currentNumberOfHashes &&& 1))
      let (k, ids) ← levelLoop max fuel 0 0 ids
      if currentNumberOfHashes &&& 1 = 1 then do
        let last ← ids[max.toNat]?
        hashLoop fuel (k + 1).toNat (ids.set k.toNat last)
      else hashLoop fuel k.toNat ids
    else some ids

/-- `signed_block::caculate_merkle_root`. -/
def caculateMerkleRoot (fuel : Nat) (transactions : List SignedTransaction) : Option Digest :=
  if transactions.length = 0 then some 0
  else do
    let ids ← digestLoop transactions fuel 0 (.replicate transactions.length 0)
    let ids ← hashLoop fuel ids.length ids
    return Env.hashDigest (← ids[0]?)

end NewsChain
