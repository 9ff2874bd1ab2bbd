import NewsChain.Base.Exception
import NewsChain.Base.Types
import NewsChain.Lib.Codec

/-!
# The wire format

`fc::raw`: the bytes of a block, in the block log, on the wire, and under the hashes. Fixed-width
values are their memory, a container is its size and its elements, a `static_variant` is its tag and
its value, and a reflected class is its fields in the order of its `FC_REFLECT`, those of its base
first.

`pack` and `unpack` are overloaded by type in the source and here.
-/

namespace NewsChain

/-- `fc::raw::pack` and `fc::raw::unpack` of a type. -/
class Raw (α : Type) where
  pack : α → List UInt8
  unpack : Decoder Exc α

open Raw (pack unpack)

/-! ## Fixed-width values -/

/-- A value of `n` bytes, as the number its bytes stand for. -/
@[reducible] def fixedWidth {α : Type} (n : Nat) (toNat : α → Nat) (ofNat : Nat → α) : Raw α where
  pack a := leBytes n (toNat a)
  unpack := do
    let v ← readLe outOfBytes n
    pure (ofNat v)

instance : Raw UInt16 := fixedWidth 2 (·.toNat) .ofNat
instance : Raw UInt32 := fixedWidth 4 (·.toNat) .ofNat
instance : Raw UInt64 := fixedWidth 8 (·.toNat) .ofNat
instance : Raw Int32 := fixedWidth 4 (·.toUInt32.toNat) fun v => (UInt32.ofNat v).toInt32
instance : Raw Int64 := fixedWidth 8 (·.toUInt64.toNat) fun v => (UInt64.ofNat v).toInt64

/-- Hashes, keys and signatures: arrays of bytes. -/
instance {w : Nat} : Raw (BitVec w) := fixedWidth (w / 8) (·.toNat) (.ofNat w)

/-! ## Sizes and containers -/

/-- `MAX_ARRAY_ALLOC_SIZE`. -/
def maxArrayAllocSize : Nat := 1024 * 1024 * 10

/-- `unsigned_int`, from a size that is first cut to 32 bits. -/
def packUnsignedInt (n : Nat) : List UInt8 := varintBytes 4 (n % 2 ^ 32)

/-- `unpack` of an `unsigned_int`. The source goes on shifting; a shift by 32 bits or more has no
defined result. -/
def unpackUnsignedInt : Decoder Exc Nat :=
  readVarint 32 outOfBytes (.undefinedBehavior "shift of an unsigned_int")

/-- The size of a container whose elements take `sizeOf` bytes in memory. -/
def unpackCount (sizeOf : Nat) : Decoder Exc Nat := do
  let size ← unpackUnsignedInt
  fcAssert (size * sizeOf < maxArrayAllocSize) "size.value*sizeof(T) < MAX_ARRAY_ALLOC_SIZE"
  pure size

/-- A `std::string` or `std::vector<char>`. -/
def packString (v : List UInt8) : List UInt8 := packUnsignedInt v.length ++ v

def unpackString : Decoder Exc (List UInt8) := do
  let size ← unpackCount 1
  readBytes outOfBytes size

section Containers

variable {α : Type} [Raw α]

/-- A `std::vector<T>`. -/
def packVector (v : List α) : List UInt8 := packUnsignedInt v.length ++ v.flatMap pack

def unpackVector (sizeOf : Nat) : Decoder Exc (List α) := do
  let size ← unpackCount sizeOf
  readMany unpack size

end Containers

/-! ## Operations -/

instance : Raw Asset where
  pack a := pack a.amount ++ pack a.symbol
  unpack := do
    let amount ← unpack
    let symbol ← unpack
    pure { amount, symbol }

instance : Raw SharedAuthority where
  pack a := pack a.key ++ pack a.weightType
  unpack := do
    let key ← unpack
    let weightType ← unpack
    pure { key, weightType }

/-- An element of a map. -/
instance : Raw (AccountName × Asset) where
  pack e := pack e.1 ++ pack e.2
  unpack := do
    let name ← unpack
    let amount ← unpack
    pure (name, amount)

/-- `std::map::insert`: an entry whose key is there is dropped. -/
def insertEntry (e : AccountName × Asset) :
    List (AccountName × Asset) → List (AccountName × Asset)
  | [] => [e]
  | x :: xs =>
    if e.1 < x.1 then e :: x :: xs
    else if e.1 = x.1 then x :: xs
    else x :: insertEntry e xs

theorem mem_of_mem_insertEntry {e x : AccountName × Asset} {xs : List (AccountName × Asset)}
    (h : x ∈ insertEntry e xs) : x = e ∨ x ∈ xs := by
  induction xs with
  | nil => exact .inl (List.mem_singleton.mp h)
  | cons y xs ih =>
    simp only [insertEntry] at h
    split at h
    · exact List.mem_cons.mp h
    split at h
    · exact .inr h
    rcases List.mem_cons.mp h with rfl | h
    · exact .inr List.mem_cons_self
    · exact (ih h).imp_right (List.mem_cons_of_mem _)

theorem insertEntry_sorted (e : AccountName × Asset) {xs : List (AccountName × Asset)}
    (h : xs.Pairwise (fun a b => a.1 < b.1)) :
    (insertEntry e xs).Pairwise (fun a b => a.1 < b.1) := by
  induction xs with
  | nil => exact List.pairwise_singleton _ _
  | cons y xs ih =>
    obtain ⟨hy, hxs⟩ := List.pairwise_cons.mp h
    simp only [insertEntry]
    split
    · rename_i hlt
      refine List.pairwise_cons.mpr ⟨fun z hz => ?_, h⟩
      rcases List.mem_cons.mp hz with rfl | hz
      · exact hlt
      · exact UInt64.lt_trans hlt (hy z hz)
    split
    · exact h
    rename_i hge hne
    refine List.pairwise_cons.mpr ⟨fun z hz => ?_, ih hxs⟩
    rcases mem_of_mem_insertEntry hz with rfl | hz
    · exact UInt64.lt_of_le_of_ne (UInt64.not_lt.mp hge) (Ne.symm hne)
    · exact hy z hz

def AssetMap.empty : AssetMap := ⟨[], .nil⟩

def AssetMap.insert (m : AssetMap) (e : AccountName × Asset) : AssetMap :=
  ⟨insertEntry e m.entries, insertEntry_sorted e m.sorted⟩

/-- A `std::map<account_name, asset>`, whose elements take 24 bytes. -/
instance : Raw AssetMap where
  pack m := packVector m.entries
  unpack := do
    let entries ← unpackVector 24
    pure (entries.foldl AssetMap.insert .empty)

instance : Raw CreateAccountOperation where
  pack o := pack o.name ++ (pack o.creator ++ (pack o.posting ++ pack o.owner))
  unpack := do
    let name ← unpack
    let creator ← unpack
    let posting ← unpack
    let owner ← unpack
    pure { name, creator, posting, owner }

instance : Raw TransferOperation where
  pack o := pack o.fromName ++ (pack o.toName ++ (pack o.amount ++ packString o.memo))
  unpack := do
    let fromName ← unpack
    let toName ← unpack
    let amount ← unpack
    let memo ← unpackString
    pure { fromName, toName, amount, memo }

instance : Raw TransfersOperation where
  pack o := pack o.fromName ++ (pack o.toNames ++ packString o.memo)
  unpack := do
    let fromName ← unpack
    let toNames ← unpack
    let memo ← unpackString
    pure { fromName, toNames, memo }

/-- A `static_variant`: `set_which` refuses a tag that names no type. -/
instance : Raw Operation where
  pack
    | .createAccount o => packUnsignedInt 0 ++ pack o
    | .transfer o => packUnsignedInt 1 ++ pack o
    | .transfers o => packUnsignedInt 2 ++ pack o
  unpack := do
    match ← unpackUnsignedInt with
    | 0 => do
      let o ← unpack
      pure (.createAccount o)
    | 1 => do
      let o ← unpack
      pure (.transfer o)
    | 2 => do
      let o ← unpack
      pure (.transfers o)
    | _ => throw (.assertion "w < count() && w >= 0")

/-! ## Transactions and blocks -/

/-- `sizeof(operation)`, `sizeof(signature_type)` and `sizeof(signed_transaction)`. -/
def operationSize : Nat := 104
def signatureSize : Nat := 65
def signedTransactionSize : Nat := 64

instance : Raw Transaction where
  pack t := pack t.refBlockNum ++ (pack t.refBlockPrefix ++ (pack t.expiration ++
    packVector t.operations))
  unpack := do
    let refBlockNum ← unpack
    let refBlockPrefix ← unpack
    let expiration ← unpack
    let operations ← unpackVector operationSize
    pure { refBlockNum, refBlockPrefix, expiration, operations }

instance : Raw SignedTransaction where
  pack t := pack t.toTransaction ++ packVector t.signatures
  unpack := do
    let t : Transaction ← unpack
    let signatures ← unpackVector signatureSize
    pure { t with signatures }

/-- An `fc::ripemd160`: its words as they lie in memory. -/
instance : Raw BlockId where
  pack i := pack i.hash0 ++ (pack i.hash1 ++ (pack i.hash2 ++ (pack i.hash3 ++ pack i.hash4)))
  unpack := do
    let hash0 ← unpack
    let hash1 ← unpack
    let hash2 ← unpack
    let hash3 ← unpack
    let hash4 ← unpack
    pure { hash0, hash1, hash2, hash3, hash4 }

instance : Raw BlockHeader where
  pack h := pack h.timestamp ++ (pack h.producer ++ (pack h.transactionMerkleRoot ++
    (pack h.previous ++ pack h.version)))
  unpack := do
    let timestamp ← unpack
    let producer ← unpack
    let transactionMerkleRoot ← unpack
    let previous ← unpack
    let version ← unpack
    pure { timestamp, producer, transactionMerkleRoot, previous, version }

instance : Raw SignedBlockHeader where
  pack h := pack h.toBlockHeader ++ pack h.producerSignature
  unpack := do
    let h : BlockHeader ← unpack
    let producerSignature ← unpack
    pure { h with producerSignature }

instance : Raw SignedBlock where
  pack b := pack b.toSignedBlockHeader ++ packVector b.transactions
  unpack := do
    let h : SignedBlockHeader ← unpack
    let transactions ← unpackVector signedTransactionSize
    pure { h with transactions }

end NewsChain
