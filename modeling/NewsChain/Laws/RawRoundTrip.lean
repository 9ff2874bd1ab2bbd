import NewsChain.Base.Raw
import NewsChain.Chain.Evaluator

/-!
# What is packed is unpacked

Every fixed-width value is read back (`Lossless`). A container is read back where its elements are
and the decoder's allocation check lets it pass. That check is about sizes in memory and the limit
of a block is about packed bytes; the least packed size of each element type relates the two
(`decodes_packVector`).
-/

namespace NewsChain

open Raw (pack unpack)

/-! ## Fixed-width values and their records -/

/-- Every value of the type is read back. -/
class Lossless (α : Type) [Raw α] : Prop where
  decodes : ∀ a : α, Decodes (pack a) unpack a

open Lossless (decodes)

theorem decodes_fixedWidth {α : Type} {n : Nat} {toNat : α → Nat} {ofNat : Nat → α}
    (hbound : ∀ a, toNat a < 256 ^ n) (hinverse : ∀ a, ofNat (toNat a) = a) (a : α) :
    Decodes ((fixedWidth n toNat ofNat).pack a) (fixedWidth n toNat ofNat).unpack a := by
  have h := (decodes_readLe outOfBytes (hbound a)).bind_pure (f := ofNat)
  rwa [hinverse] at h

instance : Lossless UInt16 :=
  ⟨decodes_fixedWidth (fun a => a.toNat_lt) fun _ => UInt16.ofNat_toNat⟩

instance : Lossless UInt32 :=
  ⟨decodes_fixedWidth (fun a => a.toNat_lt) fun _ => UInt32.ofNat_toNat⟩

instance : Lossless UInt64 :=
  ⟨decodes_fixedWidth (fun a => a.toNat_lt) fun _ => UInt64.ofNat_toNat⟩

instance : Lossless Int32 :=
  ⟨decodes_fixedWidth (fun a => a.toUInt32.toNat_lt) fun a => by
    rw [UInt32.ofNat_toNat, Int32.toInt32_toUInt32]⟩

instance : Lossless Int64 :=
  ⟨decodes_fixedWidth (fun a => a.toUInt64.toNat_lt) fun a => by
    rw [UInt64.ofNat_toNat, Int64.toInt64_toUInt64]⟩

theorem lossless_bitVec (n : Nat) {w : Nat} (h : w = 8 * n) : Lossless (BitVec w) where
  decodes := decodes_fixedWidth
    (fun a => by
      have hlt := a.isLt
      have hpow : 2 ^ w = 256 ^ (w / 8) := by
        rw [h, Nat.mul_div_cancel_left n (by decide), Nat.pow_mul]
      omega)
    fun a => by rw [BitVec.ofNat_toNat, BitVec.setWidth_eq]

instance : Lossless Word := lossless_bitVec 4 rfl
instance : Lossless Digest := lossless_bitVec 32 rfl
instance : Lossless PublicKey := lossless_bitVec 33 rfl
instance : Lossless Signature := lossless_bitVec 65 rfl

instance : Lossless Asset :=
  ⟨fun a => (decodes a.amount).bind (decodes a.symbol).bind_pure⟩

instance : Lossless SharedAuthority :=
  ⟨fun a => (decodes a.key).bind (decodes a.weightType).bind_pure⟩

instance : Lossless (AccountName × Asset) :=
  ⟨fun e => (decodes e.1).bind (decodes e.2).bind_pure⟩

instance : Lossless CreateAccountOperation :=
  ⟨fun o => (decodes o.name).bind <| (decodes o.creator).bind <| (decodes o.posting).bind
    (decodes o.owner).bind_pure⟩

instance : Lossless BlockId :=
  ⟨fun i => (decodes i.hash0).bind <| (decodes i.hash1).bind <| (decodes i.hash2).bind <|
    (decodes i.hash3).bind (decodes i.hash4).bind_pure⟩

instance : Lossless BlockHeader :=
  ⟨fun h => (decodes h.timestamp).bind <| (decodes h.producer).bind <|
    (decodes h.transactionMerkleRoot).bind <| (decodes h.previous).bind
      (decodes h.version).bind_pure⟩

instance : Lossless SignedBlockHeader :=
  ⟨fun h => (decodes h.toBlockHeader).bind (decodes h.producerSignature).bind_pure⟩

/-! ## Containers -/

theorem decodes_packUnsignedInt {n : Nat} (h : n < 2 ^ 32) :
    Decodes (packUnsignedInt n) unpackUnsignedInt n := by
  rw [packUnsignedInt, Nat.mod_eq_of_lt h]
  exact decodes_varint (by omega) h (by decide)

/-- A count passes the allocation check where the elements fit. -/
theorem decodes_unpackCount {n sizeOf : Nat} (hn : n < 2 ^ 32)
    (hsize : n * sizeOf < maxArrayAllocSize) :
    Decodes (packUnsignedInt n) (unpackCount sizeOf) n := by
  intro w
  refine bind_eq_ok.mpr ⟨n, w, decodes_packUnsignedInt hn w, ?_⟩
  exact bind_eq_ok.mpr ⟨(), w, fcAssert_eq_ok.mpr ⟨hsize, rfl⟩, rfl⟩

/-- A string that the decoder allocates. -/
theorem decodes_packString {v : List UInt8} (h : v.length < maxArrayAllocSize) :
    Decodes (packString v) unpackString v := by
  have hword : v.length < 2 ^ 32 := Nat.lt_trans h (by decide)
  exact (decodes_unpackCount hword (by rwa [Nat.mul_one])).bind (decodes_readBytes outOfBytes v)

/-- A string no longer than a block is one. -/
theorem length_lt_of_packString {v : List UInt8} (h : (packString v).length ≤ maxBlockSize) :
    v.length < maxArrayAllocSize := by
  rw [packString, List.length_append, maxBlockSize] at h
  rw [maxArrayAllocSize]
  omega

/-- A vector that the decoder allocates. -/
theorem decodes_allocated {α : Type} [Raw α] {v : List α} {sizeOf : Nat} (hpos : 0 < sizeOf)
    (h : v.length * sizeOf < maxArrayAllocSize) (hdecodes : ∀ a ∈ v, Decodes (pack a) unpack a) :
    Decodes (packVector v) (unpackVector sizeOf) v := by
  have hle : v.length ≤ v.length * sizeOf := Nat.le_mul_of_pos_right _ hpos
  have hword : v.length < 2 ^ 32 := Nat.lt_of_le_of_lt hle (Nat.lt_trans h (by decide))
  exact (decodes_unpackCount hword h).bind (decodes_readMany hdecodes)

/-- A vector no longer than a block is one: `least` bytes packed for `sizeOf` bytes in memory keep the
count below what the decoder allocates. -/
theorem length_lt_of_packVector {α : Type} [Raw α] {v : List α} (least : Nat) {sizeOf : Nat}
    (hleast : ∀ a ∈ v, least ≤ (pack a).length)
    (hsize : maxBlockSize * sizeOf < maxArrayAllocSize * least)
    (h : (packVector v).length ≤ maxBlockSize) : v.length * sizeOf < maxArrayAllocSize := by
  rw [packVector, List.length_append] at h
  have hcount : v.length * least ≤ maxBlockSize :=
    Nat.le_trans (length_mul_le_length_flatMap hleast) (by omega)
  refine Nat.lt_of_mul_lt_mul_right (a := least) ?_
  calc v.length * sizeOf * least = v.length * least * sizeOf := Nat.mul_right_comm ..
    _ ≤ maxBlockSize * sizeOf := Nat.mul_le_mul_right _ hcount
    _ < maxArrayAllocSize * least := hsize

theorem decodes_packVector {α : Type} [Raw α] {v : List α} (least : Nat) {sizeOf : Nat}
    (hleast : ∀ a ∈ v, least ≤ (pack a).length) (hpos : 0 < sizeOf)
    (hsize : maxBlockSize * sizeOf < maxArrayAllocSize * least)
    (h : (packVector v).length ≤ maxBlockSize) (hdecodes : ∀ a ∈ v, Decodes (pack a) unpack a) :
    Decodes (packVector v) (unpackVector sizeOf) v :=
  decodes_allocated hpos (length_lt_of_packVector least hleast hsize h) hdecodes

/-- What is in a vector is no longer than it. -/
theorem length_le_packVector {α : Type} [Raw α] {v : List α} {a : α} (h : a ∈ v) :
    (pack a).length ≤ (packVector v).length := by
  have hpart : (pack a).length ≤ (v.flatMap pack).length := length_le_length_flatMap h
  rw [packVector, List.length_append]
  omega

/-! ## Maps -/

/-- The key of an entry behind all the others is new. -/
theorem insertEntry_of_lt {e : AccountName × Asset} {xs : List (AccountName × Asset)}
    (h : ∀ x ∈ xs, x.1 < e.1) : insertEntry e xs = xs ++ [e] := by
  induction xs with
  | nil => rfl
  | cons x xs ih =>
    have hx := h x List.mem_cons_self
    rw [insertEntry, if_neg (UInt64.lt_asymm hx), if_neg (UInt64.ne_of_lt hx).symm,
      ih fun y hy => h y (List.mem_cons_of_mem _ hy), List.cons_append]

/-- Inserting the entries of a map in their order makes the map. -/
theorem foldl_insert_entries (m : AssetMap) :
    m.entries.foldl AssetMap.insert .empty = m := by
  have hfold : ∀ (es : List (AccountName × Asset)) (acc : AssetMap),
      (acc.entries ++ es).Pairwise (fun a b => a.1 < b.1) →
        (es.foldl AssetMap.insert acc).entries = acc.entries ++ es := by
    intro es
    induction es with
    | nil => simp
    | cons e es ih =>
      intro acc hsorted
      have hlt : ∀ x ∈ acc.entries, x.1 < e.1 := fun x hx =>
        (List.pairwise_append.mp hsorted).2.2 x hx e List.mem_cons_self
      have hinsert : (acc.insert e).entries = acc.entries ++ [e] := insertEntry_of_lt hlt
      rw [List.foldl_cons, ih _ (by rwa [hinsert, List.append_assoc]), hinsert,
        List.append_assoc]
      rfl
  exact AssetMap.ext (hfold m.entries .empty m.sorted)

theorem decodes_assetMap {m : AssetMap} (h : m.entries.length * 24 < maxArrayAllocSize) :
    Decodes (pack m) unpack m := by
  have hentries : Decodes (packVector m.entries) (unpackVector 24) m.entries :=
    decodes_allocated (by decide) h fun e _ => decodes e
  have hmap := hentries.bind_pure (f := fun es => es.foldl AssetMap.insert .empty)
  rwa [foldl_insert_entries] at hmap

/-! ## Operations, transactions and blocks -/

/-- The decoder allocates what an operation has of varying length. -/
def Operation.Unpackable : Operation → Prop
  | .createAccount _ => True
  | .transfer o => o.memo.length < maxArrayAllocSize
  | .transfers o =>
    o.toNames.entries.length * 24 < maxArrayAllocSize ∧ o.memo.length < maxArrayAllocSize

theorem decodes_operation {op : Operation} (h : op.Unpackable) : Decodes (pack op) unpack op := by
  have htag : ∀ n, n < 3 → Decodes (packUnsignedInt n) unpackUnsignedInt n := fun n hn =>
    decodes_packUnsignedInt (by omega)
  cases op with
  | createAccount o =>
    exact (htag 0 (by decide)).bind (decodes o).bind_pure
  | transfer o =>
    exact (htag 1 (by decide)).bind <| Decodes.bind_pure <| (decodes o.fromName).bind <|
      (decodes o.toName).bind <| (decodes o.amount).bind (decodes_packString h).bind_pure
  | transfers o =>
    exact (htag 2 (by decide)).bind <| Decodes.bind_pure <| (decodes o.fromName).bind <|
      (decodes_assetMap h.1).bind (decodes_packString h.2).bind_pure

/-- An operation that fits into a block can be unpacked. -/
theorem unpackable_of_length {op : Operation} (h : (pack op).length ≤ maxBlockSize) :
    op.Unpackable := by
  cases op with
  | createAccount o => trivial
  | transfer o =>
    refine length_lt_of_packString ?_
    simp only [pack, List.length_append] at h
    omega
  | transfers o =>
    have hparts : (packVector o.toNames.entries).length ≤ maxBlockSize ∧
        (packString o.memo).length ≤ maxBlockSize := by
      simp only [pack, List.length_append] at h ⊢
      omega
    exact ⟨length_lt_of_packVector 24 (fun e _ => Nat.le_of_eq rfl) (by decide) hparts.1,
      length_lt_of_packString hparts.2⟩

theorem packUnsignedInt_length (n : Nat) : 1 ≤ (packUnsignedInt n).length :=
  length_varintBytes_pos _ _

/-- The smallest operation is a batch without recipients. -/
theorem operation_length (op : Operation) : 11 ≤ (pack op).length := by
  cases op with
  | createAccount o =>
    simp only [pack, List.length_append, length_leBytes]
    omega
  | transfer o =>
    simp only [pack, List.length_append, length_leBytes]
    omega
  | transfers o =>
    have htag := packUnsignedInt_length 2
    have hnames := packUnsignedInt_length o.toNames.entries.length
    have hmemo := packUnsignedInt_length o.memo.length
    simp only [pack, packVector, packString, List.length_append, length_leBytes]
    omega

theorem decodes_transaction {t : Transaction} (h : (pack t).length ≤ maxBlockSize) :
    Decodes (pack t) unpack t := by
  have hops : (packVector t.operations).length ≤ maxBlockSize := by
    simp only [pack, List.length_append] at h ⊢
    omega
  exact (decodes t.refBlockNum).bind <| (decodes t.refBlockPrefix).bind <|
    (decodes t.expiration).bind <| Decodes.bind_pure <| decodes_packVector 11
      (fun op _ => operation_length op) (by decide) (by decide) hops
      fun op hop => decodes_operation <| unpackable_of_length <|
        Nat.le_trans (length_le_packVector hop) hops

theorem decodes_signedTransaction {t : SignedTransaction} (h : (pack t).length ≤ maxBlockSize) :
    Decodes (pack t) unpack t := by
  have hparts : (pack t.toTransaction).length ≤ maxBlockSize ∧
      (packVector t.signatures).length ≤ maxBlockSize := by
    simp only [pack, List.length_append] at h ⊢
    omega
  exact (decodes_transaction hparts.1).bind <| Decodes.bind_pure <| decodes_packVector 65
    (fun _ _ => Nat.le_of_eq rfl) (by decide) (by decide) hparts.2 fun s _ => decodes s

/-- The smallest transaction has no operation and no signature. -/
theorem signedTransaction_length (t : SignedTransaction) : 12 ≤ (pack t).length := by
  have hops := packUnsignedInt_length t.operations.length
  have hsignatures := packUnsignedInt_length t.signatures.length
  simp only [pack, packVector, List.length_append, length_leBytes]
  omega

theorem decodes_signedBlock {b : SignedBlock} (h : (pack b).length ≤ maxBlockSize) :
    Decodes (pack b) unpack b := by
  have htrxs : (packVector b.transactions).length ≤ maxBlockSize := by
    simp only [pack, List.length_append] at h ⊢
    omega
  have hvector : Decodes (packVector b.transactions) (unpackVector signedTransactionSize)
      b.transactions :=
    decodes_packVector 12 (fun t _ => signedTransaction_length t) (by decide) (by decide) htrxs
      fun t ht => decodes_signedTransaction (Nat.le_trans (length_le_packVector ht) htrxs)
  exact (decodes b.toSignedBlockHeader).bind hvector.bind_pure

/-- **The wire format.** A block no larger than blocks may be is read back from its bytes, and the
reader stops behind them, whatever follows. -/
theorem unpack_packedBlock (b : SignedBlock) (h : (pack b).length ≤ maxBlockSize)
    (w : List UInt8) : (unpack : Decoder Exc SignedBlock).run (pack b ++ w) = .ok b w :=
  decodes_signedBlock h w

/-- A block with a transfer, before one more byte. -/
theorem unpack_packedBlock_unitTransfer :
    (unpack : Decoder Exc SignedBlock).run
        (pack (@blockOn smallNode .null genesisTime [unitTransfer 10]) ++ [7]) =
      .ok (@blockOn smallNode .null genesisTime [unitTransfer 10]) [7] :=
  unpack_packedBlock _ (by decide +kernel) [7]

end NewsChain
