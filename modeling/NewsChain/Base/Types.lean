import Mathlib.Data.BitVec
import Mathlib.Tactic.Common
import Mathlib.Tactic.IntervalCases

/-!
# The data the chain is made of

Identifiers, assets, operations, transactions and blocks, with the constants of `config.hpp` and
`hardfork_config.hpp`. A machine integer keeps its width where the code computes with it; a
block number is the natural number a `uint32_t` holds.

Hashing, packing and key recovery are not the chain's own code. They are the fields of `Env`,
which every later definition takes as an instance; nothing here assumes anything about them.
-/

namespace NewsChain

/-! ## Words and identifiers -/

/-- One 32-bit word of a hash. -/
abbrev Word := BitVec 32

/-- `fc::endian_reverse_u32`. -/
def endianReverse32 (x : Word) : Word :=
  ((x >>> 24) &&& 0xFF#32) ||| (((x >>> 16) &&& 0xFF#32) <<< 8) |||
    (((x >>> 8) &&& 0xFF#32) <<< 16) ||| ((x &&& 0xFF#32) <<< 24)

@[simp] theorem endianReverse32_endianReverse32 (x : Word) :
    endianReverse32 (endianReverse32 x) = x := by
  ext i hi
  interval_cases i <;> simp [endianReverse32]

/-- `block_id_type`, an `fc::ripemd160`: five words. -/
structure BlockId where
  hash0 : Word
  hash1 : Word
  hash2 : Word
  hash3 : Word
  hash4 : Word
deriving DecidableEq, Repr

/-- `block_id_type()`, the previous id of a first block. -/
def BlockId.null : BlockId := ⟨0, 0, 0, 0, 0⟩

/-- An `fc::sha224`: seven words. -/
structure Sha224 where
  hash0 : Word
  hash1 : Word
  hash2 : Word
  hash3 : Word
  hash4 : Word
  hash5 : Word
  hash6 : Word

/-- An `fc::sha256`; also `digest_type` and `checksum_type`. -/
abbrev Digest := BitVec 256

/-- `transaction_id_type`, the first twenty bytes of a digest. -/
abbrev TransactionId := BitVec 160

abbrev AccountName := UInt64
abbrev PublicKey := BitVec 264
abbrev PrivateKey := BitVec 256
abbrev Signature := BitVec 520

/-- `fc::time_point_sec`: seconds since the epoch. -/
abbrev TimePointSec := UInt32

/-- `version::v_num`. -/
abbrev Version := UInt32

/-! ## Constants -/

/-- `NEWS_GENESIS_TIME`. -/
def genesisTime : TimePointSec := 1533633600

/-- `NEWS_SYMBOL`. -/
def newsSymbol : UInt64 :=
  (8 : UInt64) ||| (78 : UInt64) <<< 8 ||| (69 : UInt64) <<< 16 ||| (87 : UInt64) <<< 24 |||
    (84 : UInt64) <<< 32

/-- `NEWS_BLOCK_INTERVAL`. -/
def blockInterval : Nat := 3

/-- `NEWS_MAX_BLOCK_SIZE`. -/
def maxBlockSize : Nat := 1024 * 1024

/-- `IRREVERSIBLE_BLOCK_NUM`. -/
def irreversibleBlockNum : Nat := 21

/-- `NEWS_SYSTEM_ACCOUNT_NAME`. -/
def systemAccountName : AccountName := 1

/-- `NEWS_SYSTEM_ACCEPT_NAME`. -/
def systemAcceptName : AccountName := 10

/-- `INT64_MAX`. -/
def int64Max : Int64 := 9223372036854775807

/-- `NEWS_HARDFORK_NUM`. -/
def hardforkNum : Nat := 2

/-- `_hardfork_times`, as `init_hardforks` fills it. -/
def hardforkTimes : Nat → TimePointSec
  | 0 => genesisTime
  | 1 => 1533706200
  | 2 => 1533706800
  | _ => 0

/-- `_hardfork_versions`: every shift of the constructor of `version` moves what came before out
of the word, so only the revision is left. -/
def hardforkVersions : Nat → Version
  | 0 => 0
  | 1 => (1 : UInt32) <<< 24
  | 2 => (2 : UInt32) <<< 24
  | _ => 1

/-! ## Skip flags -/

/-- `validation_steps`, the flags the chain reads or sets. -/
abbrev SkipFlags := UInt64

def skipNothing : SkipFlags := 0x00000000
def skipProducerSignature : SkipFlags := 0x00000001
def skipTransactionSignatures : SkipFlags := 0x00000002
def skipTransactionDupeCheck : SkipFlags := 0x00000004
def skipForkDb : SkipFlags := 0x00000008
def skipBlockSizeCheck : SkipFlags := 0x00000010
def skipTaposCheck : SkipFlags := 0x00000020
def skipAuthorityCheck : SkipFlags := 0x00000040
def skipMerkleCheck : SkipFlags := 0x00000080
def skipProducerScheduleCheck : SkipFlags := 0x00000200
def skipValidate : SkipFlags := 0x00000400
def skipValidateInvariants : SkipFlags := 0x00000800
def skipBlockLog : SkipFlags := 0x00002000

/-- `_skip_flags & step`. -/
def SkipFlags.has (flags step : SkipFlags) : Bool := flags &&& step != 0

/-- A union of flags has the flags of both. -/
theorem SkipFlags.has_or (a b step : SkipFlags) :
    (a ||| b : SkipFlags).has step = (a.has step || b.has step) := by
  have hand : (a ||| b) &&& step = (a &&& step) ||| (b &&& step) := UInt64.toBitVec_inj.mp (by
    simp only [UInt64.toBitVec_and, UInt64.toBitVec_or, BitVec.and_or_distrib_right])
  rw [Bool.eq_iff_iff]
  simp only [SkipFlags.has, hand, bne_iff_ne, Bool.or_eq_true, ne_eq, UInt64.or_eq_zero_iff]
  tauto

/-! ## Assets and operations -/

structure Asset where
  amount : Int64 := 0
  symbol : UInt64 := newsSymbol
deriving DecidableEq, Repr

structure SharedAuthority where
  key : PublicKey
  weightType : Int32
deriving DecidableEq, Repr

structure CreateAccountOperation where
  name : AccountName
  creator : AccountName
  posting : SharedAuthority
  owner : SharedAuthority
deriving DecidableEq, Repr

structure TransferOperation where
  fromName : AccountName
  toName : AccountName
  amount : Asset
  memo : List UInt8
deriving DecidableEq, Repr

/-- `std::map<account_name, asset>`: each name once, in ascending order. -/
@[ext] structure AssetMap where
  entries : List (AccountName × Asset)
  sorted : entries.Pairwise (fun a b => a.1 < b.1)
deriving DecidableEq

structure TransfersOperation where
  fromName : AccountName
  toNames : AssetMap
  memo : List UInt8
deriving DecidableEq

/-- `operation`, the static variant. -/
inductive Operation
  | createAccount (o : CreateAccountOperation)
  | transfer (o : TransferOperation)
  | transfers (o : TransfersOperation)
deriving DecidableEq

/-! ## Transactions and blocks -/

structure Transaction where
  refBlockNum : UInt16
  refBlockPrefix : Word
  expiration : TimePointSec
  operations : List Operation
deriving DecidableEq

structure SignedTransaction extends Transaction where
  signatures : List Signature
deriving DecidableEq

structure BlockHeader where
  timestamp : TimePointSec
  producer : AccountName
  transactionMerkleRoot : Digest
  previous : BlockId
  version : Version
deriving DecidableEq

structure SignedBlockHeader extends BlockHeader where
  producerSignature : Signature
deriving DecidableEq

structure SignedBlock extends SignedBlockHeader where
  transactions : List SignedTransaction
deriving DecidableEq

/-! ## The code the chain calls and does not define -/

/-- Hashing, packing, signatures and the genesis keys. -/
class Env where
  /-- `fc::sha224::hash` of a packed header. -/
  sha224 : SignedBlockHeader → Sha224
  /-- `block_header::digest`. -/
  headerDigest : BlockHeader → Digest
  /-- `transaction::digest`, which is also `sig_digest`: the chain id is not hashed. -/
  digest : Transaction → Digest
  /-- `signed_transaction::merkle_digest`. -/
  merkleDigest : SignedTransaction → Digest
  /-- `digest_type::hash` of a pair. -/
  hashPair : Digest → Digest → Digest
  /-- `checksum_type::hash` of a digest. -/
  hashDigest : Digest → Digest
  /-- `fc::ecc::public_key( signature, digest )`; `none` where it throws. -/
  recover : Signature → Digest → Option PublicKey
  /-- `private_key::sign_compact`. -/
  signCompact : PrivateKey → Digest → Signature
  /-- `fc::raw::pack`. -/
  pack : SignedTransaction → List UInt8
  /-- `NEWS_INIT_PRIVATE_KEY.get_public_key()`. -/
  initKey : PublicKey
  /-- `NEWS_ACCEPT_NAME_PRIVATE_KEY.get_public_key()`. -/
  acceptKey : PublicKey

section Identifiers

variable [Env]

/-- `transaction::id`. -/
def Transaction.id (t : Transaction) : TransactionId := (Env.digest t).setWidth 160

/-- `block_header::num_from_id`. -/
def numFromId (id : BlockId) : Nat := (endianReverse32 id.hash0).toNat

/-- `block_header::block_num`, computed in 32 bits. -/
def BlockHeader.blockNum (h : BlockHeader) : Nat := (numFromId h.previous + 1) % 2 ^ 32

/-- `signed_block_header::id`: the hash of the header under its block number. -/
def SignedBlockHeader.id (h : SignedBlockHeader) : BlockId :=
  let tmp := Env.sha224 h
  { hash0 := endianReverse32 (BitVec.ofNat 32 h.blockNum)
    hash1 := tmp.hash1
    hash2 := tmp.hash2
    hash3 := tmp.hash3
    hash4 := tmp.hash4 }

omit [Env] in
theorem BlockHeader.blockNum_lt (h : BlockHeader) : h.blockNum < 2 ^ 32 :=
  Nat.mod_lt _ (by decide)

omit [Env] in
theorem numFromId_lt (id : BlockId) : numFromId id < 2 ^ 32 := (endianReverse32 id.hash0).isLt

omit [Env] in
@[simp] theorem numFromId_null : numFromId BlockId.null = 0 := by decide

/-- The number of a block is read back from its id. -/
@[simp] theorem numFromId_id (h : SignedBlockHeader) : numFromId h.id = h.blockNum := by
  simp only [numFromId, SignedBlockHeader.id, endianReverse32_endianReverse32, BitVec.toNat_ofNat]
  exact Nat.mod_eq_of_lt h.blockNum_lt

/-- Blocks with equal ids have equal numbers. -/
theorem blockNum_eq_of_id_eq {h h' : SignedBlockHeader} (e : h.id = h'.id) :
    h.blockNum = h'.blockNum := by
  rw [← numFromId_id, e, numFromId_id]

/-- `transaction::set_reference_block`. The number is cut to 16 bits. -/
def Transaction.setReferenceBlock (t : Transaction) (referenceBlock : BlockId) : Transaction :=
  { t with
    refBlockNum := UInt16.ofNat (endianReverse32 referenceBlock.hash0).toNat
    refBlockPrefix := referenceBlock.hash1 }

/-- One level of the tree of `caculate_merkle_root`: neighbours are hashed together and an odd
last digest moves up as it is. -/
def pairUp : List Digest → List Digest
  | a :: b :: rest => Env.hashPair a b :: pairUp rest
  | rest => rest

/-- The levels up to the root. Each level is at least halved, so the length is enough fuel. -/
def merkleReduce : Nat → List Digest → Digest
  | _, [] => 0
  | _, [d] => d
  | 0, d :: _ => d
  | fuel + 1, ds => merkleReduce fuel (pairUp ds)

/-- `signed_block::caculate_merkle_root`. -/
def merkleRoot (transactions : List SignedTransaction) : Digest :=
  if transactions.isEmpty then 0
  else Env.hashDigest (merkleReduce transactions.length (transactions.map Env.merkleDigest))

theorem pairUp_length (ds : List Digest) : (pairUp ds).length = (ds.length + 1) / 2 := by
  fun_induction pairUp ds with
  | case1 a b rest ih => simp only [List.length_cons, ih]; omega
  | case2 rest h =>
    match rest, h with
    | [], _ => rfl
    | [_], _ => simp
    | a :: b :: rest, h => exact absurd rfl (h a b rest)

/-- The levels reach the root: with the length as fuel the answer no longer depends on it. -/
theorem merkleReduce_fuel {fuel fuel' : Nat} {ds : List Digest} (h : ds.length ≤ fuel + 1)
    (h' : ds.length ≤ fuel' + 1) : merkleReduce fuel ds = merkleReduce fuel' ds := by
  induction fuel generalizing fuel' ds with
  | zero =>
    match ds, h with
    | [], _ => simp [merkleReduce]
    | [d], _ => simp [merkleReduce]
  | succ fuel ih =>
    match ds with
    | [] => simp [merkleReduce]
    | [d] => simp [merkleReduce]
    | a :: b :: rest =>
      cases fuel' with
      | zero => simp at h'
      | succ fuel' =>
        have hlen := pairUp_length (a :: b :: rest)
        simp only [List.length_cons] at hlen h h'
        simp only [merkleReduce]
        exact ih (by omega) (by omega)

end Identifiers

/-! ## Packed sizes -/

/-- The bytes of `fc::unsigned_int`: seven bits a byte. -/
def varintSize : Nat → Nat → Nat
  | 0, _ => 1
  | fuel + 1, n => if n < 128 then 1 else 1 + varintSize fuel (n / 128)

/-- `fc::raw::pack_size( signed_block_header() )`: timestamp, producer, merkle root, previous id,
version and signature. -/
def headerPackSize : Nat := 4 + 8 + 32 + 20 + 4 + 65

variable [Env]

/-- `fc::raw::pack_size` of a transaction. -/
def SignedTransaction.packSize (t : SignedTransaction) : Nat := (Env.pack t).length

/-- `fc::raw::pack_size` of a block: the header, the number of transactions, the transactions. -/
def SignedBlock.packSize (b : SignedBlock) : Nat :=
  headerPackSize + varintSize 4 b.transactions.length +
    (b.transactions.map (·.packSize)).sum

end NewsChain
