import NewsChain.Base.AssetText
import NewsChain.Base.Raw
import NewsChain.Lib.Radix

/-!
# Keys as text

`key_to_wif` and `wif_to_key`, and the conversions of `public_key_type` to and from `std::string`,
with the base 58 they are written in. A private key is its secret: `regenerate` checks nothing.
-/

namespace NewsChain

open Raw (pack unpack)

/-! ## Base 58 -/

/-- `pszBase58`. -/
def pszBase58 : Text := "123456789ABCDEFGHJKLMNPQRSTUVWXYZabcdefghijkmnopqrstuvwxyz".toList

/-- `fc::to_base58`: the bytes are one number, written after a `1` for each leading zero. -/
def toBase58 (bytes : List UInt8) : Text :=
  (recode 256 58 (bytes.map (·.toNat))).map fun digit => pszBase58.getD digit '1'

/-- `fc::from_base58`, `none` where it throws a `parse_error_exception`. The text ends at a NUL, and
white space around it is skipped. -/
def fromBase58 (str : Text) : Option (List UInt8) :=
  let psz := (str.takeWhile (· != '\x00')).dropWhile isSpace
  let digits := psz.takeWhile fun c => decide (c ∈ pszBase58)
  let rest := psz.dropWhile fun c => decide (c ∈ pszBase58)
  if rest.dropWhile isSpace = [] then
    some ((recode 58 256 (digits.map pszBase58.idxOf)).map UInt8.ofNat)
  else none

/-! ## Hashes -/

/-- The hashes under the checksums, of any bytes. -/
class KeyHash where
  /-- `fc::sha256::hash`. -/
  sha256 : List UInt8 → Digest
  /-- The word `_hash[0]` of `fc::ripemd160::hash`. -/
  ripemd160 : List UInt8 → Word

variable [KeyHash]

/-- The first four bytes of a digest. -/
def checksum (digest : Digest) : List UInt8 := (pack digest).take 4

/-- `fc::sha256::hash` of some bytes, hashed again. -/
def doubleHash (bytes : List UInt8) : Digest :=
  KeyHash.sha256 (pack (KeyHash.sha256 bytes))

/-! ## Private keys -/

/-- `key_to_wif`. -/
def keyToWif (privateSecret : PrivateKey) : Text :=
  let data := 0x80 :: pack privateSecret
  toBase58 (data ++ checksum (doubleHash data))

/-- `from_variant` of a private key: the bytes are copied over 32 zeros, as many as fit. -/
def secretOfBytes (bytes : List UInt8) : PrivateKey := .ofNat 256 (ofLeBytes (bytes.take 32))

/-- `wif_to_key`. The bytes of the key pass through a `variant`, as a hex string and back. -/
def wifToKey (wifKey : Text) : Option PrivateKey :=
  match fromBase58 wifKey with
  | none => none
  | some wifBytes =>
    if wifBytes.length < 5 then none
    else
      let data := wifBytes.take (wifBytes.length - 4)
      let last := wifBytes.drop (wifBytes.length - 4)
      let key := secretOfBytes (data.drop 1)
      let check := KeyHash.sha256 data
      let check2 := KeyHash.sha256 (pack check)
      if checksum check = last ∨ checksum check2 = last then some key else none

/-! ## Public keys -/

/-- `NEWS_ADDRESS_PREFIX`. -/
def addressPrefix : Text := ['N', 'T']

/-- `public_key_type::binary_key`. -/
structure BinaryKey where
  data : PublicKey
  check : Word
deriving DecidableEq

instance : Raw BinaryKey where
  pack k := pack k.data ++ pack k.check
  unpack := do
    let data ← unpack
    let check ← unpack
    pure { data, check }

/-- `unpack_from_vector`: what follows the value is ignored. A class whose constructor leaves a
member alone has no value where there are no bytes. -/
def unpackFromVector {α : Type} [Raw α] (s : List UInt8) : Except Exc α :=
  if s = [] then .error (.undefinedBehavior "read of an uninitialized member")
  else
    match unpack.run s with
    | .ok a _ => .ok a
    | .error e _ => .error e

/-- The binary key of a public key. -/
def binaryKey (keyData : PublicKey) : BinaryKey where
  data := keyData
  check := KeyHash.ripemd160 (pack keyData)

/-- `public_key_type::operator std::string`. -/
def publicKeyToText (keyData : PublicKey) : Text :=
  addressPrefix ++ toBase58 (pack (binaryKey keyData))

/-- `public_key_type( const std::string& )`. -/
def publicKeyFromText (base58str : Text) : Except Exc PublicKey :=
  if ¬ addressPrefix.length < base58str.length then
    .error (.assertion "base58str.size() > prefix_len")
  else if ¬ base58str.take addressPrefix.length = addressPrefix then
    .error (.assertion "base58str.substr( 0, prefix_len ) == prefix")
  else
    match fromBase58 (base58str.drop addressPrefix.length) with
    | none => .error (.assertion "Unable to decode base58 string")
    | some bin =>
      match unpackFromVector (α := BinaryKey) bin with
      | .error e => .error e
      | .ok binKey =>
        if (binaryKey binKey.data).check = binKey.check then .ok binKey.data
        else .error (.assertion
          "fc::ripemd160::hash( key_data.data, key_data.size() )._hash[0] == bin_key.check")

end NewsChain
