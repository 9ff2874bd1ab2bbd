import Mathlib.Data.List.GetD
import NewsChain.Base.KeyText
import NewsChain.Laws.RawRoundTrip

/-!
# What the key texts accept

Base 58 loses nothing: bytes are read back, and a text of its digits alone is the one its bytes are
written as. So what a decoder accepts is said by the bytes of the text. `wif_to_key` looks at the
checksum, which may be of one hash or of two, and neither at the version byte nor at the length;
`public_key_type` does not look at what follows the first 37 bytes (`keyText_canonical_iff`).
-/

namespace NewsChain

open Raw (pack unpack)
open Lossless (decodes)

/-! ## Base 58 -/

/-- A text of base 58 digits alone. -/
def Base58Text (str : Text) : Prop := ∀ c ∈ str, c ∈ pszBase58

theorem length_pszBase58 : pszBase58.length = 58 := by decide

theorem nodup_pszBase58 : pszBase58.Nodup := by decide

theorem plain_pszBase58 : ∀ c ∈ pszBase58, c ≠ '\x00' ∧ isSpace c = false := by
  have hall : (pszBase58.all fun c => c != '\x00' && !isSpace c) = true := by decide
  intro c hc
  simpa using List.all_eq_true.mp hall c hc

/-- A text of digits is read as it stands. -/
theorem fromBase58_of_digits {str : Text} (h : Base58Text str) :
    fromBase58 str = some ((recode 58 256 (str.map pszBase58.idxOf)).map UInt8.ofNat) := by
  have hnul : str.takeWhile (· != '\x00') = str :=
    List.takeWhile_eq_self_iff.mpr fun c hc => by simpa using (plain_pszBase58 c (h c hc)).1
  have hspace : str.dropWhile isSpace = str := by
    cases str with
    | nil => rfl
    | cons c str =>
      rw [List.dropWhile_cons_of_neg]
      rw [(plain_pszBase58 c (h c List.mem_cons_self)).2]
      exact Bool.false_ne_true
  have hdigits : str.takeWhile (fun c => decide (c ∈ pszBase58)) = str :=
    List.takeWhile_eq_self_iff.mpr fun c hc => decide_eq_true (h c hc)
  have hrest : str.dropWhile (fun c => decide (c ∈ pszBase58)) = [] :=
    List.dropWhile_eq_nil_iff.mpr fun c hc => decide_eq_true (h c hc)
  simp only [fromBase58, hnul, hspace, hdigits, hrest, List.dropWhile_nil, if_true]

theorem base58Text_toBase58 (bytes : List UInt8) : Base58Text (toBase58 bytes) := by
  intro c hc
  obtain ⟨digit, hdigit, rfl⟩ := List.mem_map.mp hc
  have hlt : digit < pszBase58.length := by
    rw [length_pszBase58]
    exact recode_lt (by decide) hdigit
  rw [List.getD_eq_getElem _ _ hlt]
  exact List.getElem_mem hlt

/-- What is written in base 58 is read back. -/
theorem fromBase58_toBase58 (bytes : List UInt8) : fromBase58 (toBase58 bytes) = some bytes := by
  have hbytes : ∀ d ∈ bytes.map (·.toNat), d < 256 := by
    intro d hd
    obtain ⟨b, -, rfl⟩ := List.mem_map.mp hd
    exact b.toNat_lt
  have hindex : (toBase58 bytes).map pszBase58.idxOf = recode 256 58 (bytes.map (·.toNat)) := by
    rw [toBase58, List.map_map]
    refine (List.map_congr_left fun digit hdigit => ?_).trans (List.map_id _)
    have hlt : digit < pszBase58.length := by
      rw [length_pszBase58]
      exact recode_lt (by decide) hdigit
    simp only [Function.comp_apply, List.getD_eq_getElem _ _ hlt, id_eq]
    exact nodup_pszBase58.idxOf_getElem _ hlt
  rw [fromBase58_of_digits (base58Text_toBase58 bytes), hindex, recode_recode (by decide) hbytes,
    List.map_map]
  refine congrArg some ((List.map_congr_left fun b _ => ?_).trans (List.map_id _))
  simp

/-- A text of digits is what its bytes are written as. -/
theorem toBase58_of_fromBase58 {str : Text} {bytes : List UInt8} (h : Base58Text str)
    (hbytes : fromBase58 str = some bytes) : toBase58 bytes = str := by
  rw [fromBase58_of_digits h, Option.some.injEq] at hbytes
  have hindex : ∀ d ∈ str.map pszBase58.idxOf, d < 58 := by
    intro d hd
    obtain ⟨c, hc, rfl⟩ := List.mem_map.mp hd
    rw [← length_pszBase58]
    exact List.idxOf_lt_length_of_mem (h c hc)
  have hnat : bytes.map (·.toNat) = recode 58 256 (str.map pszBase58.idxOf) := by
    rw [← hbytes, List.map_map]
    refine (List.map_congr_left fun d hd => ?_).trans (List.map_id _)
    have hlt : d < 256 := recode_lt (by decide) hd
    simp only [Function.comp_apply, id_eq, UInt8.toNat_ofNat']
    omega
  rw [toBase58, hnat, recode_recode (by decide) hindex, List.map_map]
  refine (List.map_congr_left fun c hc => ?_).trans (List.map_id _)
  have hlt := List.idxOf_lt_length_of_mem (h c hc)
  simp only [Function.comp_apply, List.getD_eq_getElem _ _ hlt, id_eq]
  exact List.getElem_idxOf hlt

/-! ## Fixed-width values -/

theorem length_pack_bitVec {w : Nat} (a : BitVec w) : (pack a).length = w / 8 :=
  length_leBytes _ _

/-- The bytes a value is read from are the bytes it is packed to. -/
theorem pack_ofLeBytes {n w : Nat} (h : w = 8 * n) {bs : List UInt8} (hlen : bs.length = n) :
    pack (BitVec.ofNat w (ofLeBytes bs)) = bs := by
  have hbound : ofLeBytes bs < 2 ^ w := by
    rw [h, Nat.pow_mul, ← hlen]
    exact ofLeBytes_lt bs
  show leBytes (w / 8) (BitVec.ofNat w (ofLeBytes bs)).toNat = bs
  rw [BitVec.toNat_ofNat, Nat.mod_eq_of_lt hbound, h, Nat.mul_div_cancel_left n (by decide), ← hlen]
  exact leBytes_ofLeBytes bs

theorem unpack_bitVec_eq_ok {n w : Nat} (h : w = 8 * n) {bytes rest : List UInt8} {a : BitVec w}
    (hrun : (unpack : Decoder Exc (BitVec w)).run bytes = .ok a rest) : bytes = pack a ++ rest := by
  obtain ⟨v, rest', hread, hpure⟩ := bind_eq_ok.mp hrun
  obtain ⟨bs, rest'', hbs, hpure'⟩ := bind_eq_ok.mp hread
  cases hpure'
  cases hpure
  obtain ⟨happend, hlen⟩ := readBytes_eq_ok.mp hbs
  rw [pack_ofLeBytes h (hlen.trans (by rw [h, Nat.mul_div_cancel_left n (by decide)]))]
  exact happend

instance : Lossless BinaryKey :=
  ⟨fun k => (decodes k.data).bind (decodes k.check).bind_pure⟩

/-- A binary key that is read stands at the front of the bytes. -/
theorem unpack_binaryKey_eq_ok {bytes rest : List UInt8} {k : BinaryKey}
    (hrun : (unpack : Decoder Exc BinaryKey).run bytes = .ok k rest) : bytes = pack k ++ rest := by
  obtain ⟨data, rest₁, hdata, hrun⟩ := bind_eq_ok.mp hrun
  obtain ⟨check, rest₂, hcheck, hrun⟩ := bind_eq_ok.mp hrun
  cases hrun
  rw [unpack_bitVec_eq_ok (n := 33) rfl hdata, unpack_bitVec_eq_ok (n := 4) rfl hcheck,
    ← List.append_assoc]
  rfl

theorem length_pack_binaryKey (k : BinaryKey) : (pack k).length = 37 := by
  show (pack k.data ++ pack k.check).length = 37
  rw [List.length_append, length_pack_bitVec, length_pack_bitVec]

theorem drop_addressPrefix (digits : Text) : (addressPrefix ++ digits).drop 2 = digits := rfl

/-! ## Private keys -/

theorem length_checksum (digest : Digest) : (checksum digest).length = 4 := by
  rw [checksum, List.length_take, length_pack_bitVec]
  rfl

/-- The secret is read from the bytes it is packed to. -/
theorem secretOfBytes_pack (k : PrivateKey) : secretOfBytes (pack k) = k := by
  have hlen : (pack k).take 32 = pack k := List.take_of_length_le (by rw [length_pack_bitVec])
  have hbound : k.toNat < 256 ^ 32 := k.isLt
  rw [secretOfBytes, hlen]
  show BitVec.ofNat 256 (ofLeBytes (leBytes 32 k.toNat)) = k
  rw [ofLeBytes_leBytes hbound, BitVec.ofNat_toNat, BitVec.setWidth_eq]

/-- The bytes of a secret are the secret's. -/
theorem pack_secretOfBytes {bytes : List UInt8} (h : bytes.length = 32) :
    pack (secretOfBytes bytes) = bytes := by
  rw [secretOfBytes, List.take_of_length_le (Nat.le_of_eq h)]
  exact pack_ofLeBytes (n := 32) rfl h

section Texts

variable [KeyHash]

/-- What `wif_to_key` accepts: any data with one of its two checksums. -/
theorem wifToKey_eq_some {str : Text} {k : PrivateKey} :
    wifToKey str = some k ↔ ∃ data last, fromBase58 str = some (data ++ last) ∧ data ≠ [] ∧
      last.length = 4 ∧ k = secretOfBytes (data.drop 1) ∧
      (checksum (KeyHash.sha256 data) = last ∨ checksum (doubleHash data) = last) := by
  constructor
  · intro h
    unfold wifToKey at h
    cases hbytes : fromBase58 str with
    | none => rw [hbytes] at h; cases h
    | some bytes =>
      rw [hbytes] at h
      dsimp only at h
      by_cases hshort : bytes.length < 5
      · rw [if_pos hshort] at h
        cases h
      · rw [if_neg hshort] at h
        split at h
        · rename_i hcheck
          cases h
          refine ⟨bytes.take (bytes.length - 4), bytes.drop (bytes.length - 4), ?_, ?_, ?_, rfl,
            hcheck⟩
          · rw [List.take_append_drop]
          · intro hnil
            have hlen := congrArg List.length hnil
            rw [List.length_take, List.length_nil] at hlen
            omega
          · rw [List.length_drop]
            omega
        · cases h
  · rintro ⟨data, last, hbytes, hne, hlen, rfl, hcheck⟩
    have hpos : 0 < data.length := List.length_pos_iff.mpr hne
    have hsub : (data ++ last).length - 4 = data.length := by
      rw [List.length_append, hlen, Nat.add_sub_cancel]
    have hlong : ¬ (data ++ last).length < 5 := by
      rw [List.length_append]
      omega
    simp only [wifToKey, hbytes, if_neg hlong, hsub, List.take_left, List.drop_left]
    exact if_pos hcheck

/-- The data of a key comes back with its checksum. -/
theorem wifToKey_keyToWif (k : PrivateKey) : wifToKey (keyToWif k) = some k := by
  refine wifToKey_eq_some.mpr ⟨_, _, fromBase58_toBase58 _, List.cons_ne_nil _ _, length_checksum _,
    ?_, .inr rfl⟩
  rw [List.drop_one, List.tail_cons, secretOfBytes_pack]

/-- The texts `key_to_wif` writes: the version byte, 32 bytes of secret and the checksum of two
hashes, in digits alone. -/
structure WifImage (str : Text) : Prop where
  digits : Base58Text str
  bytes : ∃ secret, secret.length = 32 ∧
    fromBase58 str = some (0x80 :: secret ++ checksum (doubleHash (0x80 :: secret)))

theorem keyToWif_eq_iff {str : Text} {k : PrivateKey} (h : wifToKey str = some k) :
    keyToWif k = str ↔ WifImage str := by
  constructor
  · rintro rfl
    refine ⟨base58Text_toBase58 _, pack k, length_pack_bitVec k, ?_⟩
    exact fromBase58_toBase58 _
  · rintro ⟨hdigits, secret, hlen, hbytes⟩
    obtain ⟨data, last, hbytes', -, hlast, rfl, -⟩ := wifToKey_eq_some.mp h
    have hdata : data = 0x80 :: secret := by
      rw [hbytes, Option.some.injEq] at hbytes'
      exact (List.append_inj_left' hbytes' (by rw [length_checksum, hlast])).symm
    rw [keyToWif, hdata, List.drop_one, List.tail_cons, pack_secretOfBytes hlen]
    exact toBase58_of_fromBase58 hdigits hbytes

/-! ## Public keys -/

/-- What `public_key_type` accepts: a key with its check, and anything after them. -/
theorem publicKeyFromText_eq_ok {str : Text} {p : PublicKey} :
    publicKeyFromText str = .ok p ↔ ∃ digits rest, str = addressPrefix ++ digits ∧ digits ≠ [] ∧
      fromBase58 digits = some (pack (binaryKey p) ++ rest) := by
  constructor
  · intro h
    unfold publicKeyFromText at h
    by_cases hlong : addressPrefix.length < str.length
    · by_cases haddress : str.take addressPrefix.length = addressPrefix
      · rw [if_neg (not_not.mpr hlong), if_neg (not_not.mpr haddress)] at h
        cases hbytes : fromBase58 (str.drop addressPrefix.length) with
        | none => rw [hbytes] at h; cases h
        | some bin =>
          simp only [hbytes, unpackFromVector] at h
          by_cases hnil : bin = []
          · rw [if_pos hnil] at h
            cases h
          · rw [if_neg hnil] at h
            cases hrun : (unpack : Decoder Exc BinaryKey).run bin with
            | error e rest => rw [hrun] at h; cases h
            | ok k rest =>
              simp only [hrun] at h
              split at h
              · rename_i hcheck
                cases h
                have hk : k = binaryKey k.data := by
                  rw [show k = ⟨k.data, k.check⟩ from rfl, ← hcheck]
                  rfl
                refine ⟨str.drop addressPrefix.length, rest, ?_, ?_, ?_⟩
                · exact (List.take_append_drop _ str).symm.trans (by rw [haddress])
                · intro hdrop
                  have hlen := congrArg List.length hdrop
                  rw [List.length_drop, List.length_nil] at hlen
                  omega
                · rw [hbytes, unpack_binaryKey_eq_ok hrun, ← hk]
              · cases h
      · rw [if_neg (not_not.mpr hlong), if_pos haddress] at h
        cases h
    · rw [if_pos hlong] at h
      cases h
  · rintro ⟨digits, rest, rfl, hne, hbytes⟩
    have hlong : addressPrefix.length < (addressPrefix ++ digits).length := by
      have := List.length_pos_iff.mpr hne
      rw [List.length_append]
      omega
    have hnil : pack (binaryKey p) ++ rest ≠ [] := List.append_ne_nil_of_left_ne_nil (by
      rw [← List.length_pos_iff]
      show 0 < (pack p ++ pack (binaryKey p).check).length
      rw [List.length_append, length_pack_bitVec]
      omega) _
    have hrun := decodes (binaryKey p) rest
    simp only [publicKeyFromText, hlong, not_true, if_false, List.take_left, List.drop_left, hbytes,
      unpackFromVector, if_neg hnil, hrun]
    exact if_pos rfl

theorem publicKeyFromText_publicKeyToText (p : PublicKey) :
    publicKeyFromText (publicKeyToText p) = .ok p := by
  refine publicKeyFromText_eq_ok.mpr ⟨_, [], rfl, fun hnil => ?_, ?_⟩
  · have hbytes := fromBase58_toBase58 (pack (binaryKey p))
    rw [hnil] at hbytes
    have hlen := congrArg List.length (Option.some.inj hbytes)
    rw [length_pack_binaryKey] at hlen
    cases hlen
  · rw [fromBase58_toBase58, List.append_nil]

/-- The texts `std::string` writes of a public key: 37 bytes after the prefix, in digits alone. -/
structure PublicKeyImage (str : Text) : Prop where
  digits : Base58Text (str.drop addressPrefix.length)
  length : (fromBase58 (str.drop addressPrefix.length)).map List.length = some 37

theorem publicKeyToText_eq_iff {str : Text} {p : PublicKey} (h : publicKeyFromText str = .ok p) :
    publicKeyToText p = str ↔ PublicKeyImage str := by
  constructor
  · rintro rfl
    refine ⟨base58Text_toBase58 _, ?_⟩
    show (fromBase58 (toBase58 (pack (binaryKey p)))).map _ = _
    rw [fromBase58_toBase58, Option.map_some, length_pack_binaryKey]
  · rintro ⟨hdigits, hlen⟩
    obtain ⟨digits, rest, rfl, -, hbytes⟩ := publicKeyFromText_eq_ok.mp h
    rw [List.drop_left] at hdigits hlen
    have hrest : rest = [] := by
      rw [hbytes, Option.map_some, Option.some.injEq, List.length_append,
        length_pack_binaryKey] at hlen
      exact List.length_eq_zero_iff.mp (by omega)
    rw [hrest, List.append_nil] at hbytes
    rw [publicKeyToText, toBase58_of_fromBase58 hdigits hbytes]

/-- **Key texts.** Every key is read back from its text. A text that `wif_to_key` or
`public_key_type` accepts is the one that is written for its key exactly if it has the digits, the
version byte, the length and the checksum the writer gives it. -/
theorem keyText_canonical_iff :
    (∀ k : PrivateKey, wifToKey (keyToWif k) = some k) ∧
    (∀ p : PublicKey, publicKeyFromText (publicKeyToText p) = .ok p) ∧
    (∀ str k, wifToKey str = some k → (keyToWif k = str ↔ WifImage str)) ∧
    ∀ str p, publicKeyFromText str = .ok p → (publicKeyToText p = str ↔ PublicKeyImage str) :=
  ⟨wifToKey_keyToWif, publicKeyFromText_publicKeyToText, fun _ _ => keyToWif_eq_iff,
    fun _ _ => publicKeyToText_eq_iff⟩

end Texts

/-- Whatever the hashes are, a text with another version byte and a public key with a byte after it
are accepted; and where one hash and two differ, so is the checksum of one. -/
theorem keyText_accepts_others :
    (∀ _ : KeyHash, ¬ ∀ str k, Base58Text str → wifToKey str = some k → keyToWif k = str) ∧
    (∀ _ : KeyHash, ¬ ∀ str p, Base58Text (str.drop 2) → publicKeyFromText str = .ok p →
      publicKeyToText p = str) ∧
    ∀ hash : KeyHash,
      let data := 0x80 :: List.replicate 32 0
      checksum (hash.sha256 data) ≠ checksum (doubleHash data) →
        ¬ ∀ str k, Base58Text str → fromBase58 str = some (data ++ checksum (hash.sha256 data)) →
          wifToKey str = some k → keyToWif k = str := by
  refine ⟨fun hash h => ?_, fun hash h => ?_, fun hash => ?_⟩
  · let data : List UInt8 := 0x81 :: List.replicate 32 0
    have haccepts : wifToKey (toBase58 (data ++ checksum (doubleHash data))) = some 0 :=
      wifToKey_eq_some.mpr ⟨data, _, fromBase58_toBase58 _, List.cons_ne_nil _ _, length_checksum _,
        by decide, .inr rfl⟩
    have himage := (keyToWif_eq_iff haccepts).mp (h _ _ (base58Text_toBase58 _) haccepts)
    obtain ⟨secret, -, hbytes⟩ := himage.bytes
    rw [fromBase58_toBase58] at hbytes
    have hversion : (0x81 : UInt8) = 0x80 := (List.cons.inj (Option.some.inj hbytes)).1
    exact absurd hversion (by decide)
  · let str := addressPrefix ++ toBase58 (pack (binaryKey 0) ++ [0])
    have hbytes : fromBase58 (toBase58 (pack (binaryKey 0) ++ [0])) =
        some (pack (binaryKey 0) ++ [0]) := fromBase58_toBase58 _
    have haccepts : publicKeyFromText str = .ok 0 := by
      refine publicKeyFromText_eq_ok.mpr ⟨_, [0], rfl, fun hnil => ?_, hbytes⟩
      rw [hnil] at hbytes
      have hlen := congrArg List.length (Option.some.inj hbytes)
      rw [List.length_append, length_pack_binaryKey] at hlen
      cases hlen
    have hdrop : str.drop 2 = toBase58 (pack (binaryKey 0) ++ [0]) := drop_addressPrefix _
    have hdigits : Base58Text (str.drop 2) := hdrop ▸ base58Text_toBase58 _
    have hlen : (fromBase58 (str.drop 2)).map List.length = some 37 :=
      ((publicKeyToText_eq_iff haccepts).mp (h _ _ hdigits haccepts)).length
    rw [hdrop] at hlen
    rw [hbytes, Option.map_some, List.length_append, length_pack_binaryKey] at hlen
    cases hlen
  · intro data hdiffer h
    have haccepts : wifToKey (toBase58 (data ++ checksum (hash.sha256 data))) = some 0 :=
      wifToKey_eq_some.mpr ⟨data, _, fromBase58_toBase58 _, List.cons_ne_nil _ _, length_checksum _,
        by decide, .inl rfl⟩
    have heq := h _ _ (base58Text_toBase58 _) (fromBase58_toBase58 _) haccepts
    obtain ⟨secret, hlen, hbytes⟩ := ((keyToWif_eq_iff haccepts).mp heq).bytes
    rw [fromBase58_toBase58, Option.some.injEq] at hbytes
    obtain ⟨hdata, hcheck⟩ := List.append_inj' hbytes (by rw [length_checksum, length_checksum])
    exact hdiffer (hcheck.trans (by rw [← hdata]))

end NewsChain
