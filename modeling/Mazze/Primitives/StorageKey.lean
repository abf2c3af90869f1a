/-
  Storage keys (`storage_key.rs`): the raw key bytes of `to_key_bytes` and `from_key_bytes`, and
  the delta MPT key bytes of `to_delta_mpt_key_bytes` and `from_delta_mpt_key`.

  A key is an account, its storage root, one of its storage entries, its code root or one of its
  code entries, in the native or the EVM space. The raw bytes are the address, the prefix
  `data` or `code` and the rest, with `0x81` after the address in the EVM space. The delta MPT
  bytes put a 12-byte hash of the padding and the address in front of the address, and a 28-byte
  hash of the padding and the storage key in front of a storage key; the EVM byte goes after the
  32-byte address part. `keccak` is a parameter: nothing below depends on what it computes.

  Panics are `none`: a slice out of range, a `copy_from_slice` of the wrong length, an
  `assert_eq!`, and the `unreachable!` (`unreachable_unchecked` in a release build) of a key
  format the decoder does not know.

  Main results:
  * `fromKeyBytes_toKeyBytes`: with the input check, `from_key_bytes` reads back every key of a
    20-byte address, a non-empty storage key and a 32-byte code hash.
  * `fromDeltaMptKey_toDeltaMptKeyBytes`: `from_delta_mpt_key` reads back every such key, an
    empty storage key too, whatever the padding and the hash.
-/
import Mathlib

namespace Mazze.Primitives

/-! ## The model -/

/-- `Space`. -/
inductive Space where
  | native
  | ethereum
  deriving DecidableEq, Repr

/-- `StorageKey`. -/
inductive StorageKey where
  | accountKey (addressBytes : List UInt8)
  | storageRootKey (addressBytes : List UInt8)
  | storageKey (addressBytes storageKey : List UInt8)
  | codeRootKey (addressBytes : List UInt8)
  | codeKey (addressBytes codeHashBytes : List UInt8)
  deriving DecidableEq, Repr

/-- `StorageKeyWithSpace`. -/
structure StorageKeyWithSpace where
  key : StorageKey
  space : Space
  deriving DecidableEq, Repr

/-- `DeltaMptKeyPadding`. -/
abbrev DeltaMptKeyPadding := Vector UInt8 32

namespace StorageKeyWithSpace

def accountBytes : Nat := 20

def codeHashBytes : Nat := 32

/-- `b"code"`. -/
def codeHashPrefix : List UInt8 := [0x63, 0x6f, 0x64, 0x65]

def codeHashPrefixLen : Nat := 4

/-- `b"\x81"`. -/
def evmSpaceType : List UInt8 := [0x81]

/-- `b"data"`. -/
def storagePrefix : List UInt8 := [0x64, 0x61, 0x74, 0x61]

def storagePrefixLen : Nat := 4

end StorageKeyWithSpace

namespace DeltaMptStorageKey

def accountKeypartBytes : Nat := 32

def accountPaddingBytes : Nat := 12

def keyPaddingBytes : Nat := 32

end DeltaMptStorageKey

open StorageKeyWithSpace DeltaMptStorageKey

/-- `{:?}` of a byte slice: `[1, 2, 3]`. -/
def debugBytes (xs : List UInt8) : String :=
  "[" ++ ", ".intercalate (xs.map fun x => toString x.toNat) ++ "]"

/-- Insert the EVM space byte at `pos`: `[&key_bytes[..pos], EVM_SPACE_TYPE,
    &key_bytes[pos..]].concat()`, which panics when the key is shorter than `pos`. -/
def insertEvmSpaceType (pos : Nat) (keyBytes : List UInt8) : Option (List UInt8) :=
  if keyBytes.length < pos then none
  else some (keyBytes.take pos ++ evmSpaceType ++ keyBytes.drop pos)

/-- The `key_bytes` of `to_key_bytes`, before the space is put in. -/
def StorageKey.toKeyBytesNoSpace : StorageKey → List UInt8
  | .accountKey addressBytes => addressBytes
  | .storageRootKey addressBytes => addressBytes ++ storagePrefix
  | .storageKey addressBytes storageKeyBytes => addressBytes ++ storagePrefix ++ storageKeyBytes
  | .codeRootKey addressBytes => addressBytes ++ codeHashPrefix
  | .codeKey addressBytes codeHashBytes => addressBytes ++ codeHashPrefix ++ codeHashBytes

namespace StorageKeyWithSpace

/-- `to_key_bytes`. -/
def toKeyBytes (k : StorageKeyWithSpace) : Option (List UInt8) :=
  let keyBytes := k.key.toKeyBytesNoSpace
  if k.space = .native then some keyBytes else insertEvmSpaceType accountBytes keyBytes

/-- The key that the bytes after the address and the extension byte stand for in
    `from_key_bytes`: a storage entry or root after `data`, a code entry or root after `code`. -/
def keyOfPrefixed (addressBytes bytes : List UInt8) : Option StorageKey :=
  if storagePrefix.isPrefixOf bytes then
    let bytes := bytes.drop storagePrefixLen
    some (if bytes.length > 0 then .storageKey addressBytes bytes else .storageRootKey addressBytes)
  else if codeHashPrefix.isPrefixOf bytes then
    let bytes := bytes.drop codeHashPrefixLen
    some (if bytes.length > 0 then .codeKey addressBytes bytes else .codeRootKey addressBytes)
  else none

/-- `from_key_bytes::<ShouldCheckInput>`: `CheckInput` reports a wrong extension byte and an
    unknown key format as errors; `SkipInputCheck` fails the `assert_eq!` on the first and reaches
    `unreachable!` on the second. -/
def fromKeyBytes (shouldCheckInput : Bool) (bytes : List UInt8) :
    Option (Except String StorageKeyWithSpace) :=
  if bytes.length ≤ accountBytes then some (.ok ⟨.accountKey bytes, .native⟩)
  else if bytes.length = accountBytes + 1 then
    some (.ok ⟨.accountKey (bytes.take accountBytes), .ethereum⟩)
  else
    let addressBytes := bytes.take accountBytes
    let extensionByte := bytes.getD accountBytes 0
    let extensionBit := extensionByte &&& 0x80 != 0
    if extensionBit ∧ extensionByte ≠ 0x81 then
      if shouldCheckInput then
        some (.error ("Unexpected extension byte: " ++ toString extensionByte.toNat))
      else none
    else
      let bytes := bytes.drop (if extensionBit then accountBytes + 1 else accountBytes)
      match keyOfPrefixed addressBytes bytes with
      | some storageKeyNoSpace =>
        some (.ok ⟨storageKeyNoSpace, if extensionBit then .ethereum else .native⟩)
      | none =>
        if shouldCheckInput then
          some (.error ("Unable to parse storage key: " ++ debugBytes addressBytes ++ " - " ++
            debugBytes bytes))
        else none

end StorageKeyWithSpace

/-! ### Delta MPT keys -/

namespace DeltaMptStorageKey

variable (keccak : List UInt8 → Vector UInt8 32)

/-- `compute_address_keypart`: the first 12 bytes of the hash of the padding's first 12 bytes
    and the address, then the address. The copy panics unless the address has 20 bytes. -/
def computeAddressKeypart (address : List UInt8) (padding : DeltaMptKeyPadding) :
    Option (List UInt8) :=
  if address.length ≠ accountKeypartBytes - accountPaddingBytes then none
  else
    let padded := padding.toList.take accountPaddingBytes ++ address
    some ((keccak padded).toList.take accountPaddingBytes ++ address)

/-- `compute_storage_key_padding`. -/
def computeStorageKeyPadding (storageKey : List UInt8) (padding : DeltaMptKeyPadding) :
    DeltaMptKeyPadding :=
  keccak (padding.toList ++ storageKey)

/-- `extend_key_with_prefix` on an empty key: the address part, then the prefix. -/
def keyWithPrefix (address : List UInt8) (padding : DeltaMptKeyPadding) (pre : List UInt8) :
    Option (List UInt8) :=
  (computeAddressKeypart keccak address padding).map (· ++ pre)

def newAccountKey (address : List UInt8) (padding : DeltaMptKeyPadding) : Option (List UInt8) :=
  computeAddressKeypart keccak address padding

def newStorageRootKey (address : List UInt8) (padding : DeltaMptKeyPadding) :
    Option (List UInt8) :=
  keyWithPrefix keccak address padding storagePrefix

/-- `new_storage_key`: the storage root key, the last 28 bytes of the storage key's padding, then
    the storage key (`extend_storage_key`). -/
def newStorageKey (address storageKey : List UInt8) (padding : DeltaMptKeyPadding) :
    Option (List UInt8) :=
  (keyWithPrefix keccak address padding storagePrefix).map fun key =>
    key ++ (computeStorageKeyPadding keccak storageKey padding).toList.drop storagePrefixLen ++
      storageKey

def newCodeRootKey (address : List UInt8) (padding : DeltaMptKeyPadding) : Option (List UInt8) :=
  keyWithPrefix keccak address padding codeHashPrefix

def newCodeKey (address codeHash : List UInt8) (padding : DeltaMptKeyPadding) :
    Option (List UInt8) :=
  (keyWithPrefix keccak address padding codeHashPrefix).map (· ++ codeHash)

end DeltaMptStorageKey

/-- The `key_bytes` of `to_delta_mpt_key_bytes`, before the space is put in. An account key of
    another length than 20 bytes is `unreachable_unchecked` outside the
    `test_no_account_length_check` feature. -/
def StorageKey.toDeltaMptKeyBytesNoSpace (keccak : List UInt8 → Vector UInt8 32)
    (padding : DeltaMptKeyPadding) : StorageKey → Option (List UInt8)
  | .accountKey addressBytes =>
    if addressBytes.length = accountBytes then newAccountKey keccak addressBytes padding else none
  | .storageRootKey addressBytes => newStorageRootKey keccak addressBytes padding
  | .storageKey addressBytes storageKeyBytes =>
    newStorageKey keccak addressBytes storageKeyBytes padding
  | .codeRootKey addressBytes => newCodeRootKey keccak addressBytes padding
  | .codeKey addressBytes codeHashBytes => newCodeKey keccak addressBytes codeHashBytes padding

namespace StorageKeyWithSpace

/-- `to_delta_mpt_key_bytes`. -/
def toDeltaMptKeyBytes (keccak : List UInt8 → Vector UInt8 32) (k : StorageKeyWithSpace)
    (padding : DeltaMptKeyPadding) : Option (List UInt8) := do
  let keyBytes ← k.key.toDeltaMptKeyBytesNoSpace keccak padding
  if k.space = .native then some keyBytes else insertEvmSpaceType accountKeypartBytes keyBytes

/-- The key that the bytes after the address part and the extension byte stand for in
    `from_delta_mpt_key`: a storage root after `data` alone, a storage entry after `data` and the
    rest of the 32-byte padding (a shorter padding panics), a code entry or root after `code`. -/
def keyOfDeltaRemaining (addressBytes remainingBytes : List UInt8) : Option StorageKey :=
  if storagePrefix.isPrefixOf remainingBytes then
    if remainingBytes.length = storagePrefixLen then some (.storageRootKey addressBytes)
    else if remainingBytes.length < keyPaddingBytes then none
    else some (.storageKey addressBytes (remainingBytes.drop keyPaddingBytes))
  else if codeHashPrefix.isPrefixOf remainingBytes then
    let bytes := remainingBytes.drop codeHashPrefixLen
    some (if bytes.length > 0 then .codeKey addressBytes bytes else .codeRootKey addressBytes)
  else none

/-- `from_delta_mpt_key`. A key shorter than the address part, a wrong extension byte and an
    unknown format panic. -/
def fromDeltaMptKey (deltaMptKey : List UInt8) : Option StorageKeyWithSpace :=
  let remainingBytes := deltaMptKey
  let bytesLen := remainingBytes.length
  if bytesLen < accountKeypartBytes then none
  else
    let addressBytes :=
      (remainingBytes.take accountKeypartBytes).drop accountPaddingBytes
    if bytesLen = accountKeypartBytes then some ⟨.accountKey addressBytes, .native⟩
    else if bytesLen = accountKeypartBytes + 1 then some ⟨.accountKey addressBytes, .ethereum⟩
    else
      let extensionByte := remainingBytes.getD accountKeypartBytes 0
      let extensionBit := extensionByte &&& 0x80 != 0
      if extensionBit ∧ extensionByte ≠ 0x81 then none
      else
        let remainingBytes :=
          remainingBytes.drop (if extensionBit then accountKeypartBytes + 1 else accountKeypartBytes)
        (keyOfDeltaRemaining addressBytes remainingBytes).map fun storageKeyNoSpace =>
          ⟨storageKeyNoSpace, if extensionBit then .ethereum else .native⟩

end StorageKeyWithSpace

/-! ## The keys the codecs are for -/

namespace StorageKey

/-- A key of a 20-byte address, with a 32-byte code hash. -/
def OfAddress : StorageKey → Prop
  | .accountKey addressBytes => addressBytes.length = 20
  | .storageRootKey addressBytes => addressBytes.length = 20
  | .storageKey addressBytes _ => addressBytes.length = 20
  | .codeRootKey addressBytes => addressBytes.length = 20
  | .codeKey addressBytes codeHashBytes => addressBytes.length = 20 ∧ codeHashBytes.length = 32

/-- The storage key of a storage entry is not empty: raw key bytes cannot tell an empty one from
    the storage root. -/
def HasStorageKey : StorageKey → Prop
  | .storageKey _ storageKeyBytes => storageKeyBytes ≠ []
  | _ => True

end StorageKey

/-! ## Raw key bytes -/

theorem insertEvmSpaceType_append {pos : Nat} {a : List UInt8} (ha : a.length = pos)
    (rest : List UInt8) : insertEvmSpaceType pos (a ++ rest) = some (a ++ 0x81 :: rest) := by
  simp [insertEvmSpaceType, ha, evmSpaceType]

namespace StorageKeyWithSpace

/-- In the native space `from_key_bytes` reads the key after the address from the bytes, when
    the byte after the address has its high bit clear. -/
theorem fromKeyBytes_native {c : Bool} {a rest : List UInt8} {b : UInt8} {key : StorageKey}
    (ha : a.length = accountBytes) (hb : b &&& 0x80 = 0) (hrest : 1 ≤ rest.length)
    (hk : keyOfPrefixed a (b :: rest) = some key) :
    fromKeyBytes c (a ++ b :: rest) = some (.ok ⟨key, .native⟩) := by
  have hlen : (a ++ b :: rest).length = accountBytes + 1 + rest.length := by simp [ha]; omega
  have hget : (a ++ b :: rest).getD accountBytes 0 = b := by
    rw [← ha, List.getD_eq_getElem?_getD, List.getElem?_append_right (Nat.le_refl _)]
    simp
  unfold fromKeyBytes
  rw [if_neg (by omega), if_neg (by omega)]
  simp only [List.take_left' ha, hget, hb, bne_self_eq_false, Bool.false_eq_true, false_and,
    if_false, List.drop_left' ha, hk]

/-- In the EVM space `from_key_bytes` reads the key after the address and the byte `0x81`. -/
theorem fromKeyBytes_ethereum {c : Bool} {a rest : List UInt8} {key : StorageKey}
    (ha : a.length = accountBytes) (hrest : 1 ≤ rest.length)
    (hk : keyOfPrefixed a rest = some key) :
    fromKeyBytes c (a ++ 0x81 :: rest) = some (.ok ⟨key, .ethereum⟩) := by
  have hlen : (a ++ 0x81 :: rest).length = accountBytes + 1 + rest.length := by simp [ha]; omega
  have hget : (a ++ 0x81 :: rest).getD accountBytes 0 = 0x81 := by
    rw [← ha, List.getD_eq_getElem?_getD, List.getElem?_append_right (Nat.le_refl _)]
    simp
  have hdrop : (a ++ 0x81 :: rest).drop (accountBytes + 1) = rest := by
    rw [← ha, List.drop_append]
    simp
  have hbit : ((0x81 : UInt8) &&& 0x80 != 0) = true := by decide
  unfold fromKeyBytes
  rw [if_neg (by omega), if_neg (by omega)]
  simp only [List.take_left' ha, hget, hbit, ne_eq, not_true_eq_false, and_false, if_false,
    if_true, hdrop, hk]

/-- Every key of an address but an account's is the address, then a byte with its high bit
    clear (`d` or `c`) and at least one more, which `keyOfPrefixed` reads back as the key. -/
theorem toKeyBytesNoSpace_split {key : StorageKey} (hk : key.OfAddress)
    (hs : key.HasStorageKey) (hacc : ∀ a, key ≠ .accountKey a) :
    ∃ a b rest, key.toKeyBytesNoSpace = a ++ b :: rest ∧ a.length = accountBytes ∧
      b &&& 0x80 = 0 ∧ 1 ≤ rest.length ∧ keyOfPrefixed a (b :: rest) = some key := by
  cases key with
  | accountKey a => exact absurd rfl (hacc a)
  | storageRootKey a =>
    exact ⟨a, 0x64, [0x61, 0x74, 0x61], rfl, hk, by decide, by decide,
      by simp [keyOfPrefixed, storagePrefix, storagePrefixLen]⟩
  | storageKey a storageKeyBytes =>
    refine ⟨a, 0x64, [0x61, 0x74, 0x61] ++ storageKeyBytes, by simp [StorageKey.toKeyBytesNoSpace,
      storagePrefix], hk, by decide, by simp, ?_⟩
    have hne : 0 < storageKeyBytes.length := List.length_pos_iff.mpr hs
    simp [keyOfPrefixed, storagePrefix, storagePrefixLen, hne]
  | codeRootKey a =>
    exact ⟨a, 0x63, [0x6f, 0x64, 0x65], rfl, hk, by decide, by decide,
      by simp [keyOfPrefixed, storagePrefix, codeHashPrefix, codeHashPrefixLen]⟩
  | codeKey a codeHashBytes =>
    obtain ⟨ha, hh⟩ := hk
    refine ⟨a, 0x63, [0x6f, 0x64, 0x65] ++ codeHashBytes, by simp [StorageKey.toKeyBytesNoSpace,
      codeHashPrefix], ha, by decide, by simp, ?_⟩
    simp [keyOfPrefixed, storagePrefix, codeHashPrefix, codeHashPrefixLen, hh]

/-- With the input check, `from_key_bytes` reads back the raw bytes of every key of a 20-byte
    address, a non-empty storage key and a 32-byte code hash. -/
theorem fromKeyBytes_toKeyBytes {k : StorageKeyWithSpace} (hk : k.key.OfAddress)
    (hs : k.key.HasStorageKey) :
    ∃ bytes, k.toKeyBytes = some bytes ∧ fromKeyBytes true bytes = some (.ok k) := by
  obtain ⟨key, space⟩ := k
  by_cases hacc : ∃ a, key = .accountKey a
  · -- an account key is its address, and `0x81` after it in the EVM space
    obtain ⟨a, rfl⟩ := hacc
    have ha : a.length = accountBytes := hk
    cases space
    · exact ⟨a, rfl, by simp [fromKeyBytes, ha]⟩
    · refine ⟨a ++ [0x81], by simp [toKeyBytes, StorageKey.toKeyBytesNoSpace, insertEvmSpaceType,
        ← ha, evmSpaceType], ?_⟩
      simp [fromKeyBytes, ha, List.take_left' ha]
  · obtain ⟨a, b, rest, hbytes, ha, hb, hrest, hkey⟩ :=
      toKeyBytesNoSpace_split hk hs fun a h => hacc ⟨a, h⟩
    cases space
    · exact ⟨_, by simp [toKeyBytes, hbytes], fromKeyBytes_native ha hb hrest hkey⟩
    · exact ⟨_, by simp [toKeyBytes, hbytes, insertEvmSpaceType_append ha],
        fromKeyBytes_ethereum ha (by simp) hkey⟩

/-- Without the non-empty storage key: the raw bytes of an empty storage entry read back as the
    storage root. -/
example : fromKeyBytes true (StorageKey.storageKey (List.replicate 20 0) []).toKeyBytesNoSpace =
    some (.ok ⟨.storageRootKey (List.replicate 20 0), .native⟩) := by
  rfl

end StorageKeyWithSpace

/-! ## Delta MPT key bytes -/

namespace DeltaMptStorageKey

variable {keccak : List UInt8 → Vector UInt8 32} {padding : DeltaMptKeyPadding}

/-- The address part of a 20-byte address: 12 hash bytes, then the address. -/
theorem computeAddressKeypart_eq {a : List UInt8} (ha : a.length = 20) :
    ∃ kp, computeAddressKeypart keccak a padding = some kp ∧
      kp.length = accountKeypartBytes ∧ kp.drop accountPaddingBytes = a := by
  have hhash : ((keccak (padding.toList.take accountPaddingBytes ++ a)).toList.take
      accountPaddingBytes).length = accountPaddingBytes := by
    simp [accountPaddingBytes]
  refine ⟨_, by simp [computeAddressKeypart, ha, accountKeypartBytes, accountPaddingBytes], ?_,
    List.drop_left' hhash⟩
  simp only [List.length_append, hhash, ha]
  rfl

/-- A key of an address but an account's, in the delta MPT: the address part, then a byte with
    its high bit clear (`d` or `c`) and at least one more, which `keyOfDeltaRemaining` reads back
    as the key. -/
theorem toDeltaMptKeyBytesNoSpace_split {key : StorageKey} (hk : key.OfAddress)
    (hacc : ∀ a, key ≠ .accountKey a) :
    ∃ kp b rest, key.toDeltaMptKeyBytesNoSpace keccak padding = some (kp ++ b :: rest) ∧
      kp.length = accountKeypartBytes ∧ b &&& 0x80 = 0 ∧ 1 ≤ rest.length ∧
      StorageKeyWithSpace.keyOfDeltaRemaining (kp.drop accountPaddingBytes) (b :: rest) =
        some key := by
  cases key with
  | accountKey a => exact absurd rfl (hacc a)
  | storageRootKey a =>
    obtain ⟨kp, hkp, hlen, hdrop⟩ := @computeAddressKeypart_eq keccak padding _ hk
    refine ⟨kp, 0x64, [0x61, 0x74, 0x61], by simp [StorageKey.toDeltaMptKeyBytesNoSpace,
      newStorageRootKey, keyWithPrefix, hkp, storagePrefix], hlen, by decide, by decide, ?_⟩
    simp [StorageKeyWithSpace.keyOfDeltaRemaining, hdrop, storagePrefix, storagePrefixLen]
  | storageKey a storageKeyBytes =>
    obtain ⟨kp, hkp, hlen, hdrop⟩ := @computeAddressKeypart_eq keccak padding _ hk
    -- `data`, the last 28 bytes of the storage key's padding, then the storage key
    set pad := (computeStorageKeyPadding keccak storageKeyBytes padding).toList.drop
      storagePrefixLen
    refine ⟨kp, 0x64, [0x61, 0x74, 0x61] ++ pad ++ storageKeyBytes,
      by simp [StorageKey.toDeltaMptKeyBytesNoSpace, newStorageKey, keyWithPrefix, hkp,
        storagePrefix, pad], hlen, by decide, by simp, ?_⟩
    have hdrop32 : (0x64 :: ([0x61, 0x74, 0x61] ++ pad ++ storageKeyBytes)).drop keyPaddingBytes =
        storageKeyBytes := by
      rw [← List.cons_append]
      exact List.drop_left' (by simp [keyPaddingBytes, pad, storagePrefixLen])
    simp only [StorageKeyWithSpace.keyOfDeltaRemaining, hdrop, hdrop32]
    simp [storagePrefix, storagePrefixLen, keyPaddingBytes, pad]
  | codeRootKey a =>
    obtain ⟨kp, hkp, hlen, hdrop⟩ := @computeAddressKeypart_eq keccak padding _ hk
    refine ⟨kp, 0x63, [0x6f, 0x64, 0x65], by simp [StorageKey.toDeltaMptKeyBytesNoSpace,
      newCodeRootKey, keyWithPrefix, hkp, codeHashPrefix], hlen, by decide, by decide, ?_⟩
    simp [StorageKeyWithSpace.keyOfDeltaRemaining, hdrop, storagePrefix, codeHashPrefix,
      codeHashPrefixLen]
  | codeKey a codeHashBytes =>
    obtain ⟨ha, hh⟩ := hk
    obtain ⟨kp, hkp, hlen, hdrop⟩ := @computeAddressKeypart_eq keccak padding _ ha
    refine ⟨kp, 0x63, [0x6f, 0x64, 0x65] ++ codeHashBytes,
      by simp [StorageKey.toDeltaMptKeyBytesNoSpace, newCodeKey, keyWithPrefix, hkp,
        codeHashPrefix], hlen, by decide, by simp, ?_⟩
    simp [StorageKeyWithSpace.keyOfDeltaRemaining, hdrop, storagePrefix, codeHashPrefix,
      codeHashPrefixLen, hh]

end DeltaMptStorageKey

namespace StorageKeyWithSpace

section Delta

variable {kp rest : List UInt8} {key : StorageKey}

/-- An address part alone is a native account key. -/
theorem fromDeltaMptKey_account_native (hkp : kp.length = accountKeypartBytes) :
    fromDeltaMptKey kp = some ⟨.accountKey (kp.drop accountPaddingBytes), .native⟩ := by
  unfold fromDeltaMptKey
  rw [if_neg (by omega), List.take_of_length_le (by omega), if_pos hkp]

/-- An address part and the EVM byte is an EVM account key. -/
theorem fromDeltaMptKey_account_ethereum (hkp : kp.length = accountKeypartBytes) :
    fromDeltaMptKey (kp ++ [0x81]) =
      some ⟨.accountKey (kp.drop accountPaddingBytes), .ethereum⟩ := by
  have hlen : (kp ++ [0x81]).length = accountKeypartBytes + 1 := by simp [hkp]
  unfold fromDeltaMptKey
  rw [if_neg (by omega), if_neg (by omega), if_pos hlen, ← hkp, List.take_left]

/-- In the native space `from_delta_mpt_key` reads the key after the address part, when the
    byte after it has its high bit clear. -/
theorem fromDeltaMptKey_native {b : UInt8} (hkp : kp.length = accountKeypartBytes)
    (hb : b &&& 0x80 = 0) (hrest : 1 ≤ rest.length)
    (hk : keyOfDeltaRemaining (kp.drop accountPaddingBytes) (b :: rest) = some key) :
    fromDeltaMptKey (kp ++ b :: rest) = some ⟨key, .native⟩ := by
  have hlen : (kp ++ b :: rest).length = accountKeypartBytes + 1 + rest.length := by
    simp [hkp]
    omega
  have hget : (kp ++ b :: rest).getD accountKeypartBytes 0 = b := by
    rw [← hkp, List.getD_eq_getElem?_getD, List.getElem?_append_right (Nat.le_refl _)]
    simp
  unfold fromDeltaMptKey
  rw [if_neg (by omega), if_neg (by omega), if_neg (by omega)]
  simp only [List.take_left' hkp, hget, hb, bne_self_eq_false, Bool.false_eq_true, false_and,
    if_false, List.drop_left' hkp, hk, Option.map_some]

/-- In the EVM space `from_delta_mpt_key` reads the key after the address part and `0x81`. -/
theorem fromDeltaMptKey_ethereum (hkp : kp.length = accountKeypartBytes) (hrest : 1 ≤ rest.length)
    (hk : keyOfDeltaRemaining (kp.drop accountPaddingBytes) rest = some key) :
    fromDeltaMptKey (kp ++ 0x81 :: rest) = some ⟨key, .ethereum⟩ := by
  have hlen : (kp ++ 0x81 :: rest).length = accountKeypartBytes + 1 + rest.length := by
    simp [hkp]
    omega
  have hget : (kp ++ 0x81 :: rest).getD accountKeypartBytes 0 = 0x81 := by
    rw [← hkp, List.getD_eq_getElem?_getD, List.getElem?_append_right (Nat.le_refl _)]
    simp
  have hdrop : (kp ++ 0x81 :: rest).drop (accountKeypartBytes + 1) = rest := by
    rw [← hkp, List.drop_append]
    simp
  have hbit : ((0x81 : UInt8) &&& 0x80 != 0) = true := by decide
  unfold fromDeltaMptKey
  rw [if_neg (by omega), if_neg (by omega), if_neg (by omega)]
  simp only [List.take_left' hkp, hget, hbit, ne_eq, not_true_eq_false, and_false, if_false,
    if_true, hdrop, hk, Option.map_some]

end Delta

/-- `from_delta_mpt_key` reads back the delta MPT bytes of every key of a 20-byte address and a
    32-byte code hash, an empty storage key too, whatever the padding and the hash. -/
theorem fromDeltaMptKey_toDeltaMptKeyBytes (keccak : List UInt8 → Vector UInt8 32)
    (padding : DeltaMptKeyPadding) {k : StorageKeyWithSpace} (hk : k.key.OfAddress) :
    ∃ bytes, k.toDeltaMptKeyBytes keccak padding = some bytes ∧ fromDeltaMptKey bytes = some k := by
  obtain ⟨key, space⟩ := k
  by_cases hacc : ∃ a, key = .accountKey a
  · -- an account key is its address part, and `0x81` after it in the EVM space
    obtain ⟨a, rfl⟩ := hacc
    have ha : a.length = 20 := hk
    obtain ⟨kp, hkp, hlen, hdrop⟩ := @computeAddressKeypart_eq keccak padding _ ha
    have hbytes : (StorageKey.accountKey a).toDeltaMptKeyBytesNoSpace keccak padding = some kp := by
      simp [StorageKey.toDeltaMptKeyBytesNoSpace, ha, accountBytes, newAccountKey, hkp]
    cases space
    · refine ⟨kp, by simp [toDeltaMptKeyBytes, hbytes], ?_⟩
      rw [fromDeltaMptKey_account_native hlen, hdrop]
    · refine ⟨kp ++ [0x81], ?_, ?_⟩
      · simp [toDeltaMptKeyBytes, hbytes, insertEvmSpaceType, ← hlen, evmSpaceType]
      · rw [fromDeltaMptKey_account_ethereum hlen, hdrop]
  · obtain ⟨kp, b, rest, hbytes, hlen, hb, hrest, hkey⟩ :=
      @DeltaMptStorageKey.toDeltaMptKeyBytesNoSpace_split keccak padding _ hk
        fun a h => hacc ⟨a, h⟩
    cases space
    · exact ⟨_, by simp [toDeltaMptKeyBytes, hbytes], fromDeltaMptKey_native hlen hb hrest hkey⟩
    · exact ⟨_, by simp [toDeltaMptKeyBytes, hbytes, insertEvmSpaceType_append hlen],
        fromDeltaMptKey_ethereum hlen (by simp) hkey⟩

/-! ## Both codecs -/

/-- An encoder whose output a decoder reads back is injective on the inputs it does that for. -/
theorem eq_of_decode_encode {α β γ : Type} {enc : α → Option β} {dec : β → Option γ}
    {wrap : α → γ} (hw : Function.Injective wrap) {P : α → Prop}
    (h : ∀ a, P a → ∃ b, enc a = some b ∧ dec b = some (wrap a)) {a₁ a₂ : α} (h₁ : P a₁)
    (h₂ : P a₂) (he : enc a₁ = enc a₂) : a₁ = a₂ := by
  obtain ⟨b₁, he₁, hd₁⟩ := h a₁ h₁
  obtain ⟨b₂, he₂, hd₂⟩ := h a₂ h₂
  have hb : b₁ = b₂ := Option.some.inj (he₁ ▸ he₂ ▸ he)
  rw [hb, hd₂, Option.some.injEq] at hd₁
  exact hw hd₁.symm

/-- Both storage key codecs read back what they write, so that both encodings are injective on
    the keys they are for: the raw key bytes on the keys of a 20-byte address, a non-empty
    storage key and a 32-byte code hash, the delta MPT key bytes on those and on empty storage
    keys, for every padding and every hash. -/
theorem storageKey_codecs_roundtrip (keccak : List UInt8 → Vector UInt8 32)
    (padding : DeltaMptKeyPadding) :
    (∀ k : StorageKeyWithSpace, k.key.OfAddress → k.key.HasStorageKey →
      ∃ bytes, k.toKeyBytes = some bytes ∧ fromKeyBytes true bytes = some (.ok k)) ∧
    (∀ k : StorageKeyWithSpace, k.key.OfAddress →
      ∃ bytes, k.toDeltaMptKeyBytes keccak padding = some bytes ∧
        fromDeltaMptKey bytes = some k) ∧
    (∀ k₁ k₂ : StorageKeyWithSpace, k₁.key.OfAddress → k₁.key.HasStorageKey →
      k₂.key.OfAddress → k₂.key.HasStorageKey → k₁.toKeyBytes = k₂.toKeyBytes → k₁ = k₂) ∧
    (∀ k₁ k₂ : StorageKeyWithSpace, k₁.key.OfAddress → k₂.key.OfAddress →
      k₁.toDeltaMptKeyBytes keccak padding = k₂.toDeltaMptKeyBytes keccak padding →
        k₁ = k₂) := by
  have hraw : ∀ k : StorageKeyWithSpace, k.key.OfAddress ∧ k.key.HasStorageKey →
      ∃ bytes, k.toKeyBytes = some bytes ∧ fromKeyBytes true bytes = some (.ok k) :=
    fun k hk => fromKeyBytes_toKeyBytes hk.1 hk.2
  have hdelta : ∀ k : StorageKeyWithSpace, k.key.OfAddress →
      ∃ bytes, k.toDeltaMptKeyBytes keccak padding = some bytes ∧
        fromDeltaMptKey bytes = some k :=
    fun k hk => fromDeltaMptKey_toDeltaMptKeyBytes keccak padding hk
  refine ⟨fun k hk hs => hraw k ⟨hk, hs⟩, hdelta, ?_, ?_⟩
  · intro k₁ k₂ hk₁ hs₁ hk₂ hs₂ he
    exact eq_of_decode_encode (fun _ _ h => Except.ok.inj h) hraw ⟨hk₁, hs₁⟩ ⟨hk₂, hs₂⟩ he
  · intro k₁ k₂ hk₁ hk₂ he
    exact eq_of_decode_encode Function.injective_id hdelta hk₁ hk₂ he

/-- A storage entry of the `ethereum` space with a one-byte key. -/
def evmStorageKey : StorageKeyWithSpace := ⟨.storageKey (List.replicate 20 1) [0x2a], .ethereum⟩

/-- The code of a `native` account. -/
def nativeCodeKey : StorageKeyWithSpace :=
  ⟨.codeKey (List.replicate 20 2) (List.replicate 32 3), .native⟩

theorem storageKey_codecs_roundtrip_at_evmStorageKey :
    (∃ bytes, evmStorageKey.toKeyBytes = some bytes ∧
      fromKeyBytes true bytes = some (.ok evmStorageKey)) ∧
    (∃ bytes, nativeCodeKey.toKeyBytes = some bytes ∧
      fromKeyBytes true bytes = some (.ok nativeCodeKey)) ∧
    (∃ bytes, evmStorageKey.toDeltaMptKeyBytes (fun _ => Vector.replicate 32 0)
        (Vector.replicate 32 0) = some bytes ∧ fromDeltaMptKey bytes = some evmStorageKey) ∧
    (∃ bytes, nativeCodeKey.toDeltaMptKeyBytes (fun _ => Vector.replicate 32 0)
        (Vector.replicate 32 0) = some bytes ∧ fromDeltaMptKey bytes = some nativeCodeKey) ∧
    evmStorageKey.toKeyBytes ≠ nativeCodeKey.toKeyBytes ∧
    evmStorageKey.toDeltaMptKeyBytes (fun _ => Vector.replicate 32 0) (Vector.replicate 32 0) ≠
      nativeCodeKey.toDeltaMptKeyBytes (fun _ => Vector.replicate 32 0) (Vector.replicate 32 0) := by
  obtain ⟨hraw, hdelta, hrawInj, hdeltaInj⟩ :=
    storageKey_codecs_roundtrip (fun _ => Vector.replicate 32 0) (Vector.replicate 32 0)
  have he : evmStorageKey.key.OfAddress := by simp [evmStorageKey, StorageKey.OfAddress]
  have hes : evmStorageKey.key.HasStorageKey := by simp [evmStorageKey, StorageKey.HasStorageKey]
  have hc : nativeCodeKey.key.OfAddress := by simp [nativeCodeKey, StorageKey.OfAddress]
  have hcs : nativeCodeKey.key.HasStorageKey := by simp [nativeCodeKey, StorageKey.HasStorageKey]
  have hne : evmStorageKey ≠ nativeCodeKey := by decide
  exact ⟨hraw _ he hes, hraw _ hc hcs, hdelta _ he, hdelta _ hc,
    fun h => hne (hrawInj _ _ he hes hc hcs h), fun h => hne (hdeltaInj _ _ he hc h)⟩

end StorageKeyWithSpace

end Mazze.Primitives
