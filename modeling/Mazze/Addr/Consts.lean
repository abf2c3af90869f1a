/-
  The constants, networks, address types and errors of base32 addresses
  (`mazze_addr/src/consts.rs`, `errors.rs`, the tables of `lib.rs`).

  Model. A Rust `&str` or `String` is its list of characters. `format!("net{}", id)` writes the
  decimal digits of the `u64` (`decimal`), and `str::parse::<u64>` reads an optional `+` and one
  or more decimal digits within `u64` (`parseU64`). `CHARSET` is the alphabet without `o`, `i`,
  `l`, `q`; `CHAR_INDEX` is the table of 128 entries `lib.rs` builds from it, lower and upper
  case. The type byte of an address is its first byte; `from_address` reads it from a byte
  slice or an `H160`, both of which are here the address's bytes.

  What is proved: `CHAR_INDEX` inverts `CHARSET` (`charIndex_charset`); `parseU64` reads back
  what `decimal` writes for every `u64` (`parseU64_decimal`), so `from_prefix` inverts
  `to_prefix` on every network it accepts (`fromPrefix_toPrefix`); `parse` inverts `to_str`.
-/
import Mathlib

namespace Mazze.Addr

/-- `BASE32_CHARS`. -/
def base32Chars : List Char := "abcdefghijklmnopqrstuvwxyz0123456789".toList

/-- `EXCLUDE_CHARS`. -/
def excludeChars : List Char := ['o', 'i', 'l', 'q']

/-- `CHARSET`: `BASE32_CHARS` with `EXCLUDE_CHARS` removed. -/
def charset : List Char := base32Chars.filter fun c => c ∉ excludeChars

/-- `CHAR_INDEX`: for every character of `CHARSET`, its index, at its code and at the code of its
    upper case. -/
def charIndex : List (Option UInt8) :=
  (List.range 32).foldl (fun index i =>
    let c := (charset.getD i 'a').toNat
    let index := index.set c (some i.toUInt8)
    let u := (Char.ofNat c).toUpper.toNat
    if u ≠ c then index.set u (some i.toUInt8) else index) (List.replicate 128 none)

/-- `consts::SIZE_MASK`. -/
def sizeMask : UInt8 := 0x07

/-- `consts::RESERVED_BITS_MASK`. -/
def reservedBitsMask : UInt8 := 0xf8

/-- `Network`. -/
inductive Network where
  | main
  | test
  | id (networkId : UInt64)
  deriving DecidableEq, Repr

/-- `MAINNET_PREFIX`. -/
def mainnetPrefix : List Char := "mazze".toList

/-- `TESTNET_PREFIX`. -/
def testnetPrefix : List Char := "mazzetest".toList

/-- `NETWORK_ID_PREFIX`. -/
def networkIdPrefix : List Char := "net".toList

/-- `RESERVED_NETWORK_IDS`. -/
def reservedNetworkIds : List UInt64 := [1, 1990]

/-- `AddressType`. -/
inductive AddressType where
  | builtin
  | contract
  | null
  | user
  | unknown
  deriving DecidableEq, Repr

/-- `EncodingError`. -/
inductive EncodingError where
  | invalidAddressType (typeByte : UInt8)
  | invalidLength (length : Nat)
  | invalidNetworkId (networkId : UInt64)
  deriving DecidableEq, Repr

/-- `OptionError`; `got` of a mismatch is `Result<AddressType, ()>`. -/
inductive OptionError where
  | parseError (option : List Char)
  | addressTypeMismatch (expected : AddressType) (got : Option AddressType)
  | invalidAddressType (option : List Char)
  deriving DecidableEq, Repr

/-- `DecodingError`. -/
inductive DecodingError where
  | invalidLength (length : Nat)
  | noPrefix
  | invalidPrefix (addrPrefix : List Char)
  | invalidOption (error : OptionError)
  | checksumFailed (checksum : UInt64)
  | invalidChar (c : Char)
  | invalidPadding (fromBits paddingBits : UInt8) (padding : UInt16)
  | versionNotRecognized (version : UInt8)
  | mixedCase
  deriving DecidableEq, Repr

/-- `format!("{}", n)` of a `u64`: its decimal digits, most significant first. -/
def decimal (n : Nat) : List Char :=
  if n = 0 then ['0'] else (Nat.digits 10 n).reverse.map Nat.digitChar

/-- `str::parse::<u64>`: an optional `+`, then one or more decimal digits, within `u64`. -/
def parseU64 (s : List Char) : Option UInt64 :=
  let digits := match s with
    | '+' :: rest => rest
    | _ => s
  if digits = [] then none
  else
    (digits.foldlM (fun (acc : Nat) (c : Char) =>
      if c.isDigit then
        let v := acc * 10 + (c.toNat - '0'.toNat)
        if v < 2 ^ 64 then some v else none
      else none) 0).map UInt64.ofNat

/-! ### `CHARSET` and `CHAR_INDEX` -/

/-- A property of every character of a list, checked with `List.all`: the instance that decides
    `∀ c ∈ l, p c` directly goes through every `Char` there is. -/
theorem forall_mem_of_all {l : List Char} {p : Char → Prop} [DecidablePred p]
    (h : (l.all fun c => decide (p c)) = true) : ∀ c ∈ l, p c :=
  fun c hc => of_decide_eq_true (List.all_eq_true.mp h c hc)

theorem length_charset : charset.length = 32 := by decide

/-- Every character of `CHARSET` is a lower-case letter or a digit. -/
theorem charset_lower : ∀ c ∈ charset, c.isUpper = false ∧ c.toLower = c ∧ c.toUpper.toLower = c ∧
    c ≠ ':' ∧ c ≠ '.' :=
  forall_mem_of_all (by decide)

theorem charIndex_charset_fin :
    ∀ i : Fin 32, (charset[i.val]?.bind fun c => charIndex[c.toNat]?) = some (some i.val.toUInt8) := by
  decide

/-- `CHAR_INDEX` reads every symbol below 32 back from its character in `CHARSET`. -/
theorem charIndex_charset {b : UInt8} (hb : b.toNat < 32) :
    ∃ c, charset[b.toNat]? = some c ∧ charIndex[c.toNat]? = some (some b) := by
  have h := charIndex_charset_fin ⟨b.toNat, hb⟩
  simp only [UInt8.ofNat_toNat, Nat.toUInt8_eq] at h
  obtain ⟨c, hc, hidx⟩ := Option.bind_eq_some_iff.mp h
  exact ⟨c, hc, hidx⟩

/-! ### Decimal network ids -/

theorem digitChar_spec : ∀ d : Fin 10,
    (Nat.digitChar d).isDigit = true ∧ (Nat.digitChar d).toNat - '0'.toNat = d.val ∧
      Nat.digitChar d ≠ '+' := by
  decide

/-- Reading digits from the front multiplies by ten and adds. -/
theorem foldl_reverse_eq_ofDigits (L : List Nat) :
    L.reverse.foldl (fun acc d => acc * 10 + d) 0 = Nat.ofDigits 10 L := by
  induction L with
  | nil => rfl
  | cons d L ih =>
    rw [List.reverse_cons, List.foldl_append, ih, Nat.ofDigits_cons]
    simp only [List.foldl_cons, List.foldl_nil]
    ring

theorem le_foldl_mul_ten_add (L : List Nat) (acc : Nat) :
    acc ≤ L.foldl (fun acc d => acc * 10 + d) acc := by
  induction L generalizing acc with
  | nil => exact le_rfl
  | cons d L ih => exact le_trans (by omega) (ih (acc * 10 + d))

/-- The loop of `parseU64` over digits stops nowhere while the number they spell fits. -/
theorem foldlM_digitChar (L : List Nat) (hL : ∀ d ∈ L, d < 10) :
    ∀ acc : Nat, L.foldl (fun acc d => acc * 10 + d) acc < 2 ^ 64 →
      (L.map Nat.digitChar).foldlM (fun (acc : Nat) (c : Char) =>
        if c.isDigit then
          let v := acc * 10 + (c.toNat - '0'.toNat)
          if v < 2 ^ 64 then some v else none
        else none) acc = some (L.foldl (fun acc d => acc * 10 + d) acc) := by
  induction L with
  | nil => intros; rfl
  | cons d L ih =>
    intro acc hfit
    obtain ⟨hdigit, hval, -⟩ := digitChar_spec ⟨d, hL d (by simp)⟩
    have hv : acc * 10 + d < 2 ^ 64 :=
      lt_of_le_of_lt (le_foldl_mul_ten_add L (acc * 10 + d)) hfit
    simp only [List.map_cons, List.foldlM_cons, List.foldl_cons] at hfit ⊢
    simp only [hdigit, hval, if_true, hv, Option.bind_eq_bind, Option.bind_some]
    exact ih (fun d hd => hL d (.tail _ hd)) _ hfit

/-- `parse::<u64>` reads back what `format!` writes. -/
theorem parseU64_decimal (n : UInt64) : parseU64 (decimal n.toNat) = some n := by
  by_cases hn : n.toNat = 0
  · have h0 : n = 0 := UInt64.toNat_inj.mp hn
    subst h0
    decide
  · have hdig : ∀ d ∈ (Nat.digits 10 n.toNat).reverse, d < 10 :=
      fun d hd => Nat.digits_lt_base (by decide) (List.mem_reverse.mp hd)
    have hval : (Nat.digits 10 n.toNat).reverse.foldl (fun acc d => acc * 10 + d) 0 = n.toNat := by
      rw [foldl_reverse_eq_ofDigits, Nat.ofDigits_digits]
    obtain ⟨d, ds, hds⟩ : ∃ d ds, (Nat.digits 10 n.toNat).reverse = d :: ds :=
      List.exists_cons_of_ne_nil (by simpa using Nat.digits_ne_nil_iff_ne_zero.mpr hn)
    have hplus : Nat.digitChar d ≠ '+' := (digitChar_spec ⟨d, hdig d (by simp [hds])⟩).2.2
    have hfold := foldlM_digitChar _ hdig 0 (by rw [hval]; exact n.toNat_lt)
    rw [hval, hds] at hfold
    simp only [decimal, hn, if_false, parseU64, hds, List.map_cons]
    split
    · rename_i h
      exact absurd (List.cons.inj h).1 hplus
    · simp only [List.map_cons] at hfold
      rw [if_neg (List.cons_ne_nil _ _), hfold, Option.map_some, UInt64.ofNat_toNat]

namespace Network

/-- `Network::to_prefix`. -/
def toPrefix : Network → Except EncodingError (List Char)
  | main => .ok mainnetPrefix
  | test => .ok testnetPrefix
  | id networkId =>
    if networkId ∈ reservedNetworkIds then .error (.invalidNetworkId networkId)
    else .ok (networkIdPrefix ++ decimal networkId.toNat)

/-- `Network::from_prefix`. -/
def fromPrefix (addrPrefix : List Char) : Except DecodingError Network :=
  if addrPrefix = mainnetPrefix then .ok main
  else if addrPrefix = testnetPrefix then .ok test
  else
    let maybeNetworkId :=
      if !networkIdPrefix.isPrefixOf addrPrefix then none
      else match parseU64 (addrPrefix.drop networkIdPrefix.length) with
        | none => none
        | some networkId => if networkId ∈ reservedNetworkIds then none else some networkId
    match maybeNetworkId with
    | none => .error (.invalidPrefix addrPrefix)
    | some networkId => .ok (id networkId)

/-- `from_prefix` reads back every prefix that `to_prefix` writes. -/
theorem fromPrefix_toPrefix {net : Network} {p : List Char} (h : net.toPrefix = .ok p) :
    fromPrefix p = .ok net := by
  cases net with
  | main => cases h; rfl
  | test => cases h; rfl
  | id n =>
    simp only [toPrefix] at h
    split at h
    · cases h
    · rename_i hfree
      cases h
      -- a network id prefix starts with `n`, the two names with `m`
      have hhead : (networkIdPrefix ++ decimal n.toNat).head? = some 'n' := rfl
      have hmain : networkIdPrefix ++ decimal n.toNat ≠ mainnetPrefix := fun h => by
        rw [h] at hhead
        exact absurd hhead (by decide)
      have htest : networkIdPrefix ++ decimal n.toNat ≠ testnetPrefix := fun h => by
        rw [h] at hhead
        exact absurd hhead (by decide)
      have hpre : networkIdPrefix.isPrefixOf (networkIdPrefix ++ decimal n.toNat) = true :=
        List.isPrefixOf_iff_prefix.mpr (List.prefix_append _ _)
      simp [fromPrefix, hmain, htest, hpre, parseU64_decimal, hfree]

end Network

namespace AddressType

/-- `AddressType::parse`: an unknown name is `Unknown`. -/
def parse (text : List Char) : AddressType :=
  if text = "builtin".toList then builtin
  else if text = "contract".toList then contract
  else if text = "null".toList then null
  else if text = "user".toList then user
  else unknown

/-- `AddressType::to_str`. -/
def toStr : AddressType → List Char
  | builtin => "builtin".toList
  | contract => "contract".toList
  | null => "null".toList
  | user => "user".toList
  | unknown => "unknown".toList

/-- `AddressType::from_address`: the type bits are the high half of the first byte (an index out
    of range of an empty slice panics). -/
def fromAddress (address : List UInt8) : Option AddressType := do
  let typeByte ← address[0]?
  let typeBits := typeByte &&& 0xf0
  some (if typeBits = 0x00 then (if address.all (· == 0) then null else builtin)
    else if typeBits = 0x80 then contract
    else if typeBits = 0x10 then user
    else unknown)

theorem parse_toStr (t : AddressType) : parse t.toStr = t := by
  cases t <;> decide

end AddressType

end Mazze.Addr
