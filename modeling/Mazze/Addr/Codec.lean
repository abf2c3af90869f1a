/-
  `mazze_addr_encode` and `mazze_addr_decode` (`mazze_addr/src/lib.rs`): a byte string and a
  network as `prefix:payload` in base32, with a 40-bit checksum over the prefix and the payload.

  Model. Strings are lists of characters; `is_lowercase`, `to_lowercase` and their upper-case
  twins are the ASCII ones of `Char`, which is what they are on every character the encoder
  writes. A result is `Option (Except _ _)`, where `none` is a panic of the source: `.expect` on
  `convert_bits`, an index of `CHARSET` or of `payload` out of range, the subtraction
  `len_5_bit - 8` below zero (overflow checks are on in release), and `Address::from_slice` of
  a body that is not 20 bytes. An `H160` is its 20 bytes.

  What is proved:
  * decoding an encoded address gives the bytes and the network back, with the `H160` exactly
    for 20 bytes, in the plain form and in the upper-case form with a type option
    (`mazzeAddrDecode_encode`);
  * decoding panics on a prefix followed by the checksum of an empty payload, which the
    checksum accepts: `convert_bits` of no symbols is no bytes, and `payload[0]` is out of
    range (`mazzeAddrDecode_panics_on_empty_payload`).
-/
import Mazze.Addr.Checksum
import Mazze.Addr.ConvertBits

namespace Mazze.Addr

open Mazze.Bits

/-- `expand_prefix`: the low 5 bits of every character of the prefix, then a zero. -/
def expandPrefix (addrPrefix : List Char) : List UInt8 :=
  addrPrefix.map (fun c => c.toNat.toUInt8 &&& 0x1f) ++ [0]

/-- `CHARSET[b as usize] as char` for every symbol (out of range panics). -/
def symbolChars (symbols : List UInt8) : Option (List Char) :=
  symbols.mapM fun b => charset[b.toNat]?

/-- `SIZE_160` to `SIZE_512` with the body length each stands for. -/
def sizeLengths : List (UInt8 × Nat) :=
  [(0x00, 20), (0x01, 24), (0x02, 28), (0x03, 32), (0x04, 40), (0x05, 48), (0x06, 56), (0x07, 64)]

/-- `SIZE_160`. -/
def size160 : UInt8 := 0x00

/-- The version byte of `mazze_addr_encode`, by the length of the address. -/
def versionByte : Nat → Option UInt8
  | 20 => some 0x00
  | 24 => some 0x01
  | 28 => some 0x02
  | 32 => some 0x03
  | 40 => some 0x04
  | 48 => some 0x05
  | 56 => some 0x06
  | 64 => some 0x07
  | _ => none

/-- `EncodingOptions`. -/
inductive EncodingOptions where
  | simple
  | qrCode
  deriving DecidableEq, Repr

/-- `mazze_addr_encode`. -/
def mazzeAddrEncode (raw : List UInt8) (network : Network) (encodingOptions : EncodingOptions) :
    Option (Except EncodingError (List Char)) :=
  match versionByte raw.length with
  | none => some (.error (.invalidLength raw.length))
  | some version =>
    match network.toPrefix with
    | .error e => some (.error e)
    | .ok addrPrefix =>
      match convertBits (version :: raw) 8 5 true with
      | some (.ok payload5Bits) => do
        let payloadStr ← symbolChars payload5Bits
        let checksum := polymod (expandPrefix addrPrefix ++ payload5Bits ++ List.replicate 8 0)
        let checksumStr ← symbolChars (checksumSymbols checksum)
        match encodingOptions with
        | .simple => some (.ok (addrPrefix ++ ':' :: (payloadStr ++ checksumStr)))
        | .qrCode =>
          let addrType ← AddressType.fromAddress raw
          some (.ok ((addrPrefix ++ ":type.".toList ++ addrType.toStr ++ ':' ::
            (payloadStr ++ checksumStr)).map Char.toUpper))
      -- `.expect("no error is possible for encoding")`
      | _ => none

/-- `DecodedRawAddress`. -/
structure DecodedRawAddress where
  inputBase32Address : List Char
  parsedAddressBytes : List UInt8
  hexAddress : Option (List UInt8)
  network : Network
  deriving DecidableEq, Repr

/-- `s` has both a lower-case and an upper-case letter. -/
def mixedCase (s : List Char) : Bool := s.any Char.isLower && s.any Char.isUpper

/-- The loop over the options between the prefix and the payload: each is `key.value`, and the
    last `type` option gives the expected address type. -/
def parseOptions (options : List (List Char)) : Except DecodingError (Option AddressType) :=
  options.foldlM (fun addressType optionStr =>
    match optionStr.splitOn '.' with
    | [key, value] =>
      .ok (if key = "type".toList then some (AddressType.parse value) else addressType)
    | _ => .error (.invalidOption (.parseError optionStr))) none

/-- A payload character through `CHAR_INDEX`. -/
def charSymbol (c : Char) : Except DecodingError UInt8 :=
  match charIndex[c.toNat]? with
  | some (some d) => .ok d
  | _ => .error (.invalidChar c)

/-- The checks of the decoded bytes: the version byte against the body length and the reserved
    bits, then the address type of an `H160`. -/
def decodeVersion (addrStr : List Char) (network : Network) (addressType : Option AddressType) :
    List UInt8 → Option (Except DecodingError DecodedRawAddress)
  -- `payload[0]` of no bytes
  | [] => none
  | version :: body =>
    let versionSize := version &&& sizeMask
    if sizeLengths.any (fun sl => versionSize = sl.1 && body.length ≠ sl.2) then
      some (.error (.invalidLength body.length))
    else if version &&& reservedBitsMask ≠ 0 then some (.error (.versionNotRecognized version))
    else if versionSize = size160 then
      -- `Address::from_slice`
      if body.length ≠ 20 then none
      else
        match addressType with
        | some expected =>
          let got := AddressType.fromAddress body
          if got ≠ some expected then
            some (.error (.invalidOption (.addressTypeMismatch expected got)))
          else some (.ok ⟨addrStr, body, some body, network⟩)
        | none => some (.ok ⟨addrStr, body, some body, network⟩)
    else some (.ok ⟨addrStr, body, none, network⟩)

/-- The payload after the last `:`: its symbols, the checksum, the bytes. -/
def decodePayload (addrStr addrPrefix : List Char) (network : Network)
    (addressType : Option AddressType) (payloadStr : List Char) :
    Option (Except DecodingError DecodedRawAddress) :=
  if payloadStr.length = 0 then some (.error (.invalidLength 0))
  else if mixedCase payloadStr then some (.error .mixedCase)
  else
    match payloadStr.mapM charSymbol with
    | .error e => some (.error e)
    | .ok payload5Bits =>
      let checksum := polymod (expandPrefix addrPrefix ++ payload5Bits)
      if checksum ≠ 0 then some (.error (.checksumFailed checksum))
      -- `len_5_bit - 8` below zero
      else if payload5Bits.length < 8 then none
      else
        match convertBits (payload5Bits.take (payload5Bits.length - 8)) 5 8 false with
        | none => none
        | some (.error e) => some (.error e)
        | some (.ok payload) => decodeVersion addrStr network addressType payload

/-- `mazze_addr_decode`. -/
def mazzeAddrDecode (addrStr : List Char) : Option (Except DecodingError DecodedRawAddress) :=
  if mixedCase addrStr then some (.error .mixedCase)
  else
    match (addrStr.map Char.toLower).splitOn ':' with
    | addrPrefix :: part :: parts =>
      match Network.fromPrefix addrPrefix with
      | .error e => some (.error e)
      | .ok network =>
        match parseOptions (part :: parts).dropLast with
        | .error e => some (.error e)
        | .ok addressType =>
          decodePayload addrStr addrPrefix network addressType ((part :: parts).getLast (by simp))
    | _ => some (.error .noPrefix)

/-! ### The characters the encoder writes -/

/-- The separators and `BASE32_CHARS`: every character the encoder writes before
    `to_uppercase`. -/
def encodedChars : List Char := ':' :: '.' :: base32Chars

theorem encodedChars_case : ∀ c ∈ encodedChars, c.isUpper = false ∧ c.toLower = c ∧
    c.toUpper.isLower = false ∧ c.toUpper.toLower = c :=
  forall_mem_of_all (by decide)

theorem colon_not_mem_base32Chars : ':' ∉ base32Chars ∧ '.' ∉ base32Chars := by decide

theorem mem_encodedChars_of_base32 {c : Char} (h : c ∈ base32Chars) : c ∈ encodedChars :=
  .tail _ (.tail _ h)

theorem base32_of_charset {c : Char} (h : c ∈ charset) : c ∈ base32Chars :=
  List.mem_of_mem_filter h

theorem digitChar_base32 : ∀ d : Fin 10, Nat.digitChar d ∈ base32Chars := by decide

/-- Every prefix `to_prefix` writes is lower-case letters and digits. -/
theorem toPrefix_base32 {net : Network} {p : List Char} (h : net.toPrefix = .ok p) :
    ∀ c ∈ p, c ∈ base32Chars := by
  cases net with
  | main => cases h; exact forall_mem_of_all (by decide)
  | test => cases h; exact forall_mem_of_all (by decide)
  | id n =>
    simp only [Network.toPrefix] at h
    split at h
    · cases h
    · cases h
      intro c hc
      rcases List.mem_append.mp hc with hc | hc
      · exact forall_mem_of_all (l := networkIdPrefix) (by decide) c hc
      · -- a digit of the network id
        unfold decimal at hc
        split at hc
        · rw [List.mem_singleton.mp hc]; decide
        · obtain ⟨d, hd, rfl⟩ := List.mem_map.mp hc
          exact digitChar_base32 ⟨d, Nat.digits_lt_base (by decide) (List.mem_reverse.mp hd)⟩

theorem toStr_base32 (t : AddressType) : ∀ c ∈ t.toStr, c ∈ base32Chars := by
  cases t <;> exact forall_mem_of_all (by decide)

section Case

variable {s : List Char} (hs : ∀ c ∈ s, c ∈ encodedChars)
include hs

theorem mixedCase_of_encoded : mixedCase s = false := by
  have hupper : s.any Char.isUpper = false :=
    List.any_eq_false.mpr fun c hc => by simp [(encodedChars_case c (hs c hc)).1]
  simp [mixedCase, hupper]

theorem map_toLower_of_encoded : s.map Char.toLower = s := by
  conv_rhs => rw [← List.map_id s]
  exact List.map_congr_left fun c hc => (encodedChars_case c (hs c hc)).2.1

theorem mixedCase_map_toUpper : mixedCase (s.map Char.toUpper) = false := by
  have hlower : (s.map Char.toUpper).any Char.isLower = false :=
    List.any_eq_false.mpr fun c hc => by
      obtain ⟨c', hc', rfl⟩ := List.mem_map.mp hc
      simp [(encodedChars_case c' (hs c' hc')).2.2.1]
  simp [mixedCase, hlower]

theorem map_toLower_map_toUpper : (s.map Char.toUpper).map Char.toLower = s := by
  rw [List.map_map]
  conv_rhs => rw [← List.map_id s]
  exact List.map_congr_left fun c hc => (encodedChars_case c (hs c hc)).2.2.2

end Case

/-! ### `split` on the encoder's separators -/

section Split

variable {a : Char} {p q : List Char}

theorem splitOn_append_cons (hp : a ∉ p) : (p ++ a :: q).splitOn a = p :: q.splitOn a := by
  unfold List.splitOn
  exact List.splitOnP_append_cons_of_forall_mem
    (fun x hx => beq_eq_false_iff_ne.mpr fun (h : x = a) => hp (h ▸ hx)) a (beq_self_eq_true a) q

theorem splitOn_of_not_mem (hq : a ∉ q) : q.splitOn a = [q] := by
  unfold List.splitOn
  exact List.splitOnP_eq_singleton fun x hx =>
    beq_eq_false_iff_ne.mpr fun (h : x = a) => hq (h ▸ hx)

end Split

/-! ### Symbols -/

/-- Symbols below 32 are characters of `CHARSET`, which `CHAR_INDEX` reads back. -/
theorem symbolChars_spec {syms : List UInt8} (h : ∀ b ∈ syms, b.toNat < 32) :
    ∃ cs, symbolChars syms = some cs ∧ cs.length = syms.length ∧ (∀ c ∈ cs, c ∈ charset) ∧
      cs.mapM charSymbol = .ok syms := by
  induction syms with
  | nil => exact ⟨[], rfl, rfl, by simp, rfl⟩
  | cons b syms ih =>
    obtain ⟨cs, hcs, hlen, hmem, hback⟩ := ih fun x hx => h x (.tail _ hx)
    obtain ⟨c, hc, hidx⟩ := charIndex_charset (h b (.head _))
    refine ⟨c :: cs, ?_, by simp [hlen], ?_, ?_⟩
    · simp only [symbolChars, List.mapM_cons] at hcs ⊢
      simp [hc, hcs]
    · intro x hx
      rcases List.mem_cons.mp hx with rfl | hx
      · exact List.mem_of_getElem? hc
      · exact hmem x hx
    · rw [List.mapM_cons, hback]
      simp only [charSymbol, hidx]
      rfl

theorem symbolChars_append {a b : List UInt8} {x y : List Char} (ha : symbolChars a = some x)
    (hb : symbolChars b = some y) : symbolChars (a ++ b) = some (x ++ y) := by
  unfold symbolChars at *
  rw [List.mapM_append, ha, hb]
  rfl

/-! ### The version byte -/

theorem versionByte_of_mem {n : Nat} (h : n ∈ [20, 24, 28, 32, 40, 48, 56, 64]) :
    ∃ v, versionByte n = some v := by
  simp only [List.mem_cons, List.not_mem_nil, or_false] at h
  rcases h with rfl | rfl | rfl | rfl | rfl | rfl | rfl | rfl <;> exact ⟨_, rfl⟩

/-- The version byte `mazze_addr_encode` writes passes the checks of `mazze_addr_decode`, and
    it is `SIZE_160` exactly for 20 bytes. -/
theorem versionByte_checks {n : Nat} {v : UInt8} (h : versionByte n = some v) :
    sizeLengths.any (fun sl => v &&& sizeMask = sl.1 && n ≠ sl.2) = false ∧
      v &&& reservedBitsMask = 0 ∧ (v &&& sizeMask = size160 ↔ n = 20) := by
  unfold versionByte at h
  split at h <;> (try cases h) <;> decide

/-- The checks of the decoded bytes accept a version byte written for the body, with an `H160`
    exactly for 20 bytes; a type option must name the type of those 20 bytes. -/
theorem decodeVersion_versionByte {addrStr : List Char} {network : Network}
    {addressType : Option AddressType} {v : UInt8} {body : List UInt8}
    (h : versionByte body.length = some v)
    (htype : ∀ expected, addressType = some expected → AddressType.fromAddress body = some expected) :
    decodeVersion addrStr network addressType (v :: body) =
      some (.ok ⟨addrStr, body, if body.length = 20 then some body else none, network⟩) := by
  obtain ⟨hany, hres, h160⟩ := versionByte_checks h
  simp only [decodeVersion, hany, hres, Bool.false_eq_true, if_false, ne_eq, not_true_eq_false]
  by_cases h20 : body.length = 20
  · simp only [h160.mpr h20, h20, if_true, not_true_eq_false, if_false]
    cases addressType with
    | none => rfl
    | some expected => simp [htype expected rfl]
  · simp [h160, h20]

/-! ### Decoding what the encoder writes -/

theorem toPrefix_ok {network : Network} (hnet : ∀ n, network = .id n → n ∉ reservedNetworkIds) :
    ∃ p, network.toPrefix = .ok p := by
  cases network with
  | main => exact ⟨_, rfl⟩
  | test => exact ⟨_, rfl⟩
  | id n => exact ⟨networkIdPrefix ++ decimal n.toNat, by simp [Network.toPrefix, hnet n rfl]⟩

theorem fromAddress_of_ne_nil {raw : List UInt8} (h : raw ≠ []) :
    ∃ t, AddressType.fromAddress raw = some t := by
  cases raw with
  | nil => exact absurd rfl h
  | cons b raw => exact ⟨_, rfl⟩

theorem parseOptions_type (t : AddressType) :
    parseOptions ["type.".toList ++ t.toStr] = .ok (some t) := by
  cases t <;> rfl

/-- The payload the encoder writes for the symbols `g`: `g`, then the checksum of the prefix and
    `g`, all in `CHARSET`. Decoding it passes the checksum, strips it and regroups `g`. -/
theorem decodePayload_of_checksum {addrStr addrPrefix : List Char} {network : Network}
    {addressType : Option AddressType} {g bytes : List UInt8} {cs : List Char}
    (hg : ∀ b ∈ g, b.toNat < 32)
    (hcs : symbolChars (g ++ checksumSymbols
      (polymod (expandPrefix addrPrefix ++ g ++ List.replicate 8 0))) = some cs)
    (hbytes : convertBits g 5 8 false = some (.ok bytes)) :
    decodePayload addrStr addrPrefix network addressType cs =
      decodeVersion addrStr network addressType bytes := by
  set chk := checksumSymbols (polymod (expandPrefix addrPrefix ++ g ++ List.replicate 8 0))
  have hsyms : ∀ b ∈ g ++ chk, b.toNat < 32 := fun b hb =>
    (List.mem_append.mp hb).elim (hg b) (checksumSymbols_lt _ b)
  obtain ⟨cs', hcs', hlen, hmem, hback⟩ := symbolChars_spec hsyms
  obtain rfl : cs' = cs := Option.some.inj (hcs'.symm.trans hcs)
  have hlen8 : (g ++ chk).length = g.length + 8 := by simp [chk]
  have hsum : polymod (expandPrefix addrPrefix ++ (g ++ chk)) = 0 := by
    rw [← List.append_assoc]
    exact polymod_append_checksumSymbols _
  have htake : (g ++ chk).take ((g ++ chk).length - 8) = g := by
    rw [hlen8, Nat.add_sub_cancel]
    exact List.take_left' rfl
  have hchars : ∀ c ∈ cs', c ∈ encodedChars := fun c hc =>
    mem_encodedChars_of_base32 (base32_of_charset (hmem c hc))
  unfold decodePayload
  rw [if_neg (by omega), if_neg (by simp [mixedCase_of_encoded hchars]), hback]
  simp only [hsum, ne_eq, not_true_eq_false, if_false]
  rw [if_neg (by omega), htake, hbytes]

section Decode

variable {network : Network} {addrPrefix cs : List Char} (hp : network.toPrefix = .ok addrPrefix)
  (hcs : ∀ c ∈ cs, c ∈ charset)
include hp hcs

theorem colon_not_mem_of_toPrefix : ':' ∉ addrPrefix ∧ ':' ∉ cs :=
  ⟨fun h => colon_not_mem_base32Chars.1 (toPrefix_base32 hp _ h),
    fun h => colon_not_mem_base32Chars.1 (base32_of_charset (hcs _ h))⟩

/-- `prefix:payload` is split at its one `:` and the prefix read back. -/
theorem mazzeAddrDecode_simple :
    mazzeAddrDecode (addrPrefix ++ ':' :: cs) =
      decodePayload (addrPrefix ++ ':' :: cs) addrPrefix network none cs := by
  have hchars : ∀ c ∈ addrPrefix ++ ':' :: cs, c ∈ encodedChars := by
    intro c hc
    rcases List.mem_append.mp hc with hc | hc
    · exact mem_encodedChars_of_base32 (toPrefix_base32 hp c hc)
    · rcases List.mem_cons.mp hc with rfl | hc
      · exact .head _
      · exact mem_encodedChars_of_base32 (base32_of_charset (hcs c hc))
  obtain ⟨hcolon, hcolon'⟩ := colon_not_mem_of_toPrefix hp hcs
  unfold mazzeAddrDecode
  rw [mixedCase_of_encoded hchars, map_toLower_of_encoded hchars, splitOn_append_cons hcolon,
    splitOn_of_not_mem hcolon']
  simp only [Bool.false_eq_true, if_false, Network.fromPrefix_toPrefix hp]
  rfl

/-- `PREFIX:TYPE.T:PAYLOAD` is lower-cased, split at its two `:`, and the option read as type `t`. -/
theorem mazzeAddrDecode_qrCode (t : AddressType) :
    mazzeAddrDecode ((addrPrefix ++ ":type.".toList ++ t.toStr ++ ':' :: cs).map Char.toUpper) =
      decodePayload ((addrPrefix ++ ":type.".toList ++ t.toStr ++ ':' :: cs).map Char.toUpper)
        addrPrefix network (some t) cs := by
  have hshape : addrPrefix ++ ":type.".toList ++ t.toStr ++ ':' :: cs =
      addrPrefix ++ ':' :: (("type.".toList ++ t.toStr) ++ ':' :: cs) := by simp
  have hoption : ∀ c ∈ "type.".toList ++ t.toStr, c ∈ encodedChars ∧ c ≠ ':' := by
    intro c hc
    rcases List.mem_append.mp hc with hc | hc
    · exact forall_mem_of_all (l := "type.".toList) (p := fun c => c ∈ encodedChars ∧ c ≠ ':')
        (by decide) c hc
    · exact ⟨mem_encodedChars_of_base32 (toStr_base32 t c hc),
        fun h => colon_not_mem_base32Chars.1 (h ▸ toStr_base32 t c hc)⟩
  have hchars : ∀ c ∈ addrPrefix ++ ":type.".toList ++ t.toStr ++ ':' :: cs, c ∈ encodedChars := by
    rw [hshape]
    intro c hc
    rcases List.mem_append.mp hc with hc | hc
    · exact mem_encodedChars_of_base32 (toPrefix_base32 hp c hc)
    · rcases List.mem_cons.mp hc with rfl | hc
      · exact .head _
      · rcases List.mem_append.mp hc with hc | hc
        · exact (hoption c hc).1
        · rcases List.mem_cons.mp hc with rfl | hc
          · exact .head _
          · exact mem_encodedChars_of_base32 (base32_of_charset (hcs c hc))
  obtain ⟨hcolon, hcolon'⟩ := colon_not_mem_of_toPrefix hp hcs
  unfold mazzeAddrDecode
  rw [mixedCase_map_toUpper hchars, map_toLower_map_toUpper hchars, hshape,
    splitOn_append_cons hcolon, splitOn_append_cons fun h => (hoption ':' h).2 rfl,
    splitOn_of_not_mem hcolon']
  simp only [Bool.false_eq_true, if_false, Network.fromPrefix_toPrefix hp, List.dropLast_cons_cons,
    List.dropLast_singleton, parseOptions_type]
  rfl

end Decode

/-! ### The round trip -/

/-- Decoding an encoded address gives back its bytes and network, with the `H160` exactly for
    20 bytes; a 20-byte address encodes in the upper-case form with its type too, which decodes
    the same way. -/
theorem mazzeAddrDecode_encode (raw : List UInt8) (network : Network)
    (hlen : raw.length ∈ [20, 24, 28, 32, 40, 48, 56, 64])
    (hnet : ∀ n, network = .id n → n ∉ reservedNetworkIds) :
    (∃ s, mazzeAddrEncode raw network .simple = some (.ok s) ∧
      mazzeAddrDecode s = some (.ok ⟨s, raw, if raw.length = 20 then some raw else none, network⟩)) ∧
    (raw.length = 20 → ∃ s, mazzeAddrEncode raw network .qrCode = some (.ok s) ∧
      mazzeAddrDecode s = some (.ok ⟨s, raw, some raw, network⟩)) := by
  obtain ⟨v, hv⟩ := versionByte_of_mem hlen
  obtain ⟨addrPrefix, hp⟩ := toPrefix_ok hnet
  -- the payload symbols, which regroup back to the version byte and the bytes
  obtain ⟨g, hconv, hg, hbytes⟩ := convertBits_roundtrip (v :: raw)
  obtain ⟨cs₁, hcs₁, -, hmem₁, -⟩ := symbolChars_spec hg
  obtain ⟨cs₂, hcs₂, -, hmem₂, -⟩ := symbolChars_spec (checksumSymbols_lt (polymod
    (expandPrefix addrPrefix ++ g ++ List.replicate 8 0)))
  have hcs := symbolChars_append hcs₁ hcs₂
  have hmem : ∀ c ∈ cs₁ ++ cs₂, c ∈ charset := fun c hc =>
    (List.mem_append.mp hc).elim (hmem₁ c) (hmem₂ c)
  constructor
  · refine ⟨addrPrefix ++ ':' :: (cs₁ ++ cs₂), ?_, ?_⟩
    · simp only [mazzeAddrEncode, hv, hp, hconv, hcs₁, hcs₂]
      rfl
    · rw [mazzeAddrDecode_simple hp hmem, decodePayload_of_checksum hg hcs hbytes]
      exact decodeVersion_versionByte hv (fun _ h => nomatch h)
  · intro h20
    obtain ⟨t, ht⟩ := fromAddress_of_ne_nil (List.ne_nil_of_length_pos (by omega) : raw ≠ [])
    refine ⟨(addrPrefix ++ ":type.".toList ++ t.toStr ++ ':' :: (cs₁ ++ cs₂)).map Char.toUpper,
      ?_, ?_⟩
    · simp only [mazzeAddrEncode, hv, hp, hconv, hcs₁, hcs₂, ht]
      rfl
    · rw [mazzeAddrDecode_qrCode hp hmem, decodePayload_of_checksum hg hcs hbytes,
        decodeVersion_versionByte hv fun _ h => (Option.some.inj h) ▸ ht, if_pos h20]

/-- The null address on the main network. -/
theorem mazzeAddrDecode_encode_at_null :
    (List.replicate 20 (0 : UInt8)).length ∈ [20, 24, 28, 32, 40, 48, 56, 64] ∧
      (∀ n, Network.main = .id n → n ∉ reservedNetworkIds) ∧
      ((∃ s, mazzeAddrEncode (List.replicate 20 0) .main .simple = some (.ok s) ∧
        mazzeAddrDecode s = some (.ok ⟨s, List.replicate 20 0,
          if (List.replicate 20 (0 : UInt8)).length = 20 then some (List.replicate 20 0) else none,
          .main⟩)) ∧
      ((List.replicate 20 (0 : UInt8)).length = 20 →
        ∃ s, mazzeAddrEncode (List.replicate 20 0) .main .qrCode = some (.ok s) ∧
          mazzeAddrDecode s = some (.ok ⟨s, List.replicate 20 0, some (List.replicate 20 0),
            .main⟩))) :=
  ⟨by decide, fun _ h => Network.noConfusion h,
    mazzeAddrDecode_encode (List.replicate 20 0) Network.main (by decide)
      fun _ h => Network.noConfusion h⟩

/-! ### A panic on untrusted input -/

/-- A prefix, `:`, then only the eight checksum symbols of an empty payload: the checksum
    passes, `convert_bits` of no symbols gives no bytes, and `payload[0]` panics. -/
theorem mazzeAddrDecode_panics_on_empty_payload {network : Network} {addrPrefix : List Char}
    (hp : network.toPrefix = .ok addrPrefix) :
    ∃ cs, symbolChars (checksumSymbols (polymod (expandPrefix addrPrefix ++ List.replicate 8 0))) =
      some cs ∧ mazzeAddrDecode (addrPrefix ++ ':' :: cs) = none := by
  obtain ⟨cs, hcs, -, hmem, -⟩ := symbolChars_spec (checksumSymbols_lt (polymod
    (expandPrefix addrPrefix ++ List.replicate 8 0)))
  have hempty : symbolChars ([] ++ checksumSymbols
      (polymod (expandPrefix addrPrefix ++ [] ++ List.replicate 8 0))) = some cs := by
    simpa using hcs
  refine ⟨cs, hcs, ?_⟩
  rw [mazzeAddrDecode_simple hp hmem,
    decodePayload_of_checksum (by simp) hempty (by decide : convertBits [] 5 8 false = some (.ok []))]
  rfl

theorem mazzeAddrDecode_panics_on_mainnet :
    Network.main.toPrefix = .ok mainnetPrefix ∧
      ∃ cs, symbolChars (checksumSymbols
          (polymod (expandPrefix mainnetPrefix ++ List.replicate 8 0))) = some cs ∧
        mazzeAddrDecode (mainnetPrefix ++ ':' :: cs) = none :=
  ⟨rfl, mazzeAddrDecode_panics_on_empty_payload
    (show Network.main.toPrefix = .ok mainnetPrefix from rfl)⟩

end Mazze.Addr
