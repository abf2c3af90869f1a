/-
  The block header's RLP forms and its two decoders (`block_header.rs`).

  A header is encoded as one RLP list: thirteen fixed fields, the nonce (not in the form the
  PoW problem hashes), the PoW hash (only in the form kept in the database), the base price
  when there is one, and then every custom entry, each appended as a byte string. The
  decoders read the fixed fields by index and then take every remaining item's raw bytes
  (`as_raw`, header included) as a custom entry. So a custom entry comes back wrapped in its
  own RLP header: the round trip keeps the entry only when it is a single byte below `0x80`,
  the one byte string whose encoding is itself. The removed code commented out in the
  encoders paired `append_raw` with this decoder.

  The `rlp` crate is a parameter `R`, a lawful `Codec`: `val_at` inverts `append`, and `as_raw`
  is the whole encoding of an item. `keccak` is a parameter too: the results never use a
  property of it. `rlpCodec`, the crate's RLP, is the instance of the example.

  Main results:
  * `length_streamRlp` and its two siblings: each `begin_list(list_len)` announces exactly
    the items appended after it.
  * `decode_rlp`, `decodeWithPowHash_rlp`: what each decoder makes of the matching encoding,
    for every header: the header, with each custom entry replaced by its encoding.
  * `decode_rlp_eq_iff`: the round trip is the identity exactly when every custom entry is its
    own encoding (`decode_rlp_eq_iff_single_bytes`: for the crate's RLP, a single byte below
    `0x80`); otherwise the decoded header encodes to other bytes.
-/
import Mazze.Codec.Rlp

namespace Mazze.Primitives

open Rlp Codec

abbrev H256 := FixedBytes 32
abbrev Address := FixedBytes 20
abbrev U256 := BitVec 256

/-- `[core_space_base_price, espace_base_price]`. -/
structure BasePrice where
  coreBasePrice : U256
  espaceBasePrice : U256
  deriving DecidableEq

/-- The fields of a header that its RLP forms carry. -/
structure BlockHeaderRlpPart where
  parentHash : H256
  height : UInt64
  timestamp : UInt64
  author : Address
  transactionsRoot : H256
  deferredStateRoot : H256
  deferredReceiptsRoot : H256
  deferredLogsBloomHash : H256
  blame : UInt32
  difficulty : U256
  adaptive : Bool
  gasLimit : U256
  refereeHashes : List H256
  custom : List (List UInt8)
  nonce : U256
  basePrice : Option BasePrice
  deriving DecidableEq

/-- A header with its cached hash, its PoW hash and its approximate RLP size. -/
structure BlockHeader where
  rlpPart : BlockHeaderRlpPart
  hash : Option H256
  powHash : Option H256
  approximatedRlpSize : Nat
  deriving DecidableEq

def headerListMinLen : Nat := 13

/-! ## Encoding -/

/-- `RlpEncodable` derived for `BasePrice`. -/
def BasePrice.toItem (p : BasePrice) : Item :=
  .list [uintItem p.coreBasePrice.toNat, uintItem p.espaceBasePrice.toNat]

namespace BlockHeaderRlpPart

variable (h : BlockHeaderRlpPart)

/-- The thirteen fields every form starts with, in the order they are appended. -/
def fieldItems : List Item :=
  let adaptiveN : UInt8 := if h.adaptive then 1 else 0
  [h.parentHash.toItem, uintItem h.height.toNat, uintItem h.timestamp.toNat, h.author.toItem,
    h.transactionsRoot.toItem, h.deferredStateRoot.toItem, h.deferredReceiptsRoot.toItem,
    h.deferredLogsBloomHash.toItem, uintItem h.blame.toNat, uintItem h.difficulty.toNat,
    uintItem adaptiveN.toNat, uintItem h.gasLimit.toNat,
    .list (h.refereeHashes.map FixedBytes.toItem)]

/-- What every form appends last: the base price when there is one, then each custom entry
    as a byte string (`stream.append(b)`). -/
def tailItems : List Item :=
  (if h.basePrice.isSome then [optionItem (h.basePrice.map BasePrice.toItem)] else []) ++
    h.custom.map Item.str

/-- The items `stream_rlp_without_nonce` appends. -/
def streamRlpWithoutNonce : List Item := h.fieldItems ++ h.tailItems

/-- The items `stream_rlp` appends. -/
def streamRlp : List Item := h.fieldItems ++ uintItem h.nonce.toNat :: h.tailItems

/-- The `list_len` that `stream_rlp_without_nonce` begins its list with. -/
def streamRlpWithoutNonceListLen : Nat :=
  headerListMinLen + (if h.basePrice.isSome then 1 else 0) + h.custom.length

/-- The `list_len` that `stream_rlp` begins its list with. -/
def streamRlpListLen : Nat :=
  headerListMinLen + 1 + (if h.basePrice.isSome then 1 else 0) + h.custom.length

variable (R : Codec)

/-- `rlp_without_nonce`. -/
def rlpWithoutNonce : List UInt8 := R.encode (.list h.streamRlpWithoutNonce)

/-- `rlp`. -/
def rlp : List UInt8 := R.encode (.list h.streamRlp)

@[simp] theorem length_fieldItems : h.fieldItems.length = headerListMinLen := rfl

theorem length_tailItems :
    h.tailItems.length = (if h.basePrice.isSome then 1 else 0) + h.custom.length := by
  unfold tailItems
  split
  · simp [Nat.add_comm]
  · simp

theorem length_streamRlpWithoutNonce :
    h.streamRlpWithoutNonce.length = h.streamRlpWithoutNonceListLen := by
  rw [streamRlpWithoutNonce, List.length_append, length_fieldItems, length_tailItems,
    streamRlpWithoutNonceListLen, Nat.add_assoc]

theorem length_streamRlp : h.streamRlp.length = h.streamRlpListLen := by
  rw [streamRlp, List.length_append, length_fieldItems, List.length_cons, length_tailItems,
    streamRlpListLen]
  omega

end BlockHeaderRlpPart

namespace BlockHeader

variable (R : Codec) (keccak : List UInt8 → H256) (h : BlockHeader)

/-- The items `stream_rlp_with_pow_hash` appends: the nonce and then the PoW hash, as an
    option, after the fixed fields. -/
def streamRlpWithPowHash : List Item :=
  h.rlpPart.fieldItems ++ uintItem h.rlpPart.nonce.toNat ::
    optionItem (h.powHash.map FixedBytes.toItem) :: h.rlpPart.tailItems

/-- The `list_len` that `stream_rlp_with_pow_hash` begins its list with. -/
def streamRlpWithPowHashListLen : Nat :=
  headerListMinLen + 2 + (if h.rlpPart.basePrice.isSome then 1 else 0) + h.rlpPart.custom.length

theorem length_streamRlpWithPowHash :
    h.streamRlpWithPowHash.length = h.streamRlpWithPowHashListLen := by
  rw [streamRlpWithPowHash, List.length_append, BlockHeaderRlpPart.length_fieldItems,
    List.length_cons, List.length_cons, BlockHeaderRlpPart.length_tailItems,
    streamRlpWithPowHashListLen]
  omega

/-- `hash`: the cached hash, or the hash of the encoding. -/
def hashOf : H256 := h.hash.getD (keccak (h.rlpPart.rlp R))

/-- `problem_hash`. -/
def problemHash : H256 := keccak (h.rlpPart.rlpWithoutNonce R)

/-- `compute_hash`: cache the hash. -/
def computeHash : BlockHeader := { h with hash := some (h.hashOf R keccak) }

end BlockHeader

/-! ## Decoding -/

section Decoding

variable (R : Codec)

/-- `RlpDecodable` derived for `BasePrice`. -/
def BasePrice.decode (r : R.View) : Except DecoderError BasePrice := do
  let coreBasePrice ← R.valAt r R.decodeU256 0
  let espaceBasePrice ← R.valAt r R.decodeU256 1
  pure ⟨coreBasePrice, espaceBasePrice⟩

/-- `r.val_at(i).unwrap_or(None)` for the optional base price. -/
def basePriceAt (r : R.View) (i : Nat) : Option BasePrice :=
  match R.valAt r (R.decodeOption (BasePrice.decode R)) i with
  | .ok basePrice => basePrice
  | .error _ => none

/-- The struct literal both decoders start from: the fields at indices 0 to 13, no custom
    entries and no base price yet. -/
def decodeFields (r : R.View) : Except DecoderError BlockHeaderRlpPart := do
  let parentHash ← R.valAt r (R.decodeFixed 32) 0
  let height ← R.valAt r R.decodeU64 1
  let timestamp ← R.valAt r R.decodeU64 2
  let author ← R.valAt r (R.decodeFixed 20) 3
  let transactionsRoot ← R.valAt r (R.decodeFixed 32) 4
  let deferredStateRoot ← R.valAt r (R.decodeFixed 32) 5
  let deferredReceiptsRoot ← R.valAt r (R.decodeFixed 32) 6
  let deferredLogsBloomHash ← R.valAt r (R.decodeFixed 32) 7
  let blame ← R.valAt r R.decodeU32 8
  let difficulty ← R.valAt r R.decodeU256 9
  let adaptiveN ← R.valAt r R.decodeU8 10
  let gasLimit ← R.valAt r R.decodeU256 11
  let refereeHashes ← R.at r 12 >>= fun v => R.asList v (R.decodeFixed 32)
  let nonce ← R.valAt r R.decodeU256 13
  pure
    { parentHash := parentHash, height := height, timestamp := timestamp, author := author,
      transactionsRoot := transactionsRoot, deferredStateRoot := deferredStateRoot,
      deferredReceiptsRoot := deferredReceiptsRoot,
      deferredLogsBloomHash := deferredLogsBloomHash, blame := blame, difficulty := difficulty,
      adaptive := adaptiveN == 1, gasLimit := gasLimit, refereeHashes := refereeHashes,
      custom := [], nonce := nonce, basePrice := none }

/-- The custom entries: the raw bytes of every item from `start` on. -/
def customFrom (r : R.View) (start : Nat) : Except DecoderError (List (List UInt8)) := do
  let count ← R.itemCount r
  (List.range' start (count - start)).mapM fun i => (R.at r i).map R.raw

end Decoding

namespace BlockHeader

variable (R : Codec) (keccak : List UInt8 → H256)

/-- `Decodable for BlockHeader`: the base price at index 14 if it decodes, custom entries
    after it; the hash is computed at once. -/
def decode (r : R.View) : Except DecoderError BlockHeader := do
  let rlpSize := (R.raw r).length
  let fields ← decodeFields R r
  let basePrice := basePriceAt R r 14
  let customStartIdx := 14 + if basePrice.isSome then 1 else 0
  let custom ← customFrom R r customStartIdx
  let header : BlockHeader :=
    { rlpPart := { fields with custom := custom, basePrice := basePrice }, hash := none,
      powHash := none, approximatedRlpSize := rlpSize }
  pure (header.computeHash R keccak)

/-- `decode_with_pow_hash`: the PoW hash at index 14, the base price at 15 if there are more
    than 15 items and it decodes, custom entries after it. -/
def decodeWithPowHash (bytes : List UInt8) : Except DecoderError BlockHeader := do
  let r ← R.rlpNew bytes
  let fields ← decodeFields R r
  let powHash ← R.valAt r (R.decodeOption (R.decodeFixed 32)) 14
  let count ← R.itemCount r
  let basePrice := if 15 < count then basePriceAt R r 15 else none
  let customStartIdx := 15 + if basePrice.isSome then 1 else 0
  let custom ← customFrom R r customStartIdx
  let header : BlockHeader :=
    { rlpPart := { fields with custom := custom, basePrice := basePrice }, hash := none,
      powHash := powHash, approximatedRlpSize := bytes.length }
  pure (header.computeHash R keccak)

/-- `rlp::decode` of a header: the view of the bytes, decoded. -/
def decodeBytes (bytes : List UInt8) : Except DecoderError BlockHeader :=
  R.rlpNew bytes >>= decode R keccak

end BlockHeader

/-! ## Decoding the encodings -/

section Encodings

variable {R : Codec}

/-- The header as the decoders return it: every custom entry replaced by its encoding. -/
def BlockHeaderRlpPart.wrapCustom (R : Codec) (h : BlockHeaderRlpPart) : BlockHeaderRlpPart :=
  { h with custom := h.custom.map fun b => R.encode (.str b) }

theorem decode_basePrice_toItem (p : BasePrice) (w : R.View) (hw : R.Reads w p.toItem) :
    BasePrice.decode R w = .ok p := by
  simp [BasePrice.decode, hw.valAt (i := 0) rfl (decodeU256_uintItem p.coreBasePrice),
    hw.valAt (i := 1) rfl (decodeU256_uintItem p.espaceBasePrice), bind, Except.bind, pure,
    Except.pure]

/-- The fixed fields and the nonce read back, whatever follows them. -/
theorem decodeFields_of_reads (h : BlockHeaderRlpPart) (rest : List Item) (r : R.View)
    (hr : R.Reads r (.list (h.fieldItems ++ uintItem h.nonce.toNat :: rest))) :
    decodeFields R r = .ok { h with custom := [], basePrice := none } := by
  have hadaptive : ((if h.adaptive then (1 : UInt8) else 0) == 1) = h.adaptive := by
    cases h.adaptive <;> rfl
  -- the referee hashes are the one field read with `at` and `as_list`
  obtain ⟨w, hat, hw⟩ := hr.at_of_getElem? (i := 12) rfl
  simp only [decodeFields, hr.valAt (i := 0) rfl (decodeFixed_toItem h.parentHash),
    hr.valAt (i := 1) rfl (decodeU64_uintItem h.height),
    hr.valAt (i := 2) rfl (decodeU64_uintItem h.timestamp),
    hr.valAt (i := 3) rfl (decodeFixed_toItem h.author),
    hr.valAt (i := 4) rfl (decodeFixed_toItem h.transactionsRoot),
    hr.valAt (i := 5) rfl (decodeFixed_toItem h.deferredStateRoot),
    hr.valAt (i := 6) rfl (decodeFixed_toItem h.deferredReceiptsRoot),
    hr.valAt (i := 7) rfl (decodeFixed_toItem h.deferredLogsBloomHash),
    hr.valAt (i := 8) rfl (decodeU32_uintItem h.blame),
    hr.valAt (i := 9) rfl (decodeU256_uintItem h.difficulty),
    hr.valAt (i := 10) rfl (decodeU8_uintItem _),
    hr.valAt (i := 11) rfl (decodeU256_uintItem h.gasLimit),
    hat, asList_map decodeFixed_toItem w hw,
    hr.valAt (i := 13) rfl (decodeU256_uintItem h.nonce),
    bind, Except.bind, pure, Except.pure, hadaptive]

/-- Past the items before it, the tail of every form gives back the base price. -/
theorem basePriceAt_tailItems (h : BlockHeaderRlpPart) (pre : List Item) (r : R.View)
    (hr : R.Reads r (.list (pre ++ h.tailItems))) :
    basePriceAt R r pre.length = h.basePrice := by
  unfold BlockHeaderRlpPart.tailItems at hr
  cases hp : h.basePrice with
  | some p =>
    have hbase := hr.valAt (i := pre.length) (by simp [hp])
      (decodeOption_some (decode_basePrice_toItem p))
    simp only [basePriceAt, hbase]
  | none =>
    -- the next item is a custom entry, a string, or there is none: either way no base price
    cases hc : h.custom with
    | nil =>
      obtain ⟨e, he⟩ := hr.at_of_length_le (i := pre.length) (by simp [hp, hc])
      simp only [basePriceAt, Codec.valAt, he, bind, Except.bind]
    | cons b bs =>
      obtain ⟨w, hat, hw⟩ : ∃ w, R.at r pre.length = .ok w ∧ R.Reads w (.str b) :=
        hr.at_of_getElem? (by simp [hp, hc])
      obtain ⟨e, he⟩ := decodeOption_str (BasePrice.decode R) w hw
      simp only [basePriceAt, Codec.valAt, hat, he, bind, Except.bind]

/-- Past the items before them, the custom entries read back as their encodings. -/
theorem customFrom_tailItems (h : BlockHeaderRlpPart) (pre : List Item) (r : R.View)
    (hr : R.Reads r (.list (pre ++ h.tailItems))) :
    customFrom R r (pre.length + if h.basePrice.isSome then 1 else 0) =
      .ok (h.custom.map fun b => R.encode (.str b)) := by
  -- the items before the custom entries: `pre` and the base price if there is one
  let pre' := pre ++ if h.basePrice.isSome then
    [optionItem (h.basePrice.map BasePrice.toItem)] else []
  have hsplit : pre ++ h.tailItems = pre' ++ h.custom.map Item.str := by
    rw [List.append_assoc]; rfl
  have hstart : pre.length + (if h.basePrice.isSome then 1 else 0) = pre'.length := by
    simp only [pre', List.length_append]
    split <;> simp
  have hcount : (pre' ++ h.custom.map Item.str).length - pre'.length =
      (h.custom.map Item.str).length := by
    rw [List.length_append, Nat.add_sub_cancel_left]
  rw [hsplit] at hr
  rw [hstart, customFrom, hr.itemCount_list]
  simp only [bind, Except.bind]
  rw [hcount, hr.mapM_range'_raw, List.map_map]
  rfl

/-- The custom entries a round trip keeps are those that are their own encoding. -/
theorem wrapCustom_eq_self_iff (h : BlockHeaderRlpPart) :
    h.wrapCustom R = h ↔ ∀ b ∈ h.custom, R.encode (.str b) = b := by
  have hcustom : h.wrapCustom R = h ↔ h.custom.map (fun b => R.encode (.str b)) = h.custom := by
    constructor
    · intro heq
      exact congrArg BlockHeaderRlpPart.custom heq
    · intro heq
      simp only [BlockHeaderRlpPart.wrapCustom, heq]
  rw [hcustom]
  constructor
  · intro heq b hb
    obtain ⟨i, hi, rfl⟩ := List.getElem_of_mem hb
    have hi' := congrArg (·[i]?) heq
    simp only [List.getElem?_map, List.getElem?_eq_getElem hi, Option.map_some,
      Option.some.injEq] at hi'
    exact hi'
  · intro hall
    conv_rhs => rw [← List.map_id h.custom]
    exact List.map_congr_left hall

/-- Wrapping a custom entry changes the encoding: a lawful codec encodes injectively. -/
theorem rlp_wrapCustom_ne (hR : R.Lawful) (h : BlockHeaderRlpPart)
    (hlen : (h.rlp R).length < 2 ^ 64) (hne : h.wrapCustom R ≠ h) :
    (h.wrapCustom R).rlp R ≠ h.rlp R := by
  intro heq
  have hitems : Item.list h.streamRlp = Item.list (h.wrapCustom R).streamRlp :=
    hR.encode_injective hlen heq.symm
  have htail : h.tailItems = (h.wrapCustom R).tailItems := by
    simp only [Item.list.injEq, BlockHeaderRlpPart.streamRlp] at hitems
    exact List.cons_injective (List.append_cancel_left hitems)
  have hcustom : h.custom.map Item.str =
      (h.custom.map fun b => R.encode (.str b)).map Item.str :=
    List.append_cancel_left htail
  have hinj : Function.Injective (List.map Item.str) :=
    List.map_injective_iff.2 fun _ _ hab => Item.str.inj hab
  apply hne
  simp only [BlockHeaderRlpPart.wrapCustom, ← hinj hcustom]

end Encodings

namespace BlockHeader

variable {R : Codec} (keccak : List UInt8 → H256)

/-- `stream.out()` after `stream_rlp_with_pow_hash`. -/
def rlpWithPowHash (R : Codec) (h : BlockHeader) : List UInt8 :=
  R.encode (.list h.streamRlpWithPowHash)

/-- What `rlp::decode` makes of a header's encoding, for every header: the header with each
    custom entry wrapped, no PoW hash, and the hash of the wrapped header. -/
theorem decode_rlp (hR : R.Lawful) (h : BlockHeaderRlpPart) (hlen : (h.rlp R).length < 2 ^ 64) :
    decodeBytes R keccak (h.rlp R) =
      .ok (computeHash R keccak
        { rlpPart := h.wrapCustom R, hash := none, powHash := none,
          approximatedRlpSize := (h.rlp R).length }) := by
  obtain ⟨r, hview, hr⟩ := hR.rlpNew_encode (.list h.streamRlp) hlen
  have hfields : decodeFields R r = .ok { h with custom := [], basePrice := none } :=
    decodeFields_of_reads h h.tailItems r hr
  -- the fourteen items before the tail: the fixed fields and the nonce
  have hpre : R.Reads r (.list ((h.fieldItems ++ [uintItem h.nonce.toNat]) ++ h.tailItems)) := by
    rwa [List.append_assoc, List.singleton_append]
  have hbase : basePriceAt R r 14 = h.basePrice := basePriceAt_tailItems h _ r hpre
  have hcustom : customFrom R r (14 + if h.basePrice.isSome then 1 else 0) =
      .ok (h.custom.map fun b => R.encode (.str b)) :=
    customFrom_tailItems h _ r hpre
  rw [decodeBytes, BlockHeaderRlpPart.rlp, hview]
  simp only [bind, Except.bind, decode, hfields, hbase, hcustom, hr.raw_eq_encode]
  rfl

/-- What `decode_with_pow_hash` makes of the encoding `stream_rlp_with_pow_hash` writes, for
    every header: the header with each custom entry wrapped, its PoW hash, and the hash of
    the wrapped header. -/
theorem decodeWithPowHash_rlp (hR : R.Lawful) (h : BlockHeader)
    (hlen : (h.rlpWithPowHash R).length < 2 ^ 64) :
    decodeWithPowHash R keccak (h.rlpWithPowHash R) =
      .ok (computeHash R keccak
        { rlpPart := h.rlpPart.wrapCustom R, hash := none, powHash := h.powHash,
          approximatedRlpSize := (h.rlpWithPowHash R).length }) := by
  obtain ⟨r, hview, hr⟩ := hR.rlpNew_encode (.list h.streamRlpWithPowHash) hlen
  have hfields : decodeFields R r = .ok { h.rlpPart with custom := [], basePrice := none } :=
    decodeFields_of_reads h.rlpPart _ r hr
  have hpow : R.valAt r (R.decodeOption (R.decodeFixed 32)) 14 = .ok h.powHash :=
    hr.valAt (i := 14) rfl (decodeOption_fixed h.powHash)
  have hcount : R.itemCount r = .ok (15 + h.rlpPart.tailItems.length) := by
    rw [hr.itemCount_list, streamRlpWithPowHash, List.length_append,
      BlockHeaderRlpPart.length_fieldItems, List.length_cons, List.length_cons, headerListMinLen]
    congr 1
    omega
  -- the fifteen items before the tail: the fixed fields, the nonce and the PoW hash
  have hpre : R.Reads r (.list ((h.rlpPart.fieldItems ++ [uintItem h.rlpPart.nonce.toNat,
      optionItem (h.powHash.map FixedBytes.toItem)]) ++ h.rlpPart.tailItems)) := by
    rwa [List.append_assoc]
  have hbase : (if 15 < 15 + h.rlpPart.tailItems.length then basePriceAt R r 15 else none) =
      h.rlpPart.basePrice := by
    split
    case isTrue => exact basePriceAt_tailItems h.rlpPart _ r hpre
    case isFalse hempty =>
      -- nothing after the PoW hash: in particular no base price
      have hlen0 := BlockHeaderRlpPart.length_tailItems h.rlpPart
      cases hp : h.rlpPart.basePrice with
      | none => rfl
      | some p => simp [hp] at hlen0; omega
  have hcustom : customFrom R r (15 + if h.rlpPart.basePrice.isSome then 1 else 0) =
      .ok (h.rlpPart.custom.map fun b => R.encode (.str b)) :=
    customFrom_tailItems h.rlpPart _ r hpre
  rw [decodeWithPowHash, rlpWithPowHash, hview]
  simp only [bind, Except.bind, hfields, hpow, hcount, hbase, hcustom]
  rfl

/-- The round trip through `rlp` and `rlp::decode` gives back the header's fields exactly
    when every custom entry is its own encoding. -/
theorem decode_rlp_eq_iff (hR : R.Lawful) (h : BlockHeaderRlpPart)
    (hlen : (h.rlp R).length < 2 ^ 64) :
    (decodeBytes R keccak (h.rlp R)).map rlpPart = .ok h ↔
      ∀ b ∈ h.custom, R.encode (.str b) = b := by
  rw [decode_rlp keccak hR h hlen, ← wrapCustom_eq_self_iff]
  show (Except.ok (h.wrapCustom R) : Except DecoderError BlockHeaderRlpPart) = .ok h ↔ _
  exact ⟨Except.ok.inj, congrArg Except.ok⟩

/-- For the crate's RLP: the round trip gives back the header's fields exactly when every
    custom entry is a single byte below `0x80`. -/
theorem decode_rlp_eq_iff_single_bytes (h : BlockHeaderRlpPart)
    (hlen : (h.rlp rlpCodec).length < 2 ^ 64) :
    (decodeBytes rlpCodec keccak (h.rlp rlpCodec)).map rlpPart = .ok h ↔
      ∀ b ∈ h.custom, ∃ x, b = [x] ∧ x.toNat < 0x80 := by
  rw [decode_rlp_eq_iff keccak rlpCodec_lawful h hlen]
  exact forall₂_congr fun b _ => encodeStr_eq_self_iff b

/-- A header with a custom entry that is not its own encoding survives neither round trip:
    each decoder returns other fields than the header's, which encode to other bytes, so the
    hash the decoder computes is the hash of other bytes than `h.rlp()`. The PoW hash does come
    back. -/
theorem decode_rlp_wraps_custom (R : Codec) (hR : R.Lawful) (h : BlockHeader)
    (hlen : (h.rlpPart.rlp R).length < 2 ^ 64) (hlenPow : (h.rlpWithPowHash R).length < 2 ^ 64)
    (b : List UInt8) (hb : b ∈ h.rlpPart.custom) (hwrap : R.encode (.str b) ≠ b) :
    (∃ d, decodeBytes R keccak (h.rlpPart.rlp R) = .ok d ∧
      d.rlpPart ≠ h.rlpPart ∧ d.rlpPart.rlp R ≠ h.rlpPart.rlp R) ∧
    (∃ d, decodeWithPowHash R keccak (h.rlpWithPowHash R) = .ok d ∧ d.powHash = h.powHash ∧
      d.rlpPart ≠ h.rlpPart ∧ d.rlpPart.rlp R ≠ h.rlpPart.rlp R) := by
  have hne : h.rlpPart.wrapCustom R ≠ h.rlpPart :=
    fun heq => hwrap ((wrapCustom_eq_self_iff h.rlpPart).1 heq b hb)
  have hrlp := rlp_wrapCustom_ne hR h.rlpPart hlen hne
  exact ⟨⟨_, decode_rlp keccak hR h.rlpPart hlen, hne, hrlp⟩,
    ⟨_, decodeWithPowHash_rlp keccak hR h hlenPow, rfl, hne, hrlp⟩⟩

/-- The all-zero hash. -/
def zeroHash : H256 := ⟨List.replicate 32 0, rfl⟩

/-- A header of zero fields, base price zero, PoW hash zero and the custom entry
    `[0x01, 0x02]`, which the decoders return as `[0x82, 0x01, 0x02]`. -/
def customHeader : BlockHeader where
  rlpPart :=
    { parentHash := zeroHash, height := 0, timestamp := 0, author := ⟨List.replicate 20 0, rfl⟩,
      transactionsRoot := zeroHash, deferredStateRoot := zeroHash,
      deferredReceiptsRoot := zeroHash, deferredLogsBloomHash := zeroHash, blame := 0,
      difficulty := 0, adaptive := false, gasLimit := 0, refereeHashes := [],
      custom := [[0x01, 0x02]], nonce := 0, basePrice := some ⟨0, 0⟩ }
  hash := none
  powHash := some zeroHash
  approximatedRlpSize := 0

theorem decode_rlp_wraps_custom_at_customHeader :
    (∃ d, decodeBytes rlpCodec (fun _ => zeroHash) (customHeader.rlpPart.rlp rlpCodec) = .ok d ∧
      d.rlpPart ≠ customHeader.rlpPart ∧
      d.rlpPart.rlp rlpCodec ≠ customHeader.rlpPart.rlp rlpCodec) ∧
    (∃ d, decodeWithPowHash rlpCodec (fun _ => zeroHash) (customHeader.rlpWithPowHash rlpCodec) =
        .ok d ∧
      d.powHash = customHeader.powHash ∧ d.rlpPart ≠ customHeader.rlpPart ∧
      d.rlpPart.rlp rlpCodec ≠ customHeader.rlpPart.rlp rlpCodec) :=
  decode_rlp_wraps_custom (fun _ => zeroHash) rlpCodec rlpCodec_lawful customHeader
    (by decide +kernel) (by decide +kernel) [0x01, 0x02] (by decide) (by decide)

end BlockHeader

end Mazze.Primitives
