/-
  The part of the `rlp` crate that the encoder and the decoders of a record call, as an
  interface with laws.

  An item is a byte string or a list of items. `RlpStream` writes the items appended to it as
  the bytes of one list. The `Rlp` view of bytes gives the item count of a list, the view of its
  `i`-th item (`at`), the items one by one (`iter`), the raw bytes of a view (`as_raw`), and
  runs a decoder on the payload of a string (`decode_value`). The `Encodable`/`Decodable` pairs
  of unsigned integers, fixed-size byte arrays and options are written over any such codec.

  A codec is lawful when `Rlp::new` reads every encoding back as its item (`Codec.Reads`): the
  raw bytes of a view are the whole encoding of its item, a string decodes from its payload, and
  `at(i)` of a list is a view of its `i`-th item, so that `val_at` inverts `append`.

  Main results:
  * `Codec.Reads.unique`: a view reads as one item at most, so a lawful codec encodes
    injectively (`Codec.Lawful.encode_injective`).
  * `Codec.decodeU64_uintItem` and its siblings: each value decoder reads back what the
    matching `Encodable` appended.
-/
import Mathlib

namespace Rlp

/-- An RLP item: a byte string or a list of items. -/
inductive Item where
  | str (bytes : List UInt8)
  | list (items : List Item)
  deriving Repr

/-- The errors of the `rlp` crate's decoder that the functions below raise. -/
inductive DecoderError where
  | rlpIsTooShort
  | rlpIsTooBig
  | rlpExpectedToBeList
  | rlpExpectedToBeData
  | rlpIncorrectListLen
  | rlpDataLenWithZeroPrefix
  | rlpInvalidIndirection
  deriving Repr, DecidableEq

/-! ## Big-endian integers -/

/-- Minimal big-endian bytes of `n`, with at most `fuel` recursion steps. -/
def toBEAux : Nat → Nat → List UInt8
  | 0, _ => []
  | fuel + 1, n => if n = 0 then [] else toBEAux fuel (n / 256) ++ [UInt8.ofNat (n % 256)]

/-- Minimal big-endian bytes of `n`: no leading zero, `[]` for 0. -/
def toBE (n : Nat) : List UInt8 := toBEAux n n

/-- The number written by big-endian bytes. -/
def ofBE (bytes : List UInt8) : Nat := bytes.foldl (fun acc b => acc * 256 + b.toNat) 0

theorem ofBE_append_singleton (bytes : List UInt8) (b : UInt8) :
    ofBE (bytes ++ [b]) = ofBE bytes * 256 + b.toNat := by
  simp [ofBE, List.foldl_append]

theorem ofBE_toBEAux : ∀ (fuel n : Nat), n ≤ fuel → ofBE (toBEAux fuel n) = n
  | 0, n, h => by
    rw [Nat.le_zero.mp h]
    rfl
  | fuel + 1, n, h => by
    by_cases hn : n = 0
    · simp [toBEAux, hn, ofBE]
    · have hdiv : n / 256 ≤ fuel := by omega
      have hmod : (UInt8.ofNat (n % 256)).toNat = n % 256 := by simp
      rw [toBEAux, if_neg hn, ofBE_append_singleton, ofBE_toBEAux fuel (n / 256) hdiv, hmod]
      omega

theorem ofBE_toBE (n : Nat) : ofBE (toBE n) = n := ofBE_toBEAux n n (Nat.le_refl _)

theorem toBEAux_eq_nil_iff : ∀ (fuel n : Nat), n ≤ fuel → (toBEAux fuel n = [] ↔ n = 0)
  | 0, n, h => by simp [toBEAux]; omega
  | fuel + 1, n, h => by
    by_cases hn : n = 0
    · simp [toBEAux, hn]
    · simp [toBEAux, hn]

theorem toBE_eq_nil_iff (n : Nat) : toBE n = [] ↔ n = 0 := toBEAux_eq_nil_iff n n (Nat.le_refl _)

/-- The first byte of a nonempty `toBE` is not zero. -/
theorem head_toBEAux_ne_zero : ∀ (fuel n : Nat), n ≤ fuel → ∀ b rest,
    toBEAux fuel n = b :: rest → b ≠ 0
  | 0, _, _, _, _, h => by simp [toBEAux] at h
  | fuel + 1, n, hle, b, rest, h => by
    by_cases hn : n = 0
    · simp [toBEAux, hn] at h
    · rw [toBEAux, if_neg hn] at h
      by_cases hq : n / 256 = 0
      · have hnil : toBEAux fuel (n / 256) = [] := (toBEAux_eq_nil_iff fuel _ (by omega)).2 hq
        rw [hnil, List.nil_append, List.cons_eq_cons] at h
        rw [← h.1]
        intro hz
        have hmod : (UInt8.ofNat (n % 256)).toNat = n % 256 := by simp
        rw [hz] at hmod
        simp at hmod
        omega
      · obtain ⟨b', rest', hcons⟩ := List.exists_cons_of_ne_nil
          (mt (toBEAux_eq_nil_iff fuel _ (by omega)).1 hq)
        rw [hcons, List.cons_append, List.cons_eq_cons] at h
        rw [← h.1]
        exact head_toBEAux_ne_zero fuel (n / 256) (by omega) b' rest' hcons

theorem head_toBE_ne_zero {n : Nat} {b : UInt8} {rest : List UInt8} (h : toBE n = b :: rest) :
    b ≠ 0 := head_toBEAux_ne_zero n n (Nat.le_refl _) b rest h

theorem length_toBEAux_le : ∀ (fuel n k : Nat), n < 256 ^ k → (toBEAux fuel n).length ≤ k
  | 0, _, _, _ => by simp [toBEAux]
  | fuel + 1, n, k, h => by
    by_cases hn : n = 0
    · simp [toBEAux, hn]
    · rw [toBEAux, if_neg hn, List.length_append, List.length_singleton]
      cases k with
      | zero => simp at h; omega
      | succ k =>
        have hq : n / 256 < 256 ^ k := by
          rw [Nat.div_lt_iff_lt_mul (by decide)]
          rw [Nat.pow_succ] at h
          exact h
        have := length_toBEAux_le fuel (n / 256) k hq
        omega

/-- Below `256 ^ k` the minimal big-endian form has at most `k` bytes. -/
theorem length_toBE_le {n k : Nat} (h : n < 256 ^ k) : (toBE n).length ≤ k :=
  length_toBEAux_le n n k h

/-- Lengths of at least 56 take at most 8 bytes, so their header byte stays below 256. -/
theorem length_toBE_le_eight {n : Nat} (h : n < 2 ^ 64) : (toBE n).length ≤ 8 :=
  length_toBE_le (by simpa using h)

/-- A byte array of fixed size `n` (`H256`, `Address`). -/
structure FixedBytes (n : Nat) where
  bytes : List UInt8
  length_eq : bytes.length = n
  deriving DecidableEq

/-- The item of an unsigned integer: its bytes without leading zeros. -/
def uintItem (n : Nat) : Item := .str (toBE n)

/-- The item of a fixed-size byte array: its bytes. -/
def FixedBytes.toItem {n : Nat} (h : FixedBytes n) : Item := .str h.bytes

/-- `Encodable for Option`: an empty list for `None`, a list of one item for `Some`. -/
def optionItem : Option Item → Item
  | none => .list []
  | some item => .list [item]


/-- `Decodable for u8`, on the payload. -/
def decodeU8Payload (bytes : List UInt8) : Except DecoderError Nat :=
  match bytes with
  | [] => .ok 0
  | [b] => if b ≠ 0 then .ok b.toNat else .error .rlpInvalidIndirection
  | _ => .error .rlpIsTooBig

/-- `impl_decodable_for_u` for a type of `size` bytes, on the payload: up to one byte goes
    through `u8`, a longer payload must not start with zero. -/
def decodeUintPayload (size : Nat) (bytes : List UInt8) : Except DecoderError Nat :=
  if bytes.length ≤ 1 then decodeU8Payload bytes
  else if bytes.length ≤ size then
    if bytes.headD 0 = 0 then .error .rlpInvalidIndirection else .ok (ofBE bytes)
  else .error .rlpIsTooBig

/-- `impl_uint_rlp` for a big integer of `size` 64-bit words, on the payload. -/
def decodeBigUintPayload (size : Nat) (bytes : List UInt8) : Except DecoderError Nat :=
  if bytes ≠ [] ∧ bytes.headD 0 = 0 then .error .rlpInvalidIndirection
  else if bytes.length ≤ size * 8 then .ok (ofBE bytes)
  else .error .rlpIsTooBig

theorem decodeU8Payload_toBE {n : Nat} (h : n < 256) : decodeU8Payload (toBE n) = .ok n := by
  have hlen : (toBE n).length ≤ 1 := length_toBE_le (by simpa using h)
  match hbe : toBE n, hlen with
  | [], _ =>
    rw [(toBE_eq_nil_iff n).1 hbe]; rfl
  | [b], _ =>
    have hb : b ≠ 0 := head_toBE_ne_zero hbe
    have hval : b.toNat = n := by
      have := ofBE_toBE n; rw [hbe] at this; simpa [ofBE] using this
    simp [decodeU8Payload, hb, hval]

theorem decodeUintPayload_toBE {size n : Nat} (h : n < 256 ^ size) :
    decodeUintPayload size (toBE n) = .ok n := by
  unfold decodeUintPayload
  split
  case isTrue hle => exact decodeU8Payload_toBE (by
    have := ofBE_toBE n
    match hbe : toBE n, hle with
    | [], _ => rw [(toBE_eq_nil_iff n).1 hbe]; decide
    | [b], _ =>
      have hb : b.toNat < 256 := b.toNat_lt
      rw [hbe] at this; simp [ofBE] at this; omega)
  case isFalse hgt =>
    have hle := length_toBE_le h
    obtain ⟨b, rest, hcons⟩ := List.exists_cons_of_ne_nil (show toBE n ≠ [] by
      intro hnil; rw [hnil] at hgt; simp at hgt)
    have hhead : ¬ (toBE n).headD 0 = 0 := by rw [hcons]; exact head_toBE_ne_zero hcons
    rw [if_pos hle, if_neg hhead, ofBE_toBE]

theorem decodeBigUintPayload_toBE {size n : Nat} (h : n < 256 ^ (size * 8)) :
    decodeBigUintPayload size (toBE n) = .ok n := by
  have hlead : ¬ (toBE n ≠ [] ∧ (toBE n).headD 0 = 0) := by
    rintro ⟨hne, hz⟩
    obtain ⟨b, rest, hcons⟩ := List.exists_cons_of_ne_nil hne
    rw [hcons] at hz
    exact head_toBE_ne_zero hcons hz
  rw [decodeBigUintPayload, if_neg hlead, if_pos (length_toBE_le h), ofBE_toBE]

/-! ## The interface -/

/-- What the encoder and the decoders of a record call of the crate: the bytes `RlpStream`
    writes for an item, and the `Rlp` view. -/
structure Codec where
  /-- `Rlp`, a view of the bytes of an item. -/
  View : Type
  /-- `RlpStream::out` once the item is appended. -/
  encode : Item → List UInt8
  /-- `Rlp::new`. -/
  rlpNew : List UInt8 → Except DecoderError View
  /-- `Rlp::as_raw`. -/
  raw : View → List UInt8
  /-- `Rlp::item_count`. -/
  itemCount : View → Except DecoderError Nat
  /-- `Rlp::at`. -/
  «at» : View → Nat → Except DecoderError View
  /-- The views `Rlp::iter` yields. -/
  iter : View → List View
  /-- `Decoder::decode_value`: a decoder of the payload of a string, run on the view. -/
  decodeValue : {α : Type} → (List UInt8 → Except DecoderError α) → View → Except DecoderError α

namespace Codec

variable (R : Codec)

/-- `Rlp::val_at` for a decoder `dec`. -/
def valAt {α : Type} (v : R.View) (dec : R.View → Except DecoderError α) (i : Nat) :
    Except DecoderError α := R.at v i >>= dec

/-- `Rlp::as_list` for an element decoder `dec`. -/
def asList {α : Type} (v : R.View) (dec : R.View → Except DecoderError α) :
    Except DecoderError (List α) := (R.iter v).mapM dec

def decodeU8 : R.View → Except DecoderError UInt8 :=
  R.decodeValue fun bytes => (decodeU8Payload bytes).map UInt8.ofNat

def decodeU32 : R.View → Except DecoderError UInt32 :=
  R.decodeValue fun bytes => (decodeUintPayload 4 bytes).map UInt32.ofNat

def decodeU64 : R.View → Except DecoderError UInt64 :=
  R.decodeValue fun bytes => (decodeUintPayload 8 bytes).map UInt64.ofNat

def decodeU256 : R.View → Except DecoderError (BitVec 256) :=
  R.decodeValue fun bytes => (decodeBigUintPayload 4 bytes).map (BitVec.ofNat 256)

/-- `impl_fixed_hash_rlp`: the payload must have exactly `n` bytes. -/
def decodeFixed (n : Nat) : R.View → Except DecoderError (FixedBytes n) :=
  R.decodeValue fun bytes =>
    if bytes.length < n then .error .rlpIsTooShort
    else if h : bytes.length = n then .ok ⟨bytes, h⟩
    else .error .rlpIsTooBig

/-- `Decodable for Option`: a list of no item or of one. -/
def decodeOption {α : Type} (dec : R.View → Except DecoderError α) (v : R.View) :
    Except DecoderError (Option α) := do
  let count ← R.itemCount v
  match count with
  | 1 => (R.valAt v dec 0).map some
  | 0 => .ok none
  | _ => .error .rlpIncorrectListLen

/-! ## Laws -/

/-- `v` is a view of `item`. Its raw bytes are the item's whole encoding. A string decodes from
    its payload and has no item count. A list has the count of its items, and `at(i)` and
    `iter` give views of its items, `at` failing past the end. -/
inductive Reads : R.View → Item → Prop
  | str {v : R.View} {bytes : List UInt8}
      (raw_eq : R.raw v = R.encode (.str bytes))
      (decodeValue_eq : ∀ {α : Type} (f : List UInt8 → Except DecoderError α),
        R.decodeValue f v = f bytes)
      (itemCount_error : ∃ e, R.itemCount v = .error e) :
      Reads v (.str bytes)
  | list {v : R.View} {items : List Item} (views : List R.View)
      (raw_eq : R.raw v = R.encode (.list items))
      (itemCount_eq : R.itemCount v = .ok items.length)
      (length_eq : views.length = items.length)
      (at_lt : ∀ i (h : i < views.length), R.at v i = .ok views[i])
      (at_ge : ∀ i, views.length ≤ i → ∃ e, R.at v i = .error e)
      (iter_eq : R.iter v = views)
      (reads : ∀ i (hv : i < views.length) (hi : i < items.length), Reads views[i] items[i]) :
      Reads v (.list items)

/-- The law of a codec: `Rlp::new` of the bytes `RlpStream` writes for an item is a view of the
    item, for every encoding whose length the decoder's `usize` holds. -/
structure Lawful : Prop where
  rlpNew_encode : ∀ item, (R.encode item).length < 2 ^ 64 →
    ∃ v, R.rlpNew (R.encode item) = .ok v ∧ R.Reads v item

variable {R} {v : R.View} {α : Type}

/-! ## Reading views -/

/-- `as_raw` is the whole encoding. -/
theorem Reads.raw_eq_encode {item : Item} (h : R.Reads v item) : R.raw v = R.encode item := by
  cases h with
  | str raw_eq => exact raw_eq
  | list views raw_eq => exact raw_eq

theorem Reads.decodeValue {bytes : List UInt8} (h : R.Reads v (.str bytes))
    (f : List UInt8 → Except DecoderError α) : R.decodeValue f v = f bytes := by
  cases h with
  | str _ decodeValue_eq => exact decodeValue_eq f

theorem Reads.itemCount_str {bytes : List UInt8} (h : R.Reads v (.str bytes)) :
    ∃ e, R.itemCount v = .error e := by
  cases h with
  | str _ _ itemCount_error => exact itemCount_error

theorem Reads.itemCount_list {items : List Item} (h : R.Reads v (.list items)) :
    R.itemCount v = .ok items.length := by
  cases h with
  | list views _ itemCount_eq => exact itemCount_eq

/-- `at(i)` of a list inside it: a view of the `i`-th item. -/
theorem Reads.at_of_getElem? {items : List Item} {i : Nat} {item : Item}
    (h : R.Reads v (.list items)) (hi : items[i]? = some item) :
    ∃ w, R.at v i = .ok w ∧ R.Reads w item := by
  obtain ⟨hlt, rfl⟩ := List.getElem?_eq_some_iff.1 hi
  cases h with
  | list views _ _ length_eq at_lt _ _ reads =>
    have hv : i < views.length := length_eq ▸ hlt
    exact ⟨views[i], at_lt i hv, reads i hv hlt⟩

/-- `at(i)` past the end of a list fails. -/
theorem Reads.at_of_length_le {items : List Item} {i : Nat} (h : R.Reads v (.list items))
    (hi : items.length ≤ i) : ∃ e, R.at v i = .error e := by
  cases h with
  | list views _ _ length_eq _ at_ge => exact at_ge i (length_eq ▸ hi)

/-- `val_at` inverts `append`: a decoder that reads an item back reads it back at its index. -/
theorem Reads.valAt {items : List Item} {i : Nat} {item : Item}
    {dec : R.View → Except DecoderError α} {x : α} (h : R.Reads v (.list items))
    (hi : items[i]? = some item) (hdec : ∀ w, R.Reads w item → dec w = .ok x) :
    R.valAt v dec i = .ok x := by
  obtain ⟨w, hat, hw⟩ := h.at_of_getElem? hi
  rw [Codec.valAt, hat]
  exact hdec w hw

theorem Reads.iter {items : List Item} (h : R.Reads v (.list items)) :
    List.Forall₂ R.Reads (R.iter v) items := by
  cases h with
  | list views _ _ length_eq _ _ iter_eq reads =>
    rw [iter_eq, List.forall₂_iff_get]
    exact ⟨length_eq, fun i hv hi => reads i hv hi⟩

/-- Reading the raw bytes of a list's items from index `pre.length` on, one `at` after the other,
    gives the encodings of the items after `pre`. -/
theorem Reads.mapM_range'_raw {pre post : List Item} (h : R.Reads v (.list (pre ++ post))) :
    (List.range' pre.length post.length).mapM (fun i => (R.at v i).map R.raw) =
      .ok (post.map R.encode) := by
  induction post generalizing pre with
  | nil => rfl
  | cons item post ih =>
    obtain ⟨w, hat, hw⟩ : ∃ w, R.at v pre.length = .ok w ∧ R.Reads w item :=
      h.at_of_getElem? (by simp)
    have hrest := @ih (pre ++ [item]) (by rwa [List.append_assoc, List.singleton_append])
    rw [List.length_append, List.length_singleton] at hrest
    rw [List.length_cons, List.range'_succ, List.mapM_cons, hat, hrest]
    simp only [Except.map, hw.raw_eq_encode, List.map_cons]
    rfl

/-- A view reads as one item at most. -/
theorem Reads.unique {a b : Item} (ha : R.Reads v a) (hb : R.Reads v b) : a = b := by
  induction ha generalizing b with
  | str _ decodeValue_eq itemCount_error =>
    cases hb with
    | str _ decodeValue_eq' =>
      -- the identity on payloads returns each string
      have hpayload := (decodeValue_eq (α := List UInt8) Except.ok).symm.trans
        (decodeValue_eq' Except.ok)
      rw [Except.ok.inj hpayload]
    | list _ _ itemCount_eq =>
      obtain ⟨e, he⟩ := itemCount_error
      rw [itemCount_eq] at he
      cases he
  | list views _ itemCount_eq length_eq at_lt _ _ _ ih =>
    cases hb with
    | str _ _ itemCount_error =>
      obtain ⟨e, he⟩ := itemCount_error
      rw [itemCount_eq] at he
      cases he
    | list views' _ itemCount_eq' length_eq' at_lt' _ _ reads' =>
      have hlen := Except.ok.inj (itemCount_eq.symm.trans itemCount_eq')
      congr 1
      refine List.ext_getElem hlen fun i hi hi' => ?_
      have hv : i < views.length := length_eq ▸ hi
      have hv' : i < views'.length := length_eq' ▸ hi'
      -- both views of the `i`-th item are `at(i)`
      have hw : views'[i] = views[i] := Except.ok.inj ((at_lt' i hv').symm.trans (at_lt i hv))
      exact ih i hv hi (hw ▸ reads' i hv' hi')

/-- A lawful codec encodes injectively: the encoding is read back to its item. -/
theorem Lawful.encode_injective (hR : R.Lawful) {a b : Item}
    (hlt : (R.encode a).length < 2 ^ 64) (h : R.encode a = R.encode b) : a = b := by
  obtain ⟨v, hv, ha⟩ := hR.rlpNew_encode a hlt
  obtain ⟨w, hw, hb⟩ := hR.rlpNew_encode b (h ▸ hlt)
  rw [h, hw] at hv
  obtain rfl := Except.ok.inj hv
  exact ha.unique hb

/-! ## Values read back -/

theorem decodeU8_uintItem (x : UInt8) (w : R.View) (h : R.Reads w (uintItem x.toNat)) :
    R.decodeU8 w = .ok x := by
  rw [decodeU8, h.decodeValue, decodeU8Payload_toBE x.toNat_lt]
  simp [Except.map]

theorem decodeU32_uintItem (x : UInt32) (w : R.View) (h : R.Reads w (uintItem x.toNat)) :
    R.decodeU32 w = .ok x := by
  rw [decodeU32, h.decodeValue, decodeUintPayload_toBE (show x.toNat < 256 ^ 4 from x.toNat_lt)]
  simp [Except.map]

theorem decodeU64_uintItem (x : UInt64) (w : R.View) (h : R.Reads w (uintItem x.toNat)) :
    R.decodeU64 w = .ok x := by
  rw [decodeU64, h.decodeValue, decodeUintPayload_toBE (show x.toNat < 256 ^ 8 from x.toNat_lt)]
  simp [Except.map]

theorem decodeU256_uintItem (x : BitVec 256) (w : R.View) (h : R.Reads w (uintItem x.toNat)) :
    R.decodeU256 w = .ok x := by
  rw [decodeU256, h.decodeValue,
    decodeBigUintPayload_toBE (show x.toNat < 256 ^ (4 * 8) from x.isLt)]
  simp [Except.map]

theorem decodeFixed_toItem {n : Nat} (x : FixedBytes n) (w : R.View) (h : R.Reads w x.toItem) :
    R.decodeFixed n w = .ok x := by
  rw [decodeFixed, h.decodeValue]
  simp [x.length_eq]

theorem decodeOption_none (dec : R.View → Except DecoderError α) (w : R.View)
    (h : R.Reads w (optionItem none)) : R.decodeOption dec w = .ok none := by
  simp [decodeOption, h.itemCount_list, bind, Except.bind]

theorem decodeOption_some {dec : R.View → Except DecoderError α} {item : Item} {x : α}
    (hdec : ∀ w, R.Reads w item → dec w = .ok x) (w : R.View)
    (h : R.Reads w (optionItem (some item))) : R.decodeOption dec w = .ok (some x) := by
  simp [decodeOption, h.itemCount_list, bind, Except.bind, h.valAt (i := 0) rfl hdec, Except.map]

/-- A string is not an option: decoding one as an option fails. -/
theorem decodeOption_str {bytes : List UInt8} (dec : R.View → Except DecoderError α)
    (w : R.View) (h : R.Reads w (.str bytes)) : ∃ e, R.decodeOption dec w = .error e := by
  obtain ⟨e, he⟩ := h.itemCount_str
  exact ⟨e, by simp [decodeOption, he, bind, Except.bind]⟩

theorem decodeOption_fixed {n : Nat} (o : Option (FixedBytes n)) (w : R.View)
    (h : R.Reads w (optionItem (o.map FixedBytes.toItem))) :
    R.decodeOption (R.decodeFixed n) w = .ok o := by
  cases o with
  | none => exact decodeOption_none _ w h
  | some x => exact decodeOption_some (decodeFixed_toItem x) w h

/-- `as_list` reads back a list whose elements each decode back. -/
theorem asList_map {β : Type} {f : β → Item} {dec : R.View → Except DecoderError β}
    (hdec : ∀ x w, R.Reads w (f x) → dec w = .ok x) {xs : List β} (w : R.View)
    (h : R.Reads w (.list (xs.map f))) : R.asList w dec = .ok xs := by
  rw [asList]
  -- the views `iter` yields, one for each element
  have hall := h.iter
  generalize R.iter w = ws at hall ⊢
  clear h
  induction xs generalizing ws with
  | nil =>
    rw [List.map_nil, List.forall₂_nil_right_iff] at hall
    rw [hall]
    rfl
  | cons x xs ih =>
    obtain ⟨w', ws', hw', hrest, rfl⟩ := List.forall₂_cons_right_iff.1 hall
    rw [List.mapM_cons, hdec x w' hw', ih ws' hrest]
    rfl

end Codec

end Rlp
