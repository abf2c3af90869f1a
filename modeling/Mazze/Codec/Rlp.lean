/-
  Recursive Length Prefix encoding, as the `rlp` crate implements it, and the crate as a lawful
  `Codec`.

  A string of one byte below `0x80` is that byte; a string or list payload of fewer than 56
  bytes gets the one-byte header `0x80 + len` (`0xc0 + len` for a list); a longer one gets
  `0xb7` (`0xf7`) plus the length of its length, then the length, big-endian without leading
  zeros.

  The decoder side is the crate's `Rlp` view: `readItem` parses the item at the front of a
  byte string into a `View`, which keeps the raw bytes of the item (`as_raw`) next to its
  payload or its items. Header checks are those of `PayloadInfo::from`; the check of a
  single byte written with a header belongs to `decode_value`, so it sits in `decodeValue`.
  The crate parses lazily; `readItem` parses the whole item at once, with a `fuel` that
  bounds the nesting.

  Main results:
  * `readItem_encode`: parsing the encoding of an item, followed by anything, gives back the
    item's view (raw bytes = the encoding) and the rest.
  * `rlpCodec_lawful`: the crate is a lawful codec.
  * `encodeStr_eq_self_iff`: the only strings it encodes as themselves are the single bytes
    below `0x80`.
-/
import Mazze.Codec.RlpCodec

namespace Rlp

/-! ## Encoding -/

/-- The header of a payload of length `len`: one byte `offset + len` below 56, else
    `offset + 55 +` the length of the length, then the length. `offset` is `0x80` for a
    string and `0xc0` for a list. -/
def encodeLength (len offset : Nat) : List UInt8 :=
  if len < 56 then [UInt8.ofNat (offset + len)]
  else UInt8.ofNat (offset + 55 + (toBE len).length) :: toBE len

/-- `RlpStream::append` of a byte string: a single byte below `0x80` is written as itself. -/
def encodeStr (bytes : List UInt8) : List UInt8 :=
  match bytes with
  | [b] => if b.toNat < 0x80 then [b] else encodeLength 1 0x80 ++ [b]
  | _ => encodeLength bytes.length 0x80 ++ bytes

mutual
/-- The encoding of an item. -/
def encode : Item → List UInt8
  | .str bytes => encodeStr bytes
  | .list items => encodeLength (encodeItems items).length 0xc0 ++ encodeItems items

/-- The concatenated encodings of a list's items: its payload. -/
def encodeItems : List Item → List UInt8
  | [] => []
  | item :: items => encode item ++ encodeItems items
end

/-! ## The `Rlp` view -/

/-- An item as the crate's `Rlp` view sees it: its raw bytes (header included) and, inside,
    the payload of a string or the views of a list's items. -/
inductive View where
  | str (raw payload : List UInt8)
  | list (raw : List UInt8) (items : List View)
  deriving Repr

/-- `Rlp::as_raw`. -/
def View.raw : View → List UInt8
  | .str raw _ => raw
  | .list raw _ => raw

/-- `decode_usize` of the bytes of a length. -/
def decodeUsize (bytes : List UInt8) : Except DecoderError Nat :=
  if bytes.length > 8 then .error .rlpIsTooBig
  else if bytes.headD 0 = 0 then .error .rlpInvalidIndirection
  else .ok (ofBE bytes)

/-- `calculate_payload_info` for a long header whose length takes `lenOfLen` bytes. -/
def calculatePayloadInfo (rest : List UInt8) (lenOfLen : Nat) : Except DecoderError (Nat × Nat) :=
  match rest with
  | [] => .error .rlpIsTooShort
  | b :: _ =>
    if b = 0 then .error .rlpDataLenWithZeroPrefix
    else if rest.length < lenOfLen then .error .rlpIsTooShort
    else do
      let valueLen ← decodeUsize (rest.take lenOfLen)
      if valueLen ≤ 55 then .error .rlpInvalidIndirection
      else .ok (1 + lenOfLen, valueLen)

/-- `PayloadInfo::from`: the header length and the value length of the item in front. -/
def payloadInfo (bytes : List UInt8) : Except DecoderError (Nat × Nat) :=
  match bytes with
  | [] => .error .rlpIsTooShort
  | l :: rest =>
    if l.toNat ≤ 0x7f then .ok (0, 1)
    else if l.toNat ≤ 0xb7 then .ok (1, l.toNat - 0x80)
    else if l.toNat ≤ 0xbf then calculatePayloadInfo rest (l.toNat - 0xb7)
    else if l.toNat ≤ 0xf7 then .ok (1, l.toNat - 0xc0)
    else calculatePayloadInfo rest (l.toNat - 0xf7)

mutual
/-- The view of the item in front of `bytes` and the bytes after it; `fuel` bounds the
    nesting. -/
def readItem : Nat → List UInt8 → Except DecoderError (View × List UInt8)
  | 0, _ => .error .rlpIsTooShort
  | fuel + 1, bytes => do
    let (headerLen, valueLen) ← payloadInfo bytes
    if bytes.length < headerLen + valueLen then .error .rlpIsTooShort
    else
      let raw := bytes.take (headerLen + valueLen)
      let payload := (bytes.drop headerLen).take valueLen
      let rest := bytes.drop (headerLen + valueLen)
      if 0xc0 ≤ (bytes.headD 0).toNat then do
        let items ← readItems fuel payload
        .ok (.list raw items, rest)
      else .ok (.str raw payload, rest)

/-- The views of the items of a list payload. -/
def readItems : Nat → List UInt8 → Except DecoderError (List View)
  | _, [] => .ok []
  | 0, _ :: _ => .error .rlpIsTooShort
  | fuel + 1, bytes => do
    let (item, rest) ← readItem fuel bytes
    let items ← readItems fuel rest
    .ok (item :: items)
end

/-! ## Decoding values -/

/-- `Decoder::decode_value`: run `f` on the payload of a string; a single byte below `0x80`
    written with a header is not canonical. -/
def decodeValue {α : Type} (f : List UInt8 → Except DecoderError α) : View → Except DecoderError α
  | .str raw payload =>
    match raw with
    | [0x81, b] => if b.toNat < 0x80 then .error .rlpInvalidIndirection else f payload
    | _ => f payload
  | .list _ _ => .error .rlpExpectedToBeData

/-- `Rlp::item_count`. -/
def View.itemCount : View → Except DecoderError Nat
  | .list _ items => .ok items.length
  | .str _ _ => .error .rlpExpectedToBeList

/-- `Rlp::at`. -/
def View.at (v : View) (i : Nat) : Except DecoderError View :=
  match v with
  | .list _ items =>
    match items[i]? with
    | some item => .ok item
    | none => .error .rlpIsTooShort
  | .str _ _ => .error .rlpExpectedToBeList

/-! ## Reading back the headers -/

theorem decodeUsize_toBE {n : Nat} (hpos : 0 < n) (hlt : n < 2 ^ 64) :
    decodeUsize (toBE n) = .ok n := by
  obtain ⟨b, rest, hcons⟩ := List.exists_cons_of_ne_nil (mt (toBE_eq_nil_iff n).1 (by omega))
  have hb : b ≠ 0 := head_toBE_ne_zero hcons
  have hlen : ¬ (toBE n).length > 8 := by have := length_toBE_le_eight hlt; omega
  have hhead : ¬ (toBE n).headD 0 = 0 := by rw [hcons]; exact hb
  rw [decodeUsize, if_neg hlen, if_neg hhead, ofBE_toBE]

theorem calculatePayloadInfo_toBE {n : Nat} (r : List UInt8) (h56 : 56 ≤ n) (hlt : n < 2 ^ 64) :
    calculatePayloadInfo (toBE n ++ r) (toBE n).length = .ok (1 + (toBE n).length, n) := by
  obtain ⟨b, rest, hcons⟩ := List.exists_cons_of_ne_nil (mt (toBE_eq_nil_iff n).1 (by omega))
  have hb : b ≠ 0 := head_toBE_ne_zero hcons
  have htake : (toBE n ++ r).take (toBE n).length = toBE n := List.take_left
  have hshort : ¬ (toBE n ++ r).length < (toBE n).length := by simp
  have hbig : ¬ n ≤ 55 := by omega
  have hbytes : toBE n ++ r = b :: (rest ++ r) := by rw [hcons, List.cons_append]
  unfold calculatePayloadInfo
  rw [hbytes]
  simp only [if_neg hb]
  rw [← hbytes, if_neg hshort, htake, decodeUsize_toBE (by omega) hlt]
  simp only [bind, Except.bind, if_neg hbig]

/-- The header byte of `encodeLength len offset`, as a number. -/
theorem toNat_headD_encodeLength {len offset : Nat} (r : List UInt8) (hoff : offset ≤ 0xc0)
    (hlt : len < 2 ^ 64) :
    ((encodeLength len offset ++ r).headD 0).toNat =
      if len < 56 then offset + len else offset + 55 + (toBE len).length := by
  have hk := length_toBE_le_eight hlt
  unfold encodeLength
  split
  · simp only [List.cons_append, List.nil_append, List.headD_cons, UInt8.toNat_ofNat']
    omega
  · simp only [List.cons_append, List.headD_cons, UInt8.toNat_ofNat']
    omega

theorem payloadInfo_encodeLength {len offset : Nat} (r : List UInt8)
    (hoff : offset = 0x80 ∨ offset = 0xc0) (hlt : len < 2 ^ 64) :
    payloadInfo (encodeLength len offset ++ r) = .ok ((encodeLength len offset).length, len) := by
  have hbyte := toNat_headD_encodeLength r (by rcases hoff with h | h <;> omega : offset ≤ 0xc0) hlt
  unfold encodeLength at hbyte ⊢
  split
  case isTrue h56 =>
    simp only [h56, if_true, List.cons_append, List.nil_append, List.headD_cons] at hbyte
    simp only [List.cons_append, List.nil_append, payloadInfo, hbyte, List.length_singleton]
    rcases hoff with rfl | rfl
    · rw [if_neg (by omega), if_pos (by omega), Nat.add_sub_cancel_left]
    · rw [if_neg (by omega), if_neg (by omega), if_neg (by omega), if_pos (by omega),
        Nat.add_sub_cancel_left]
  case isFalse h56 =>
    have hk := length_toBE_le_eight hlt
    have hk1 : 0 < (toBE len).length :=
      List.length_pos_of_ne_nil (mt (toBE_eq_nil_iff len).1 (by omega))
    simp only [h56, if_false, List.cons_append, List.headD_cons] at hbyte
    simp only [List.cons_append, payloadInfo, hbyte, List.length_cons]
    rcases hoff with rfl | rfl
    · rw [if_neg (by omega), if_neg (by omega), if_pos (by omega),
        show 0x80 + 55 + (toBE len).length - 0xb7 = (toBE len).length by omega,
        calculatePayloadInfo_toBE r (by omega) hlt, Nat.add_comm]
    · rw [if_neg (by omega), if_neg (by omega), if_neg (by omega), if_neg (by omega),
        show 0xc0 + 55 + (toBE len).length - 0xf7 = (toBE len).length by omega,
        calculatePayloadInfo_toBE r (by omega) hlt, Nat.add_comm]

theorem encodeLength_ne_nil (len offset : Nat) : encodeLength len offset ≠ [] := by
  unfold encodeLength
  split <;> simp

/-- A string payload behind its header reads back as that payload. -/
theorem readItem_encodeLength_str (fuel : Nat) (p rest : List UInt8) (hlt : p.length < 2 ^ 64) :
    readItem (fuel + 1) (encodeLength p.length 0x80 ++ p ++ rest) =
      .ok (.str (encodeLength p.length 0x80 ++ p) p, rest) := by
  have hinfo := payloadInfo_encodeLength (p ++ rest) (Or.inl rfl) hlt
  have hbyte := toNat_headD_encodeLength (p ++ rest) (by decide : 0x80 ≤ 0xc0) hlt
  have hk := length_toBE_le_eight hlt
  have hstr : ¬ 0xc0 ≤ ((encodeLength p.length 0x80 ++ (p ++ rest)).headD 0).toNat := by
    rw [hbyte]; split <;> omega
  rw [List.append_assoc] at ⊢
  simp only [readItem, hinfo, bind, Except.bind, List.length_append, if_neg hstr]
  rw [if_neg (by omega)]
  simp [List.take_append, List.drop_append, List.take_of_length_le]

/-- A list payload behind its header reads back as the items read from it. -/
theorem readItem_encodeLength_list (fuel : Nat) (p rest : List UInt8) (hlt : p.length < 2 ^ 64)
    {items : List View} (hitems : readItems fuel p = .ok items) :
    readItem (fuel + 1) (encodeLength p.length 0xc0 ++ p ++ rest) =
      .ok (.list (encodeLength p.length 0xc0 ++ p) items, rest) := by
  have hinfo := payloadInfo_encodeLength (p ++ rest) (Or.inr rfl) hlt
  have hbyte := toNat_headD_encodeLength (p ++ rest) (Nat.le_refl 0xc0) hlt
  have hlist : 0xc0 ≤ ((encodeLength p.length 0xc0 ++ (p ++ rest)).headD 0).toNat := by
    rw [hbyte]; split <;> omega
  have hpayload : ((encodeLength p.length 0xc0 ++ (p ++ rest)).drop
      (encodeLength p.length 0xc0).length).take p.length = p := by simp
  rw [List.append_assoc] at ⊢
  simp only [readItem, hinfo, bind, Except.bind, List.length_append, if_pos hlist]
  rw [if_neg (by omega), hpayload, hitems]
  simp [List.take_append, List.drop_append, List.take_of_length_le]

theorem readItem_encodeStr (fuel : Nat) (bytes rest : List UInt8) (hlt : bytes.length < 2 ^ 64) :
    readItem (fuel + 1) (encodeStr bytes ++ rest) = .ok (.str (encodeStr bytes) bytes, rest) := by
  unfold encodeStr
  split
  case h_1 b =>
    split
    case isTrue hb =>
      -- a single byte below `0x80` is its own encoding, with header length 0
      have hinfo : payloadInfo (b :: rest) = .ok (0, 1) := by
        simp only [payloadInfo, if_pos (by omega : b.toNat ≤ 0x7f)]
      have hstr : ¬ 0xc0 ≤ ((b :: rest).headD 0).toNat := by simp; omega
      simp only [List.cons_append, List.nil_append, readItem, hinfo, bind, Except.bind,
        if_neg hstr, List.length_cons]
      rw [if_neg (by omega)]
      simp
    case isFalse => exact readItem_encodeLength_str fuel [b] rest hlt
  case h_2 => exact readItem_encodeLength_str fuel bytes rest hlt

/-! ## Round trip -/

mutual
/-- The view the parser builds of an encoded item. -/
def toView : Item → View
  | .str bytes => .str (encodeStr bytes) bytes
  | .list items => .list (encode (.list items)) (toViews items)

def toViews : List Item → List View
  | [] => []
  | item :: items => toView item :: toViews items
end

mutual
/-- The fuel `readItem` needs for an item: one step per nesting level and per list element. -/
def need : Item → Nat
  | .str _ => 1
  | .list items => needItems items + 1

def needItems : List Item → Nat
  | [] => 0
  | item :: items => max (need item) (needItems items) + 1
end

theorem encode_ne_nil (item : Item) : encode item ≠ [] := by
  cases item with
  | str bytes =>
    rw [encode]
    unfold encodeStr
    split
    case h_1 => split <;> simp
    case h_2 => exact List.append_ne_nil_of_left_ne_nil (encodeLength_ne_nil _ _) _
  | list items => exact List.append_ne_nil_of_left_ne_nil (encodeLength_ne_nil _ _) _

theorem length_encode_list (items : List Item) :
    (encode (.list items)).length = (encodeLength (encodeItems items).length 0xc0).length +
      (encodeItems items).length := by
  rw [encode, List.length_append]

mutual
theorem readItem_encode : (item : Item) → (fuel : Nat) → (rest : List UInt8) →
    need item ≤ fuel → (encode item).length < 2 ^ 64 →
    readItem fuel (encode item ++ rest) = .ok (toView item, rest)
  | .str bytes, fuel, rest, hfuel, hlt => by
    obtain ⟨f, rfl⟩ : ∃ f, fuel = f + 1 := ⟨fuel - 1, by simp [need] at hfuel; omega⟩
    have hlen : bytes.length < 2 ^ 64 := by
      have : bytes.length ≤ (encodeStr bytes).length := by
        unfold encodeStr; split
        · split <;> simp
        · simp
      rw [encode] at hlt; omega
    rw [encode, readItem_encodeStr f bytes rest hlen, toView]
  | .list items, fuel, rest, hfuel, hlt => by
    obtain ⟨f, rfl⟩ : ∃ f, fuel = f + 1 := ⟨fuel - 1, by simp [need] at hfuel; omega⟩
    have hlen : (encodeItems items).length < 2 ^ 64 := by
      have := length_encode_list items; omega
    have hitems := readItems_encodeItems items f (by simp [need] at hfuel; omega) hlen
    rw [encode, readItem_encodeLength_list f _ rest hlen hitems, toView, encode]
theorem readItems_encodeItems : (items : List Item) → (fuel : Nat) →
    needItems items ≤ fuel → (encodeItems items).length < 2 ^ 64 →
    readItems fuel (encodeItems items) = .ok (toViews items)
  | [], fuel, _, _ => by cases fuel <;> rfl
  | item :: items, fuel, hfuel, hlt => by
    obtain ⟨f, rfl⟩ : ∃ f, fuel = f + 1 := ⟨fuel - 1, by simp [needItems] at hfuel; omega⟩
    have hmax : need item ≤ f ∧ needItems items ≤ f := by simp [needItems] at hfuel; omega
    have hlen : (encode item).length < 2 ^ 64 ∧ (encodeItems items).length < 2 ^ 64 := by
      rw [encodeItems, List.length_append] at hlt; omega
    obtain ⟨b, bs, hcons⟩ := List.exists_cons_of_ne_nil (encode_ne_nil item)
    have hhead := readItem_encode item f (encodeItems items) hmax.1 hlen.1
    have htail := readItems_encodeItems items f hmax.2 hlen.2
    rw [encodeItems, hcons, List.cons_append]
    rw [hcons, List.cons_append] at hhead
    simp only [readItems, hhead, htail, bind, Except.bind, toViews]
end

mutual
theorem need_add_one_le : (item : Item) → need item + 1 ≤ 2 * (encode item).length
  | .str bytes => by
    have := List.length_pos_of_ne_nil (encode_ne_nil (.str bytes))
    simp only [need]; omega
  | .list items => by
    have hhead := List.length_pos_of_ne_nil (encodeLength_ne_nil (encodeItems items).length 0xc0)
    have hitems := needItems_le items
    rw [need, length_encode_list]; omega
theorem needItems_le : (items : List Item) → needItems items ≤ 2 * (encodeItems items).length
  | [] => by simp [needItems]
  | item :: items => by
    have hhead := need_add_one_le item
    have htail := needItems_le items
    have hpos := List.length_pos_of_ne_nil (encode_ne_nil item)
    rw [needItems, encodeItems, List.length_append]; omega
end

/-- `Rlp::new(bytes)`, with the item in front of `bytes` parsed at once; twice the length of
    the input is enough fuel for any item it holds. -/
def rlpNew (bytes : List UInt8) : Except DecoderError View :=
  (readItem (2 * bytes.length) bytes).map Prod.fst

/-- The view of an encoding is the item's view. -/
theorem rlpNew_encode (item : Item) (hlt : (encode item).length < 2 ^ 64) :
    rlpNew (encode item) = .ok (toView item) := by
  have hfuel : need item ≤ 2 * (encode item).length := by have := need_add_one_le item; omega
  have := readItem_encode item _ [] hfuel hlt
  rw [List.append_nil] at this
  rw [rlpNew, this]
  rfl

/-! ## Values read back -/

/-- A string item's view decodes as its payload: its raw form is never a single byte below
    `0x80` behind a header. -/
@[simp] theorem decodeValue_toView_str {α : Type} (f : List UInt8 → Except DecoderError α)
    (bytes : List UInt8) : decodeValue f (toView (.str bytes)) = f bytes := by
  simp only [toView, decodeValue]
  split
  case h_1 b heq =>
    -- the raw bytes are `[0x81, b]` only for the string `[b]` with `b ≥ 0x80`
    have hb : ¬ b.toNat < 0x80 := by
      revert heq
      unfold encodeStr
      split
      case h_1 c =>
        split
        case isTrue => simp
        case isFalse hc =>
          simp only [encodeLength, List.cons_append, List.nil_append, List.cons.injEq,
            if_pos (by decide : 1 < 56), and_true]
          rintro ⟨-, rfl⟩ hb
          exact hc hb
      case h_2 hne =>
        unfold encodeLength
        split
        · simp only [List.cons_append, List.nil_append, List.cons.injEq]
          rintro ⟨_, rfl⟩
          exact absurd rfl (hne b)
        · intro h
          have := congrArg List.length h
          simp at this; omega
    rw [if_neg hb]
  case h_2 => rfl

theorem toViews_eq_map : (items : List Item) → toViews items = items.map toView
  | [] => rfl
  | item :: items => by rw [toViews, toViews_eq_map items, List.map_cons]

@[simp] theorem itemCount_toView_list (items : List Item) :
    (toView (.list items)).itemCount = .ok items.length := by
  simp [toView, View.itemCount, toViews_eq_map]

/-- The only byte strings that are their own encoding are the single bytes below `0x80`. -/
theorem encodeStr_eq_self_iff (bytes : List UInt8) :
    encodeStr bytes = bytes ↔ ∃ b, bytes = [b] ∧ b.toNat < 0x80 := by
  constructor
  · unfold encodeStr
    split
    case h_1 b =>
      split
      case isTrue hb => exact fun _ => ⟨b, rfl, hb⟩
      case isFalse =>
        intro heq
        have := congrArg List.length heq
        simp [encodeLength] at this
    case h_2 =>
      intro heq
      have hlen := congrArg List.length heq
      have hpos := List.length_pos_of_ne_nil (encodeLength_ne_nil bytes.length 0x80)
      rw [List.length_append] at hlen
      omega
  · rintro ⟨b, rfl, hb⟩
    simp [encodeStr, hb]

example : encodeStr [0x01, 0x02] = [0x82, 0x01, 0x02] := by decide

/-! ## The crate as a codec -/

/-- The views `Rlp::iter` yields: the items of a list, and none of a string, where the first
    `at` already fails. -/
def View.iter : View → List View
  | .list _ items => items
  | .str _ _ => []

/-- The `rlp` crate: `RlpStream` writes `encode`, and `Rlp::new` parses with `rlpNew`. -/
def rlpCodec : Codec where
  View := View
  encode := encode
  rlpNew := rlpNew
  raw := View.raw
  itemCount := View.itemCount
  «at» := View.at
  iter := View.iter
  decodeValue := decodeValue

theorem View.at_of_lt {raw : List UInt8} {views : List View} {i : Nat} (h : i < views.length) :
    (View.list raw views).at i = .ok views[i] := by
  rw [View.at, List.getElem?_eq_getElem h]

theorem View.at_of_length_le {raw : List UInt8} {views : List View} {i : Nat}
    (h : views.length ≤ i) : (View.list raw views).at i = .error .rlpIsTooShort := by
  rw [View.at, List.getElem?_eq_none h]

theorem length_toViews (items : List Item) : (toViews items).length = items.length := by
  rw [toViews_eq_map, List.length_map]

mutual
/-- The view the parser builds of an encoding is a view of the item. -/
theorem reads_toView : (item : Item) → rlpCodec.Reads (toView item) item
  | .str bytes => .str rfl (fun f => decodeValue_toView_str f bytes) ⟨_, rfl⟩
  | .list items => .list (toViews items) rfl (itemCount_toView_list items) (length_toViews items)
      (fun _ h => @View.at_of_lt (encode (.list items)) _ _ h)
      (fun _ h => ⟨.rlpIsTooShort, @View.at_of_length_le (encode (.list items)) _ _ h⟩) rfl
      (reads_getElem_toViews items)
theorem reads_getElem_toViews : (items : List Item) → ∀ i (hv : i < (toViews items).length)
    (hi : i < items.length), rlpCodec.Reads (toViews items)[i] items[i]
  | [], _, _, hi => absurd hi (Nat.not_lt_zero _)
  | item :: _, 0, _, _ => reads_toView item
  | _ :: items, i + 1, hv, hi =>
    reads_getElem_toViews items i (Nat.lt_of_succ_lt_succ hv) (Nat.lt_of_succ_lt_succ hi)
end

/-- The crate is a lawful codec. -/
theorem rlpCodec_lawful : rlpCodec.Lawful :=
  ⟨fun item hlt => ⟨toView item, rlpNew_encode item hlt, reads_toView item⟩⟩

end Rlp
