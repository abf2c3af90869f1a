/-
  Building compressed paths (`compressed_path.rs`): `extend_path`, `join_connected_paths` and
  `path_steps`, against the nibbles a path stands for.

  A compressed path is what `CompressedPathTrait` shows: a byte string and a mask. Its nibbles
  are those of its bytes, the high nibble first, without the first one when
  `second_nibble(mask) ≠ 0` and without the last one when `clear_second_nibble(mask) ≠ 0`
  (`CompressedPath.nibbles`). Sizes are `u16`: `path_size` is the length cast `as u16`, and
  `calculate_path_steps` panics when `path_size * 2` overflows or a subtraction goes below
  zero. A shaped path has a byte when its mask hides a nibble; a valid path is a shaped one of
  fewer than `2^15` bytes. The valid paths are exactly those whose `path_steps` does not panic
  (`valid_iff_pathSteps_isSome`), and their `path_steps` counts their nibbles
  (`Valid.pathSteps`).

  Main results:
  * `extendPath_nibbles`: on a shaped path of at most `2^16 - 2` bytes, `extend_path` appends
    the nibble.
  * `joinConnectedPaths_nibbles`: on shaped paths `x` and `y` that follow each other at a
    nibble, with sizes that sum below `2^16`, `join_connected_paths` gives the nibbles of `x`,
    the nibble and those of `y`.
  * Either result is valid, so that its `path_steps` adds up, when it has fewer than `2^15`
    bytes. At `2^15` bytes `path_steps` panics: `extend_path` of a valid path of `2^15 - 1` full
    bytes gives one (`extendPath_pathSteps_overflows`).
-/
import Mazze.Storage.Walk
import Mazze.Bits.Groups

namespace Mazze.Storage

open Mazze.Bits

/-! ## The model -/

/-- `second_nibble_mask()`: the mask bits of a missing second nibble (`BITS_4_7_MASK`). -/
def secondNibbleMask : UInt8 := 0xf0

def fromFirstNibble (x : UInt8) : UInt8 := x <<< 4

def setSecondNibble (x second : UInt8) : UInt8 := clearSecondNibble x ||| second

def hasSecondNibble (pathMask : UInt8) : Bool := clearSecondNibble pathMask == 0

/-- A compressed path as `CompressedPathTrait` shows it (`CompressedPathRef`). -/
structure CompressedPath where
  pathSlice : List UInt8
  pathMask : UInt8
  deriving DecidableEq, Repr

namespace CompressedPath

/-- `path_size`: the length cast `as u16`. -/
def pathSize (p : CompressedPath) : Nat := p.pathSlice.length % 2 ^ 16

/-- `path_steps`: `calculate_path_steps` on `u16`s. `none` is its panic: `path_size * 2`
    overflows, or a subtraction goes below zero. -/
def pathSteps (p : CompressedPath) : Option Nat :=
  if p.pathSize * 2 < 2 ^ 16 ∧ (if clearSecondNibble p.pathMask ≠ 0 then 1 else 0) +
      (if secondNibble p.pathMask ≠ 0 then 1 else 0) ≤ p.pathSize * 2 then
    some (calculatePathSteps p.pathSize p.pathMask)
  else none

end CompressedPath

/-- `CompressedPathRaw::extend_path`: `x`, then the nibble `child_index`. Copying `x` into the
    first `path_size()` bytes panics when the `as u16` cast of its length wrapped,
    `path_size() + 1` when it overflows a `u16`, and `last_byte_mut` on an empty path. -/
def extendPath (x : CompressedPath) (childIndex : UInt8) : Option CompressedPath :=
  let xPathMask := x.pathMask
  if x.pathSize ≠ x.pathSlice.length then none
  else if hasSecondNibble xPathMask then
    -- a new last byte, with the nibble as its first one
    if x.pathSize + 1 < 2 ^ 16 then
      some ⟨x.pathSlice ++ [fromFirstNibble childIndex], xPathMask ||| secondNibbleMask⟩
    else none
  else
    -- the missing second nibble of the last byte is set
    match x.pathSlice.getLast? with
    | none => none
    | some lastByte =>
      some ⟨x.pathSlice.dropLast ++ [setSecondNibble lastByte childIndex],
        secondNibble xPathMask⟩

/-- `CompressedPathRaw::join_connected_paths`: `x`, the nibble `child_index`, then `y`. The size
    is cast `as u16`, so that the path keeps the first `size % 2^16` bytes, and
    `x_slice_len - 1` panics when `x` is empty with a missing second nibble. -/
def joinConnectedPaths (x : CompressedPath) (childIndex : UInt8) (y : CompressedPath) :
    Option CompressedPath :=
  let xSlice := x.pathSlice
  let xPathMask := x.pathMask
  let ySlice := y.pathSlice
  let size := xSlice.length + ySlice.length
  let head : Option (List UInt8) :=
    if hasSecondNibble xPathMask then some xSlice
    else xSlice.getLast?.map fun last => xSlice.dropLast ++ [setSecondNibble last childIndex]
  head.map fun head =>
    ⟨(head ++ ySlice).take (size % 2 ^ 16), setSecondNibble y.pathMask (secondNibble xPathMask)⟩

/-! ## What a path stands for -/

namespace CompressedPath

/-- The nibbles of a path: those of its bytes, without the first one when
    `second_nibble(mask) ≠ 0` and without the last one when `clear_second_nibble(mask) ≠ 0`. -/
def nibbles (p : CompressedPath) : List Nat :=
  let all := bytesNibbles p.pathSlice
  let all := if secondNibble p.pathMask ≠ 0 then all.tail else all
  if clearSecondNibble p.pathMask ≠ 0 then all.dropLast else all

/-- A path with a byte when its mask hides a nibble: what `extend_path` and
    `join_connected_paths` need of a path. -/
structure Shaped (p : CompressedPath) : Prop where
  ne_nil : secondNibble p.pathMask ≠ 0 ∨ clearSecondNibble p.pathMask ≠ 0 → p.pathSlice ≠ []

/-- A path that `CompressedPathRaw` holds and whose `path_steps` does not panic: shaped, with
    fewer than `2^15` bytes. -/
structure Valid (p : CompressedPath) : Prop extends Shaped p where
  length_lt : p.pathSlice.length < 2 ^ 15

end CompressedPath

/-- `y` follows `x` at `childIndex`, as `join_connected_paths` asks: when `x` ends on a full
    byte, `y` starts at the second nibble of a byte whose first nibble is `childIndex`; otherwise
    `y` starts on a full byte. -/
def Follows (x : CompressedPath) (childIndex : UInt8) (y : CompressedPath) : Prop :=
  if hasSecondNibble x.pathMask then
    secondNibble y.pathMask ≠ 0 ∧ y.pathSlice.head?.map firstNibble = some childIndex
  else secondNibble y.pathMask = 0

/-! ## Masks and bytes as numbers -/

@[simp] theorem secondNibble_eq_zero_iff (m : UInt8) : secondNibble m = 0 ↔ m.toNat % 16 = 0 := by
  rw [← UInt8.toNat_inj, secondNibble, toNat_and_fifteen]
  rfl

@[simp] theorem clearSecondNibble_eq_zero_iff (m : UInt8) :
    clearSecondNibble m = 0 ↔ m.toNat < 16 := by
  rw [← UInt8.toNat_inj, clearSecondNibble, toNat_and_high]
  simp only [UInt8.toNat_zero]
  omega

@[simp] theorem hasSecondNibble_iff (m : UInt8) : hasSecondNibble m = true ↔ m.toNat < 16 := by
  simp [hasSecondNibble]

@[simp] theorem toNat_secondNibble (m : UInt8) : (secondNibble m).toNat = m.toNat % 16 :=
  toNat_and_fifteen m

@[simp] theorem toNat_firstNibble (x : UInt8) : (firstNibble x).toNat = x.toNat / 16 :=
  toNat_shiftRight_four x

theorem toNat_or_secondNibbleMask (m : UInt8) :
    (m ||| secondNibbleMask).toNat % 16 = m.toNat % 16 ∧ 16 ≤ (m ||| secondNibbleMask).toNat :=
  toNat_or_high m

theorem toNat_setSecondNibble {x c : UInt8} (hc : c.toNat < 16) :
    (setSecondNibble x c).toNat = x.toNat / 16 * 16 + c.toNat :=
  toNat_and_high_or hc

theorem bytesNibbles_fromFirstNibble {c : UInt8} (hc : c.toNat < 16) :
    bytesNibbles [fromFirstNibble c] = [c.toNat, 0] := by
  simp [fromFirstNibble, toNat_shiftLeft_four hc]

theorem bytesNibbles_setSecondNibble (x : UInt8) {c : UInt8} (hc : c.toNat < 16) :
    bytesNibbles [setSecondNibble x c] = [x.toNat / 16, c.toNat] := by
  have h₁ : (x.toNat / 16 * 16 + c.toNat) / 16 = x.toNat / 16 := by omega
  have h₂ : (x.toNat / 16 * 16 + c.toNat) % 16 = c.toNat := by omega
  simp only [bytesNibbles_cons, bytesNibbles_nil, toNat_setSecondNibble hc, h₁, h₂]

/-! ## Nibble lists -/

section Lists

variable {f : Prop} [Decidable f] {A B : List Nat}

/-- A hidden first nibble of a nonempty list stays in front of what is appended. -/
theorem tail_if_append (hA : f → A ≠ []) :
    (if f then (A ++ B).tail else A ++ B) = (if f then A.tail else A) ++ B := by
  split
  · next h => exact List.tail_append_of_ne_nil (hA h)
  · rfl

/-- A hidden last nibble of a nonempty list stays at the end of what it is appended to. -/
theorem dropLast_if_append (hB : f → B ≠ []) :
    (if f then (A ++ B).dropLast else A ++ B) = A ++ (if f then B.dropLast else B) := by
  split
  · next h => exact List.dropLast_append_of_ne_nil (hB h)
  · rfl

end Lists

namespace CompressedPath

/-- The nibbles of a path, with its mask read as a number. -/
theorem nibbles_eq (p : CompressedPath) : p.nibbles =
    let all := bytesNibbles p.pathSlice
    let all := if p.pathMask.toNat % 16 ≠ 0 then all.tail else all
    if 16 ≤ p.pathMask.toNat then all.dropLast else all := by
  simp only [nibbles, ne_eq, secondNibble_eq_zero_iff, clearSecondNibble_eq_zero_iff, not_lt]

theorem length_nibbles (p : CompressedPath) : p.nibbles.length =
    2 * p.pathSlice.length - (if p.pathMask.toNat % 16 ≠ 0 then 1 else 0) -
      (if 16 ≤ p.pathMask.toNat then 1 else 0) := by
  rw [nibbles_eq]
  split <;> split <;> simp [List.length_tail, List.length_dropLast]

section Valid

variable {p : CompressedPath}

theorem Valid.pathSize_eq (hp : p.Valid) : p.pathSize = p.pathSlice.length :=
  Nat.mod_eq_of_lt (by have := hp.length_lt; omega)

theorem Shaped.ne_nil_of_first (hp : p.Shaped) (h : p.pathMask.toNat % 16 ≠ 0) :
    p.pathSlice ≠ [] :=
  hp.ne_nil (.inl (by simpa using h))

theorem Shaped.ne_nil_of_last (hp : p.Shaped) (h : 16 ≤ p.pathMask.toNat) : p.pathSlice ≠ [] :=
  hp.ne_nil (.inr (by simpa using h))

/-- A shaped path whose mask hides its last nibble ends on a byte. -/
theorem Shaped.eq_append_of_last (hp : p.Shaped) (h : 16 ≤ p.pathMask.toNat) :
    ∃ init last, p.pathSlice = init ++ [last] := by
  obtain hnil | ⟨init, last, hcon⟩ := List.eq_nil_or_concat p.pathSlice
  · exact absurd hnil (hp.ne_nil_of_last h)
  · exact ⟨init, last, by rw [hcon, List.concat_eq_append]⟩

/-- The `path_steps` of a valid path counts its nibbles. -/
theorem Valid.pathSteps (hp : p.Valid) : p.pathSteps = some p.nibbles.length := by
  have hlen := hp.length_lt
  have hne : p.pathSlice = [] → p.pathMask.toNat % 16 = 0 ∧ p.pathMask.toNat < 16 := by
    intro h
    by_contra hm
    rcases not_and_or.mp hm with h₁ | h₂
    · exact hp.toShaped.ne_nil_of_first h₁ h
    · exact hp.toShaped.ne_nil_of_last (Nat.le_of_not_lt h₂) h
  rw [CompressedPath.pathSteps, hp.pathSize_eq, length_nibbles]
  simp only [calculatePathSteps, ne_eq, secondNibble_eq_zero_iff, clearSecondNibble_eq_zero_iff,
    not_lt]
  have hcases : p.pathSlice = [] ∨ 1 ≤ p.pathSlice.length := by
    cases p.pathSlice <;> simp
  rcases hcases with h | h
  · obtain ⟨h₁, h₂⟩ := hne h
    simp [h, h₁, Nat.not_le_of_lt h₂]
  · rw [if_pos (by split <;> split <;> omega)]
    congr 1
    split <;> split <;> omega

/-- The valid paths of fewer than `2^16` bytes are those whose `path_steps` does not panic. -/
theorem valid_iff_pathSteps_isSome (h : p.pathSlice.length < 2 ^ 16) :
    p.Valid ↔ p.pathSteps.isSome := by
  refine ⟨fun hp => by rw [hp.pathSteps]; rfl, fun hs => ?_⟩
  have hsize : p.pathSize = p.pathSlice.length := Nat.mod_eq_of_lt h
  obtain ⟨v, hv⟩ := Option.isSome_iff_exists.mp hs
  obtain ⟨⟨hfit, hflags⟩, -⟩ := Option.ite_none_right_eq_some.mp hv
  rw [hsize] at hfit hflags
  -- an empty path has no room for a hidden nibble
  refine ⟨⟨fun hm hnil => ?_⟩, by omega⟩
  rw [hnil, List.length_nil] at hflags
  rcases hm with hm | hm <;> simp [hm] at hflags

theorem valid_of_ne_nil (hlen : p.pathSlice.length < 2 ^ 15) (hne : p.pathSlice ≠ []) :
    p.Valid :=
  ⟨⟨fun _ => hne⟩, hlen⟩

end Valid

end CompressedPath

/-! ## Extending and joining paths -/

open CompressedPath

/-- `extend_path` on a shaped path of at most `2^16 - 2` bytes, so that its size and the size
    after it fit a `u16`, appends the nibble. -/
theorem extendPath_nibbles {x : CompressedPath} (hx : x.Shaped)
    (hlen : x.pathSlice.length ≤ 2 ^ 16 - 2) {c : UInt8} (hc : c.toNat < 16) :
    ∃ p, extendPath x c = some p ∧ p.nibbles = x.nibbles ++ [c.toNat] ∧ p.pathSlice ≠ [] ∧
      x.pathSlice.length ≤ p.pathSlice.length := by
  have hsize : x.pathSize = x.pathSlice.length := Nat.mod_eq_of_lt (by omega)
  by_cases hfull : x.pathMask.toNat < 16
  · -- `x` ends on a full byte: a new byte holds the nibble first
    obtain ⟨hlow, hhigh⟩ := toNat_or_secondNibbleMask x.pathMask
    have hroom : x.pathSlice.length + 1 < 2 ^ 16 := by omega
    refine ⟨⟨x.pathSlice ++ [fromFirstNibble c], x.pathMask ||| secondNibbleMask⟩, ?_, ?_,
      by simp, by simp⟩
    · simp [extendPath, hsize, hfull]
      omega
    · rw [nibbles_eq, nibbles_eq]
      simp only [bytesNibbles_append, bytesNibbles_fromFirstNibble hc, hlow, if_pos hhigh,
        if_neg (Nat.not_le_of_lt hfull)]
      rw [tail_if_append fun h => by simpa using hx.ne_nil_of_first h,
        List.dropLast_append_of_ne_nil (by simp)]
      rfl
  · -- `x` ends on half a byte: the nibble fills its second half
    have hhalf : 16 ≤ x.pathMask.toNat := Nat.le_of_not_lt hfull
    obtain ⟨init, last, hslice⟩ := hx.eq_append_of_last hhalf
    refine ⟨⟨init ++ [setSecondNibble last c], secondNibble x.pathMask⟩, ?_, ?_, by simp,
      by simp [hslice]⟩
    · simp [extendPath, hsize, hfull, hslice]
    · rw [nibbles_eq, nibbles_eq]
      have hsplit : ∀ d, bytesNibbles init ++ [last.toNat / 16, d] =
          (bytesNibbles init ++ [last.toNat / 16]) ++ [d] := by simp
      simp only [hslice, bytesNibbles_append, bytesNibbles_setSecondNibble last hc,
        toNat_secondNibble, Nat.mod_mod, if_pos hhalf, bytesNibbles_cons, bytesNibbles_nil,
        hsplit, if_neg (show ¬ 16 ≤ x.pathMask.toNat % 16 by omega)]
      rw [tail_if_append (A := bytesNibbles init ++ [last.toNat / 16]) (B := [c.toNat]) (by simp),
        tail_if_append (A := bytesNibbles init ++ [last.toNat / 16]) (B := [last.toNat % 16])
          (by simp), List.dropLast_concat]

/-- `join_connected_paths` on shaped paths `x` and `y` that follow each other at the nibble, with
    sizes that sum below `2^16` so that the `as u16` cast cuts nothing, gives the nibbles of `x`,
    the nibble and those of `y`. -/
theorem joinConnectedPaths_nibbles {x y : CompressedPath} (hx : x.Shaped) (hy : y.Shaped)
    (hfit : x.pathSlice.length + y.pathSlice.length < 2 ^ 16) {c : UInt8} (hc : c.toNat < 16)
    (hf : Follows x c y) :
    ∃ p, joinConnectedPaths x c y = some p ∧ p.nibbles = x.nibbles ++ c.toNat :: y.nibbles ∧
      p.pathSlice ≠ [] ∧ p.pathSlice.length = x.pathSlice.length + y.pathSlice.length := by
  -- the mask takes the first flag of `x` and the last flag of `y`
  have hmask : (setSecondNibble y.pathMask (secondNibble x.pathMask)).toNat =
      y.pathMask.toNat / 16 * 16 + x.pathMask.toNat % 16 := by
    rw [toNat_setSecondNibble (by simp; omega), toNat_secondNibble]
  have hfirst : (y.pathMask.toNat / 16 * 16 + x.pathMask.toNat % 16) % 16 =
      x.pathMask.toNat % 16 := by omega
  have hlast : (16 ≤ y.pathMask.toNat / 16 * 16 + x.pathMask.toNat % 16) ↔
      16 ≤ y.pathMask.toNat := by omega
  by_cases hfull : x.pathMask.toNat < 16
  · -- `x` ends on a full byte: `y` starts with the nibble, hidden
    simp only [Follows, (hasSecondNibble_iff _).mpr hfull, if_true, ne_eq, secondNibble_eq_zero_iff] at hf
    obtain ⟨hyfirst, hhead⟩ := hf
    obtain ⟨b, rest, hy₀, hb⟩ : ∃ b rest, y.pathSlice = b :: rest ∧ b.toNat / 16 = c.toNat := by
      cases hys : y.pathSlice with
      | nil => simp [hys] at hhead
      | cons b rest =>
        simp only [hys, List.head?_cons, Option.map_some, Option.some.injEq] at hhead
        exact ⟨b, rest, rfl, by rw [← toNat_firstNibble, hhead]⟩
    refine ⟨⟨x.pathSlice ++ y.pathSlice, setSecondNibble y.pathMask (secondNibble x.pathMask)⟩,
      ?_, ?_, by simp [hy₀], by simp⟩
    · simp [joinConnectedPaths, hfull]
      omega
    · rw [nibbles_eq, nibbles_eq, nibbles_eq]
      simp only [hmask, hfirst, hlast, hy₀, bytesNibbles_append, bytesNibbles_cons, hb,
        if_neg (Nat.not_le_of_lt hfull), if_pos hyfirst, List.tail_cons]
      rw [tail_if_append fun h => by simpa using hx.ne_nil_of_first h, List.append_cons _ c.toNat,
        dropLast_if_append (by simp), List.append_assoc, List.singleton_append]
  · -- `x` ends on half a byte: the nibble fills it, and `y` starts on a full byte
    have hhalf : 16 ≤ x.pathMask.toNat := Nat.le_of_not_lt hfull
    simp only [Follows, (hasSecondNibble_iff _), hfull, if_false, secondNibble_eq_zero_iff] at hf
    obtain ⟨init, last, hslice⟩ := hx.eq_append_of_last hhalf
    refine ⟨⟨init ++ [setSecondNibble last c] ++ y.pathSlice,
      setSecondNibble y.pathMask (secondNibble x.pathMask)⟩, ?_, ?_, by simp,
      by simp [hslice]; omega⟩
    · have hxlen : x.pathSlice.length = init.length + 1 := by simp [hslice]
      simp [joinConnectedPaths, hfull, hslice]
      omega
    · rw [nibbles_eq, nibbles_eq, nibbles_eq]
      have hsplit : ∀ d, bytesNibbles init ++ [last.toNat / 16, d] =
          (bytesNibbles init ++ [last.toNat / 16]) ++ [d] := by simp
      simp only [hmask, hfirst, hlast, hslice, bytesNibbles_append, bytesNibbles_cons,
        bytesNibbles_nil, bytesNibbles_setSecondNibble last hc, hsplit, if_pos hhalf, hf,
        ne_eq, not_true_eq_false, if_false]
      rw [tail_if_append (A := bytesNibbles init ++ [last.toNat / 16] ++ [c.toNat])
          (B := bytesNibbles y.pathSlice) (by simp),
        tail_if_append (A := bytesNibbles init ++ [last.toNat / 16]) (B := [c.toNat]) (by simp),
        tail_if_append (A := bytesNibbles init ++ [last.toNat / 16]) (B := [last.toNat % 16])
          (by simp), List.dropLast_concat,
        dropLast_if_append fun h => by simpa using hy.ne_nil_of_last h]
      simp

/-- On a shaped path `x` and a nibble, `extend_path` appends the nibble while `x` has at most
    `2^16 - 2` bytes, and `join_connected_paths` with a shaped path `y` that follows `x` at the
    nibble gives the nibbles of `x`, the nibble and those of `y` while the two sizes sum below
    `2^16`. `path_steps` adds up likewise whenever the path built has fewer than `2^15` bytes,
    the most for which `path_steps` does not overflow a `u16`. -/
theorem extendPath_joinConnectedPaths_nibbles {x : CompressedPath} (hx : x.Shaped) {c : UInt8}
    (hc : c.toNat < 16) :
    (x.pathSlice.length ≤ 2 ^ 16 - 2 → ∃ p, extendPath x c = some p ∧
      p.nibbles = x.nibbles ++ [c.toNat] ∧
      (p.pathSlice.length < 2 ^ 15 → p.pathSteps = x.pathSteps.map (· + 1))) ∧
    ∀ y, y.Shaped → Follows x c y → x.pathSlice.length + y.pathSlice.length < 2 ^ 16 →
      ∃ p, joinConnectedPaths x c y = some p ∧ p.nibbles = x.nibbles ++ c.toNat :: y.nibbles ∧
      (p.pathSlice.length < 2 ^ 15 →
        p.pathSteps = Option.map₂ (fun sx sy => sx + 1 + sy) x.pathSteps y.pathSteps) := by
  refine ⟨fun hlen => ?_, fun y hy hf hfit => ?_⟩
  · obtain ⟨p, hp, hn, hne, hle⟩ := extendPath_nibbles hx hlen hc
    refine ⟨p, hp, hn, fun hshort => ?_⟩
    -- below `2^15` bytes both paths are valid, and `path_steps` counts their nibbles
    have hxv : x.Valid := ⟨hx, by omega⟩
    rw [(valid_of_ne_nil hshort hne).pathSteps, hxv.pathSteps, hn, List.length_append]
    rfl
  · obtain ⟨p, hp, hn, hne, hplen⟩ := joinConnectedPaths_nibbles hx hy hfit hc hf
    refine ⟨p, hp, hn, fun hshort => ?_⟩
    have hxv : x.Valid := ⟨hx, by omega⟩
    have hyv : y.Valid := ⟨hy, by omega⟩
    rw [(valid_of_ne_nil hshort hne).pathSteps, hxv.pathSteps, hyv.pathSteps, hn]
    simp only [Option.map₂_some_some, List.length_append, List.length_cons, Option.some.injEq]
    omega

theorem extendPath_joinConnectedPaths_nibbles_at_half_byte :
    CompressedPath.Shaped ⟨[0x10], 0xf0⟩ ∧ (2 : UInt8).toNat < 16 ∧
      ((CompressedPath.pathSlice ⟨[0x10], 0xf0⟩).length ≤ 2 ^ 16 - 2 → ∃ p,
          extendPath ⟨[0x10], 0xf0⟩ 2 = some p ∧
          p.nibbles = CompressedPath.nibbles ⟨[0x10], 0xf0⟩ ++ [(2 : UInt8).toNat] ∧
          (p.pathSlice.length < 2 ^ 15 →
            p.pathSteps = (CompressedPath.pathSteps ⟨[0x10], 0xf0⟩).map (· + 1))) ∧
        ∀ y, y.Shaped → Follows ⟨[0x10], 0xf0⟩ 2 y →
          (CompressedPath.pathSlice ⟨[0x10], 0xf0⟩).length + y.pathSlice.length < 2 ^ 16 → ∃ p,
          joinConnectedPaths ⟨[0x10], 0xf0⟩ 2 y = some p ∧
          p.nibbles = CompressedPath.nibbles ⟨[0x10], 0xf0⟩ ++ (2 : UInt8).toNat :: y.nibbles ∧
          (p.pathSlice.length < 2 ^ 15 → p.pathSteps = Option.map₂ (fun sx sy => sx + 1 + sy)
            (CompressedPath.pathSteps ⟨[0x10], 0xf0⟩) y.pathSteps) :=
  have hx : CompressedPath.Shaped ⟨[0x10], 0xf0⟩ := ⟨fun _ => by simp⟩
  ⟨hx, by decide, extendPath_joinConnectedPaths_nibbles hx (by decide)⟩

/-- A path of `2^15 - 1` full bytes is valid with `2^16 - 2` steps, and `extend_path` makes it
    one of `2^15` bytes, whose `path_steps` overflows a `u16`. Stated over any such path, so
    that no proof walks the bytes. -/
theorem pathSteps_overflows_of_length {x : CompressedPath} (hmask : x.pathMask = 0)
    (hlen : x.pathSlice.length = 2 ^ 15 - 1) :
    x.Valid ∧ x.pathSteps = some (2 ^ 16 - 2) ∧
      ∃ p, extendPath x 0 = some p ∧ p.pathSteps = none := by
  have hv : x.Valid :=
    valid_of_ne_nil (by rw [hlen]; decide) (List.ne_nil_of_length_pos (by rw [hlen]; decide))
  refine ⟨hv, by rw [hv.pathSteps, length_nibbles, hlen, hmask]; rfl, ?_⟩
  refine ⟨⟨x.pathSlice ++ [fromFirstNibble 0], 0 ||| secondNibbleMask⟩, ?_, ?_⟩
  · -- a new byte, as the path ends on a full one
    simp only [extendPath, CompressedPath.pathSize, hlen, hmask]
    rw [if_neg (by decide), if_pos (by decide), if_pos (by decide)]
  · simp only [CompressedPath.pathSteps, CompressedPath.pathSize, List.length_append, hlen,
      List.length_singleton]
    rw [if_neg fun h => absurd h.1 (by decide)]

/-- A valid path of `2^15 - 1` full bytes. -/
def longFullPath : CompressedPath := ⟨List.replicate (2 ^ 15 - 1) 0, 0⟩

/-- `extend_path` of `longFullPath` gives a path of `2^15` bytes, whose `path_steps` overflows a
    `u16` and panics, while that of `longFullPath` is `2^16 - 2`. -/
theorem extendPath_pathSteps_overflows :
    longFullPath.Valid ∧ longFullPath.pathSteps = some (2 ^ 16 - 2) ∧
      ∃ p, extendPath longFullPath 0 = some p ∧ p.pathSteps = none :=
  pathSteps_overflows_of_length rfl List.length_replicate

end Mazze.Storage
