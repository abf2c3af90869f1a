/-
  Compressed paths and the read-only walk through one Merkle Patricia trie node
  (`compressed_path.rs`, `walk.rs`).

  A node's compressed path is a byte string and a mask: `second_nibble(mask) ≠ 0` when the
  path starts at the second nibble of its first byte, `clear_second_nibble(mask) ≠ 0` when it
  stops after the first nibble of its last byte. The key handed to a node is aligned with its
  path. `walk` compares them, whole bytes up to the last full byte of the path, and stops in
  one of four ways: the key ends where the path ends (`arrived`), the two differ
  (`pathDiverted`), or the key goes on into a child, which is there (`descent`) or not
  (`childNotFound`). Only the read-only walk is modelled: in that mode `PathDiverted` carries
  no data.

  Main results:
  * `walk_eq_arrived_iff`: for a path without missing nibbles, the walk arrives exactly when
    the key is the path.
  * `walk_append_of_ne_nil`: a key that stops inside the path diverts.
  * `walk_nil_cons`: through an empty path the walk descends by the first nibble of the key,
    and hands the child the whole key.
-/
import Mathlib

namespace Mazze.Storage

/-! ## Nibbles and masks -/

def firstNibble (x : UInt8) : UInt8 := x >>> 4

def secondNibble (x : UInt8) : UInt8 := x &&& 0x0f

def clearSecondNibble (x : UInt8) : UInt8 := x &&& 0xf0

def noSecondNibble (pathMask : UInt8) : Bool := clearSecondNibble pathMask != 0

/-- `calculate_path_steps`: the number of nibbles of a path. -/
def calculatePathSteps (pathSize : Nat) (pathMask : UInt8) : Nat :=
  pathSize * 2 - (if clearSecondNibble pathMask ≠ 0 then 1 else 0) -
    (if secondNibble pathMask ≠ 0 then 1 else 0)

/-! ## The walk -/

/-- Where a walk through one node stops; `C` is what the node's children table holds. -/
inductive WalkStop (C : Type) where
  | pathDiverted
  | arrived
  | descent (keyRemaining : List UInt8) (childIndex : UInt8) (childNode : C)
  | childNotFound (keyRemaining : List UInt8) (childIndex : UInt8)
  deriving Repr, DecidableEq

/-- Descend into the child at `childIndex` if there is one. -/
def descend {C : Type} (getChild : UInt8 → Option C) (childIndex : UInt8)
    (keyRemaining : List UInt8) : WalkStop C :=
  match getChild childIndex with
  | none => .childNotFound keyRemaining childIndex
  | some childNode => .descent keyRemaining childIndex childNode

/-- `walk::<Read>(key, path, node)`. The byte loop returns at the first byte where path and
    key differ, so it is the comparison of the two prefixes of length `memcmp_len`. -/
def walk {C : Type} (key path : List UInt8) (pathMask : UInt8) (getChild : UInt8 → Option C) :
    WalkStop C :=
  let memcmpLen := min (path.length - if noSecondNibble pathMask then 1 else 0) key.length
  if path.take memcmpLen ≠ key.take memcmpLen then .pathDiverted
  else if key.length = memcmpLen then
    -- the key is consumed; the path may go on
    if memcmpLen < path.length then .pathDiverted else .arrived
  else if path.length = memcmpLen then
    -- the path is consumed at a byte boundary: the next nibble of the key picks the child,
    -- and the child gets the key from that byte on
    descend getChild (firstNibble (key.getD memcmpLen 0)) (key.drop memcmpLen)
  else if firstNibble (path.getD memcmpLen 0 ^^^ key.getD memcmpLen 0) ≠ 0 then .pathDiverted
  else descend getChild (secondNibble (key.getD memcmpLen 0)) (key.drop (memcmpLen + 1))

section Walk

variable {C : Type} (getChild : UInt8 → Option C)

@[simp] theorem noSecondNibble_zero : noSecondNibble 0 = false := by decide

/-- A first nibble is a child index. -/
theorem firstNibble_lt (x : UInt8) : (firstNibble x).toNat < 16 := by
  have hx : x.toNat < 256 := x.toNat_lt
  simp [firstNibble]
  omega

theorem walk_of_eq (key : List UInt8) : walk key key 0 getChild = .arrived := by
  simp [walk]

/-- With a full-byte path, the walk arrives exactly at the path. -/
theorem walk_eq_arrived_iff (key path : List UInt8) :
    walk key path 0 getChild = .arrived ↔ key = path := by
  constructor
  · intro h
    simp only [walk, noSecondNibble_zero, Bool.false_eq_true, if_false, Nat.sub_zero] at h
    split at h
    case isTrue => cases h
    case isFalse hprefix =>
      split at h
      case isTrue hkey =>
        split at h
        case isTrue => cases h
        case isFalse hpath =>
          -- both lengths are the compared length, so both lists are the compared prefix
          have heq := Decidable.not_not.mp hprefix
          rw [List.take_of_length_le (by omega), List.take_of_length_le (by omega)] at heq
          exact heq.symm
      case isFalse =>
        split at h
        · unfold descend at h; split at h <;> cases h
        · split at h
          · cases h
          · unfold descend at h; split at h <;> cases h
  · rintro rfl
    exact walk_of_eq getChild key

/-- A key that stops inside the path diverts. -/
theorem walk_append_of_ne_nil (key tail : List UInt8) (htail : tail ≠ []) :
    walk key (key ++ tail) 0 getChild = .pathDiverted := by
  have hpos : 0 < tail.length := List.length_pos_of_ne_nil htail
  have hmin : min (key.length + tail.length) key.length = key.length := by omega
  simp [walk, hmin, hpos]

/-- Through an empty path the walk descends by the first nibble of the key, with the whole
    key. -/
theorem walk_nil_cons (x : UInt8) (rest : List UInt8) :
    walk (x :: rest) [] 0 getChild = descend getChild (firstNibble x) (x :: rest) := by
  simp [walk]

end Walk

end Mazze.Storage
