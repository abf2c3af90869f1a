/-
  Merkle hashes of trie nodes (`merkle.rs`) and the tries they commit to.

  The node merkle of a node is `keccak('n' ++ the 16 children merkles ++ 'v' value)`, with
  `MERKLE_NULL_NODE` for an absent child and nothing after the children when there is no
  value. The path merkle wraps it with the compressed path: `keccak(info byte ++ path ++ node
  merkle)` when the path has a nibble, the node merkle itself otherwise. The merkle of a node
  is its path merkle, computed bottom-up (`compute_merkle`).

  `Trie` is the trie these merkles commit to: a tree of nodes, each with up to sixteen
  children, a value and a compressed path. `Trie.find` follows a key with the same `walk` the
  storage uses; `Trie.lookup` is the value found there, `Trie.nodeMerkleAt` the node merkle.
  This is the abstract side of proof checking: what a trie with a given root maps a key to.

  The hash is a parameter (`Hasher`): a hash type, `keccak` and the bytes of a hash.

  Main results:
  * `merkle_ne_merkleNullNode`: for an injective `keccak` no trie has the empty merkle, since
    every merkle hashes a nonempty buffer.
-/
import Mazze.Storage.Walk

namespace Mazze.Storage

/-- The hash: `keccak` and the bytes of a hash (`as_bytes`). -/
structure Hasher (H : Type) where
  keccak : List UInt8 → H
  asBytes : H → List UInt8

/-- `MptValue`: no value, a tombstone (an empty value), or a value. -/
inductive MptValue (α : Type) where
  | none
  | tombStone
  | some (value : α)
  deriving Repr, DecidableEq

namespace MptValue

/-- `into_option`: a tombstone is the empty value. -/
def intoOption : MptValue (List UInt8) → Option (List UInt8)
  | .none => Option.none
  | .tombStone => Option.some []
  | .some value => Option.some value

def isTombstone {α : Type} : MptValue α → Bool
  | .tombStone => true
  | _ => false

/-- How `VanillaTrieNode::new` stores a value: an empty value is a tombstone. -/
def ofOption : Option (List UInt8) → MptValue (List UInt8)
  | Option.none => .none
  | Option.some value => if value.length = 0 then .tombStone else .some value

@[simp] theorem intoOption_ofOption (value : Option (List UInt8)) :
    (ofOption value).intoOption = value := by
  cases value with
  | none => rfl
  | some v =>
    by_cases h : v.length = 0
    · rw [List.length_eq_zero_iff.1 h]; rfl
    · simp [ofOption, h, intoOption]

end MptValue

variable {H : Type} (hs : Hasher H)

/-- `MERKLE_NULL_NODE = KECCAK_EMPTY`. -/
def merkleNullNode : H := hs.keccak []

/-- `LEAF_CHILDREN_MERKLE`. -/
def leafChildrenMerkle : Vector H 16 := Vector.replicate 16 (merkleNullNode hs)

/-- `compute_node_merkle`: `'n'`, the children merkles, then `'v'` and the value if any. -/
def computeNodeMerkle (childrenMerkles : Option (Vector H 16))
    (maybeValue : Option (List UInt8)) : H :=
  let merkles := childrenMerkles.getD (leafChildrenMerkle hs)
  hs.keccak (0x6e :: merkles.toList.flatMap hs.asBytes ++
    match maybeValue with
    | some value => 0x76 :: value
    | none => [])

/-- `compute_path_merkle` (its assertion that `withoutFirstNibble` agrees with the mask is
    left out): a nonempty path is hashed in front of the node merkle, its info byte first and
    its excluded first nibble cleared. -/
def computePathMerkle (path : List UInt8) (pathMask : UInt8) (withoutFirstNibble : Bool)
    (nodeMerkle : H) : H :=
  let steps := calculatePathSteps path.length pathMask
  if steps > 0 then
    let pathInfoByte : UInt8 :=
      128 + 64 * (if withoutFirstNibble then 1 else 0) + UInt8.ofNat steps % 63
    let buffer := pathInfoByte :: path
    let buffer :=
      if withoutFirstNibble then buffer.set 1 (secondNibble (buffer.getD 1 0)) else buffer
    hs.keccak (buffer ++ hs.asBytes nodeMerkle)
  else nodeMerkle

/-- `compute_merkle`: the path merkle of the node merkle. -/
def computeMerkle (path : List UInt8) (pathMask : UInt8) (withoutFirstNibble : Bool)
    (childrenMerkles : Option (Vector H 16)) (maybeValue : Option (List UInt8)) : H :=
  computePathMerkle hs path pathMask withoutFirstNibble
    (computeNodeMerkle hs childrenMerkles maybeValue)

/-! ## Tries -/

/-- A Merkle Patricia trie: a node with its children by child index (up to sixteen), its
    value and its compressed path. -/
inductive Trie where
  | node (children : List (Option Trie)) (value : MptValue (List UInt8)) (path : List UInt8)
      (pathMask : UInt8)

/-- The children merkle table of a node whose children have the merkles `merkles`: none for
    a node without children. -/
def childrenMerkleTable (children : List (Option Trie)) (merkles : List H) :
    Option (Vector H 16) :=
  if children.any Option.isSome then
    some (Vector.ofFn fun i => merkles.getD i.val (merkleNullNode hs))
  else none

mutual
/-- The merkle of a trie, bottom-up. -/
def Trie.merkle : Trie → H
  | .node children value path pathMask =>
    computeMerkle hs path pathMask (secondNibble pathMask != 0)
      (childrenMerkleTable hs children (Trie.merkles children)) value.intoOption

/-- The merkles of a node's children, `MERKLE_NULL_NODE` for an absent one. -/
def Trie.merkles : List (Option Trie) → List H
  | [] => []
  | none :: children => merkleNullNode hs :: Trie.merkles children
  | some child :: children => child.merkle :: Trie.merkles children
end

mutual
/-- The node a key leads to, walking down from the root. -/
def Trie.find : Trie → List UInt8 → Option Trie
  | .node children value path pathMask, key =>
    match walk key path pathMask (fun i => children.getD i.toNat none) with
    | .arrived => some (.node children value path pathMask)
    | .descent keyRemaining childIndex _ => Trie.findChild children childIndex.toNat keyRemaining
    | _ => none

/-- Follow the key into child `i`. -/
def Trie.findChild : List (Option Trie) → Nat → List UInt8 → Option Trie
  | [], _, _ => none
  | none :: _, 0, _ => none
  | some child :: _, 0, key => child.find key
  | _ :: children, i + 1, key => Trie.findChild children i key
end

def Trie.value : Trie → MptValue (List UInt8)
  | .node _ value _ _ => value

/-- The value a trie maps a key to; `none` when the key is absent. -/
def Trie.lookup (t : Trie) (key : List UInt8) : Option (List UInt8) :=
  match t.find key with
  | some found => found.value.intoOption
  | none => none

/-- `get_merkle_hash_wo_compressed_path` of a trie's root node. -/
def Trie.nodeMerkle : Trie → H
  | .node children value _ _ =>
    computeNodeMerkle hs (childrenMerkleTable hs children (Trie.merkles hs children))
      value.intoOption

/-- What a node-merkle proof says of a key: no node, a tombstone, or the node merkle. -/
def Trie.nodeMerkleAt (t : Trie) (key : List UInt8) : MptValue H :=
  match t.find key with
  | some found => if found.value.isTombstone then .tombStone else .some (found.nodeMerkle hs)
  | none => .none

/-! ## No trie has the empty merkle -/

section Injective

variable {hs}

theorem computeNodeMerkle_ne (hinj : Function.Injective hs.keccak)
    (childrenMerkles : Option (Vector H 16)) (maybeValue : Option (List UInt8)) :
    computeNodeMerkle hs childrenMerkles maybeValue ≠ merkleNullNode hs := by
  intro h
  have := hinj h
  simp at this

theorem computeMerkle_ne (hinj : Function.Injective hs.keccak) (path : List UInt8)
    (pathMask : UInt8) (withoutFirstNibble : Bool) (childrenMerkles : Option (Vector H 16))
    (maybeValue : Option (List UInt8)) :
    computeMerkle hs path pathMask withoutFirstNibble childrenMerkles maybeValue ≠
      merkleNullNode hs := by
  intro h
  simp only [computeMerkle, computePathMerkle] at h
  by_cases hsteps : calculatePathSteps path.length pathMask > 0
  · -- the hashed buffer starts with the info byte, so it is not empty
    rw [if_pos hsteps] at h
    have hbuf := hinj h
    split at hbuf <;> simp at hbuf
  · rw [if_neg hsteps] at h
    exact computeNodeMerkle_ne hinj childrenMerkles maybeValue h

theorem merkle_ne_merkleNullNode (hinj : Function.Injective hs.keccak) (t : Trie) :
    t.merkle hs ≠ merkleNullNode hs := by
  cases t with
  | node children value path pathMask =>
    rw [Trie.merkle]
    exact computeMerkle_ne hinj _ _ _ _ _

end Injective

end Mazze.Storage
