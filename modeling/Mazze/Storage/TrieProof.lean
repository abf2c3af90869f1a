/-
  Merkle proofs of keys in the state trie (`trie_proof.rs`).

  A proof is a list of trie nodes, each with its merkle as stored in the node. `TrieProof::new`
  indexes the nodes by that stored merkle and checks that every node is named by an earlier
  one (the root by itself); `is_valid` then walks from the root hash: it looks the hash up,
  walks through the node found with the rest of the key, and either stops there or goes on
  with the child hash. Neither step recomputes a merkle from a node's contents, and neither do
  the RLP and serde decoders, which read the stored merkle from their input.

  So the stored merkle is whatever the prover put there. One node whose stored merkle is a
  trie's root and whose path is the key proves any value for that key (`isValidKv_forged`),
  and a node whose path runs past the key proves the key absent (`isValidNodeMerkle_forged`).
  A node that names itself as its own child makes the loop run forever (`isValid_cycle`).

  `is_valid` is a loop that need not end, so it takes a `fuel`: `some b` is the answer
  `is_valid` returns within that many iterations, `none` that it has not returned (or that the
  `expect` on the node index panicked).

  Main results:
  * `trie_proof_accepts_forgery`: for an injective `keccak`, every trie and every key, a
    proof that `TrieProof::new` accepts makes `is_valid_kv` certify a value the trie does not
    map the key to, and `is_valid_node_merkle` a node merkle the trie does not have there.
  * `isValid_cycle`: a one-node proof whose node is its own child never returns.
-/
import Mazze.Storage.Merkle

namespace Mazze.Storage

/-- `VanillaTrieNode<MerkleHash>` as a proof carries it: the stored merkle, the children
    table (`MERKLE_NULL_NODE` for no child), the value and the compressed path. -/
structure TrieProofNode (H : Type) where
  merkle : H
  childrenTable : Vector H 16
  mptValue : MptValue (List UInt8)
  compressedPath : List UInt8
  pathMask : UInt8

/-- The child index of a node under its parent. -/
structure ParentInfo where
  parentNodeIndex : Nat
  childIndex : Nat
  deriving Repr, DecidableEq

inductive TrieProofError where
  | invalidTrieProof
  deriving Repr, DecidableEq

/-- `TrieProof`. The hash map from a stored merkle to the node index is a function. -/
structure TrieProof (H : Type) where
  nodes : List (TrieProofNode H)
  merkleToNodeIndex : H → Option Nat
  numberLeafNodes : Nat

variable {H : Type} [DecidableEq H] (hs : Hasher H)

/-- `HashMap::insert`, on a map given as a function. -/
def mapInsert {K V : Type} [DecidableEq K] (m : K → Option V) (k : K) (v : V) : K → Option V :=
  fun k' => if k' = k then some v else m k'

namespace TrieProofNode

variable (node : TrieProofNode H)

/-- `get_child`: the child merkle at `childIndex`, none for `MERKLE_NULL_NODE`. -/
def getChild (childIndex : UInt8) : Option H :=
  match node.childrenTable[childIndex.toNat]? with
  | some child => if child = merkleNullNode hs then none else some child
  | none => none

/-- The children table's iterator: the child indices and merkles of the present children. -/
def children : List (Nat × H) :=
  (node.childrenTable.toList.zipIdx.filter fun (child, _) => child ≠ merkleNullNode hs).map
    fun (child, childIndex) => (childIndex, child)

/-- `get_merkle_hash_wo_compressed_path`. -/
def merkleHashWoCompressedPath : H :=
  computeNodeMerkle hs (if (node.children hs).length = 0 then none else some node.childrenTable)
    node.mptValue.intoOption

end TrieProofNode

namespace TrieProof

/-- The connectivity check of `TrieProof::new` at one node: it must already be named, then
    its children are recorded with it as their parent. -/
def connectStep (parents : H → Option (List ParentInfo)) (entry : TrieProofNode H × Nat) :
    Except TrieProofError (H → Option (List ParentInfo)) :=
  let (node, nodeIndex) := entry
  if (parents node.merkle).isNone then .error .invalidTrieProof
  else .ok ((node.children hs).foldl (fun parents (childIndex, childMerkle) =>
    mapInsert parents childMerkle
      ((parents childMerkle).getD [] ++ [⟨nodeIndex, childIndex⟩])) parents)

/-- `TrieProof::new`: index the nodes by their stored merkles, check that every node is
    connected, count the leaves. -/
def new (nodes : List (TrieProofNode H)) : Except TrieProofError (TrieProof H) := do
  let merkleToNodeIndex : H → Option Nat := nodes.zipIdx.foldl
    (fun m (node, index) => mapInsert m node.merkle index) fun _ => none
  let root : H → Option (List ParentInfo) :=
    match nodes.head? with
    | some node => mapInsert (fun _ => none) node.merkle []
    | none => fun _ => none
  let parents ← nodes.zipIdx.foldlM (connectStep hs) root
  let isNonLeaf := nodes.foldl (fun isNonLeaf node =>
    match parents node.merkle with
    | some parentInfos => parentInfos.foldl (fun isNonLeaf parentInfo =>
        isNonLeaf.set parentInfo.parentNodeIndex true) isNonLeaf
    | none => isNonLeaf) (List.replicate nodes.length false)
  pure { nodes, merkleToNodeIndex, numberLeafNodes := isNonLeaf.countP (· = false) }

variable (proof : TrieProof H) (pred : Option (TrieProofNode H) → Bool)

/-- The loop of `is_valid`, for at most `fuel` iterations. -/
def isValidLoop : Nat → List UInt8 → H → Option Bool
  | 0, _, _ => none
  | fuel + 1, key, hash =>
    match proof.merkleToNodeIndex hash with
    | none => some false
    | some nodeIndex =>
      match proof.nodes[nodeIndex]? with
      | none => none
      | some node =>
        match walk key node.compressedPath node.pathMask (node.getChild hs) with
        | .arrived => some (pred (some node))
        | .pathDiverted => some (pred none)
        | .childNotFound _ _ => some (pred none)
        | .descent keyRemaining _ childNode => isValidLoop fuel keyRemaining childNode

/-- `is_valid`: the empty trie proves only absence; otherwise walk from the root. -/
def isValid (path : List UInt8) (root : H) (fuel : Nat) : Option Bool :=
  if root = merkleNullNode hs then some (pred none) else isValidLoop hs proof pred fuel path root

/-- `is_valid_kv`: the key has `value` (none: the key is absent). -/
def isValidKv (key : List UInt8) (value : Option (List UInt8)) (root : H) (fuel : Nat) :
    Option Bool :=
  proof.isValid hs (fun found => match found with
    | none => value == none
    | some node => value == node.mptValue.intoOption) key root fuel

/-- `is_valid_node_merkle`: the key has no node, a tombstone, or a node with this node
    merkle. -/
def isValidNodeMerkle (key : List UInt8) (nodeMerkle : MptValue H) (root : H) (fuel : Nat) :
    Option Bool :=
  proof.isValid hs (fun found => match found with
    | none => nodeMerkle == .none
    | some node =>
      if node.mptValue.isTombstone then nodeMerkle == .tombStone
      else nodeMerkle == .some (node.merkleHashWoCompressedPath hs)) key root fuel

/-! ## Proofs that `TrieProof::new` accepts -/

/-- A single node is connected: it is the root. -/
theorem new_singleton (node : TrieProofNode H) :
    ∃ proof, TrieProof.new hs [node] = .ok proof ∧ proof.nodes = [node] ∧
      proof.merkleToNodeIndex node.merkle = some 0 := by
  simp [new, connectStep, mapInsert, bind, Except.bind, pure, Except.pure, List.foldlM]

/-- The first iteration of the loop on a one-node proof, at that node's stored merkle. -/
theorem isValidLoop_singleton {node : TrieProofNode H} {proof : TrieProof H}
    (hnodes : proof.nodes = [node]) (hindex : proof.merkleToNodeIndex node.merkle = some 0)
    (pred : Option (TrieProofNode H) → Bool) (fuel : Nat) (key : List UInt8) :
    isValidLoop hs proof pred (fuel + 1) key node.merkle =
      match walk key node.compressedPath node.pathMask (node.getChild hs) with
      | .arrived => some (pred (some node))
      | .pathDiverted => some (pred none)
      | .childNotFound _ _ => some (pred none)
      | .descent keyRemaining _ childNode => isValidLoop hs proof pred fuel keyRemaining childNode := by
  rw [isValidLoop, hindex, hnodes]
  rfl

/-- A node claiming the merkle `root`, with no children, the path `path` and the value
    `value`, as `VanillaTrieNode::new` would store it. -/
def forgedNode (root : H) (path : List UInt8) (value : Option (List UInt8)) : TrieProofNode H :=
  { merkle := root, childrenTable := leafChildrenMerkle hs, mptValue := .ofOption value,
    compressedPath := path, pathMask := 0 }

section Forged

variable {hs} {root : H} (hroot : root ≠ merkleNullNode hs)
include hroot

/-- Under any root but the empty one, one forged node proves any value for any key. -/
theorem isValidKv_forged (key : List UInt8) (value : Option (List UInt8)) :
    ∃ proof, TrieProof.new hs [forgedNode hs root key value] = .ok proof ∧
      proof.isValidKv hs key value root 1 = some true := by
  obtain ⟨proof, hnew, hnodes, hindex⟩ := new_singleton hs (forgedNode hs root key value)
  refine ⟨proof, hnew, ?_⟩
  rw [isValidKv, isValid, if_neg hroot]
  -- the node's path is the key: the walk arrives, and the node holds `value`
  rw [show root = (forgedNode hs root key value).merkle from rfl,
    isValidLoop_singleton hs hnodes hindex, forgedNode, walk_of_eq]
  simp

/-- Under any root but the empty one, one forged node whose path runs past the key proves
    that the key has no node. -/
theorem isValidNodeMerkle_forged_absent (key : List UInt8) :
    ∃ proof, TrieProof.new hs [forgedNode hs root (key ++ [0]) none] = .ok proof ∧
      proof.isValidNodeMerkle hs key .none root 1 = some true := by
  obtain ⟨proof, hnew, hnodes, hindex⟩ := new_singleton hs (forgedNode hs root (key ++ [0]) none)
  refine ⟨proof, hnew, ?_⟩
  rw [isValidNodeMerkle, isValid, if_neg hroot]
  rw [show root = (forgedNode hs root (key ++ [0]) none).merkle from rfl,
    isValidLoop_singleton hs hnodes hindex, forgedNode,
    walk_append_of_ne_nil _ key [0] (List.cons_ne_nil 0 [])]
  rfl

/-- Under any root but the empty one, one forged node with an empty value proves a
    tombstone under any key. -/
theorem isValidNodeMerkle_forged_tombstone (key : List UInt8) :
    ∃ proof, TrieProof.new hs [forgedNode hs root key (some [])] = .ok proof ∧
      proof.isValidNodeMerkle hs key .tombStone root 1 = some true := by
  obtain ⟨proof, hnew, hnodes, hindex⟩ := new_singleton hs (forgedNode hs root key (some []))
  refine ⟨proof, hnew, ?_⟩
  rw [isValidNodeMerkle, isValid, if_neg hroot]
  rw [show root = (forgedNode hs root key (some [])).merkle from rfl,
    isValidLoop_singleton hs hnodes hindex, forgedNode, walk_of_eq]
  rfl

end Forged

/-- Proof checking is not sound: for an injective `keccak`, every trie and every key, some
    proof accepted by `TrieProof::new` makes `is_valid_kv` certify a value that the trie does
    not map the key to, and some makes `is_valid_node_merkle` certify a node merkle the trie
    does not have under the key, both against the trie's own root merkle. -/
theorem trie_proof_accepts_forgery (hinj : Function.Injective hs.keccak) (t : Trie)
    (key : List UInt8) :
    (∃ nodes proof value, TrieProof.new hs nodes = .ok proof ∧
      proof.isValidKv hs key value (t.merkle hs) 1 = some true ∧ t.lookup key ≠ value) ∧
    (∃ nodes proof nodeMerkle, TrieProof.new hs nodes = .ok proof ∧
      proof.isValidNodeMerkle hs key nodeMerkle (t.merkle hs) 1 = some true ∧
      t.nodeMerkleAt hs key ≠ nodeMerkle) := by
  have hroot := merkle_ne_merkleNullNode hinj t
  constructor
  · -- certify the empty value where the key is absent, absence where it is present
    have hwrong : t.lookup key ≠ (if (t.lookup key).isSome then none else some []) := by
      cases t.lookup key <;> simp
    obtain ⟨proof, hnew, hvalid⟩ := isValidKv_forged hroot key
      (if (t.lookup key).isSome then none else some [])
    exact ⟨_, proof, _, hnew, hvalid, hwrong⟩
  · cases hat : t.nodeMerkleAt hs key with
    | none =>
      -- no node under the key: certify a tombstone
      obtain ⟨proof, hnew, hvalid⟩ := isValidNodeMerkle_forged_tombstone hroot key
      exact ⟨_, proof, .tombStone, hnew, hvalid, by intro h; cases h⟩
    | tombStone =>
      obtain ⟨proof, hnew, hvalid⟩ := isValidNodeMerkle_forged_absent hroot key
      exact ⟨_, proof, .none, hnew, hvalid, by intro h; cases h⟩
    | some m =>
      obtain ⟨proof, hnew, hvalid⟩ := isValidNodeMerkle_forged_absent hroot key
      exact ⟨_, proof, .none, hnew, hvalid, by intro h; cases h⟩

/-- The identity as a hash of byte strings: injective. -/
def identityHasher : Hasher (List UInt8) := ⟨id, id⟩

/-- A one-node trie mapping the empty key to `[1]`. -/
def leafTrie : Trie := .node [] (.some [1]) [] 0

example : leafTrie.lookup [] = some [1] := by decide

theorem trie_proof_accepts_forgery_at_leafTrie :
    Function.Injective identityHasher.keccak ∧
    (∃ nodes proof value, TrieProof.new identityHasher nodes = .ok proof ∧
      proof.isValidKv identityHasher [] value (leafTrie.merkle identityHasher) 1 = some true ∧
      leafTrie.lookup [] ≠ value) ∧
    (∃ nodes proof nodeMerkle, TrieProof.new identityHasher nodes = .ok proof ∧
      proof.isValidNodeMerkle identityHasher [] nodeMerkle
        (leafTrie.merkle identityHasher) 1 = some true ∧
      leafTrie.nodeMerkleAt identityHasher [] ≠ nodeMerkle) :=
  ⟨Function.injective_id,
    trie_proof_accepts_forgery identityHasher Function.injective_id leafTrie []⟩

/-! ## A proof that never returns -/

/-- A node claiming the merkle `root` with no path and, at the first nibble of `x`, the child
    `root`: itself. -/
def cycleNode (root : H) (x : UInt8) : TrieProofNode H :=
  { merkle := root,
    childrenTable := (leafChildrenMerkle hs).set (firstNibble x).toNat root (firstNibble_lt x),
    mptValue := .none, compressedPath := [], pathMask := 0 }

/-- `TrieProof::new` accepts a one-node cycle, and `is_valid` on any key through it loops
    forever: the walk through the empty path hands the whole key back to the same node. -/
theorem isValid_cycle {root : H} (hroot : root ≠ merkleNullNode hs) (x : UInt8)
    (rest : List UInt8) (pred : Option (TrieProofNode H) → Bool) :
    ∃ proof, TrieProof.new hs [cycleNode hs root x] = .ok proof ∧
      ∀ fuel, proof.isValid hs pred (x :: rest) root fuel = none := by
  obtain ⟨proof, hnew, hnodes, hindex⟩ := new_singleton hs (cycleNode hs root x)
  have hchild : (cycleNode hs root x).getChild hs (firstNibble x) = some root := by
    simp [TrieProofNode.getChild, cycleNode, Vector.getElem?_set_self (firstNibble_lt x), hroot]
  have hwalk : walk (x :: rest) (cycleNode hs root x).compressedPath (cycleNode hs root x).pathMask
      ((cycleNode hs root x).getChild hs) = .descent (x :: rest) (firstNibble x) root := by
    rw [show (cycleNode hs root x).compressedPath = [] from rfl,
      show (cycleNode hs root x).pathMask = 0 from rfl, walk_nil_cons, descend, hchild]
  refine ⟨proof, hnew, fun fuel => ?_⟩
  rw [isValid, if_neg hroot]
  -- every iteration comes back to the same hash with the same key
  induction fuel with
  | zero => rfl
  | succ fuel ih =>
    rw [show root = (cycleNode hs root x).merkle from rfl,
      isValidLoop_singleton hs hnodes hindex, hwalk]
    exact ih

end TrieProof

end Mazze.Storage
