/-
  The treap-map crate's nodes (`node.rs`, `update.rs`, `config.rs`).

  `Option<Box<Node<C>>>` is a `BinaryTree` of node payloads: a payload holds the fields of
  `Node` other than `left` and `right`, which are the subtrees around it. The payload extends
  `NodeFields`, the public fields a caller of `TreapMap::update` can write through its
  `&mut Node`; `sum_weight` is crate-private and `priority` private, so a closure's writes are
  modelled as a new `NodeFields`. The configuration's `next_node_dir` compares
  `(sort_key, key)` pairs.

  `updateInner` is `Node::update_inner`: it walks down to the key of its updater, lets the
  updater act on the node or the vacant slot there (`process_update_result`), and on the way
  back recomputes `sum_weight` where the updater asked for it and rotates a node above a child
  of higher priority. Deletion rotates the node down to a leaf (`Node::delete`). A panic
  (`unwrap` of `None`, `unreachable!`, `assert!`) is `none`.
-/
import Mazze.Tree.Inorder
import Mathlib

namespace Mazze.Treap

open BinaryTree

/-- `Direction`. -/
inductive Direction where
  | left
  | right
  deriving DecidableEq, Repr

/-- `ConsoliableWeight`: a neutral weight and the operation that accumulates two weights.
    `accure` is the in-place form of `consolidate`. -/
class ConsoliableWeight (W : Type) where
  empty : W
  consolidate : W → W → W

export ConsoliableWeight (consolidate)

/-- The blanket `impl<T: Add + Clone + Zero + Eq> ConsoliableWeight for T`: sums. -/
instance (priority := low) ConsoliableWeight.ofAdd {T : Type} [Add T] [Zero T] :
    ConsoliableWeight T where
  empty := 0
  consolidate a b := a + b

/-- The public fields of a `Node`. -/
structure NodeFields (κ σ V W : Type) where
  key : κ
  value : V
  sortKey : σ
  weight : W
  deriving DecidableEq, Repr

/-- `Node`, without its children. `priority` is a `u64`. -/
structure Node (κ σ V W : Type) extends NodeFields κ σ V W where
  sumWeight : W
  priority : Nat
  deriving DecidableEq, Repr

/-- `Option<Box<Node<C>>>`, a `maybe_node`: empty, or a node over its two children. -/
abbrev MaybeNode (κ σ V W : Type) := BinaryTree (Node κ σ V W)

variable {κ σ V W : Type}

/-- `Node::new`: a leaf whose `sum_weight` is its weight. -/
def Node.new (key : κ) (value : V) (sortKey : σ) (weight : W) (priority : Nat) :
    Node κ σ V W :=
  { key, value, sortKey, weight, sumWeight := weight, priority }

/-- The pair a node is ordered by. -/
def Node.treapKey (n : Node κ σ V W) : σ × κ := (n.sortKey, n.key)

section Weight

variable [ConsoliableWeight W]

/-- `accure` of a child's `sum_weight`, when there is a child. -/
def accureChild (w : W) : MaybeNode κ σ V W → W
  | .nil => w
  | .node c _ _ => consolidate w c.sumWeight

/-- `Node::update_weight`: the node's weight, accumulated with its left and then its right
    child's `sum_weight`. -/
def Node.updateWeight (n : Node κ σ V W) (left right : MaybeNode κ σ V W) : Node κ σ V W :=
  { n with sumWeight := accureChild (accureChild n.weight left) right }

/-- A node put back over its children after `update_weight`. -/
def withWeight (n : Node κ σ V W) (left right : MaybeNode κ σ V W) : MaybeNode κ σ V W :=
  .node (n.updateWeight left right) left right

/-- `update_weight` on the root of a slot, if there is one. -/
def reweigh : MaybeNode κ σ V W → MaybeNode κ σ V W
  | .nil => .nil
  | .node n l r => withWeight n l r

/-- `Node::right_rotate` of `y` over its left child `x`:
    `y (x a b) c` becomes `x a (y b c)`. -/
def rightRotate (y x : Node κ σ V W) (a b c : MaybeNode κ σ V W) : MaybeNode κ σ V W :=
  withWeight x a (withWeight y b c)

/-- `Node::left_rotate` of `x` over its right child `y`:
    `x a (y b c)` becomes `y (x a b) c`. -/
def leftRotate (x y : Node κ σ V W) (a b c : MaybeNode κ σ V W) : MaybeNode κ σ V W :=
  withWeight y (withWeight x a b) c

mutual

/-- `Node::delete` of the node `n` with children `l` and `r`: rotate the child of higher
    priority above it (the left one when both have the same) until `n` is a leaf, then take it
    out. Returns the new slot and the node taken out. -/
def delete (n : Node κ σ V W) (l r : MaybeNode κ σ V W) : MaybeNode κ σ V W × Node κ σ V W :=
  match l, r with
  | .nil, .nil => (.nil, n)
  | .nil, .node y b c => deleteRight n .nil y b c
  | .node x a b, .nil => deleteLeft n x a b .nil
  | .node x a b, .node y c d =>
    if x.priority < y.priority then deleteRight n (.node x a b) y c d
    else deleteLeft n x a b (.node y c d)
termination_by (l.numNodes + r.numNodes, 1)

/-- The `Right` arm of `Node::delete`: `left_rotate`, then delete `n` from the new left
    child and `update_weight` the new root. -/
def deleteRight (n : Node κ σ V W) (l : MaybeNode κ σ V W) (y : Node κ σ V W)
    (b c : MaybeNode κ σ V W) : MaybeNode κ σ V W × Node κ σ V W :=
  let x := n.updateWeight l b
  let y := y.updateWeight (.node x l b) c
  let (l', d) := delete x l b
  (withWeight y l' c, d)
termination_by (l.numNodes + (b.numNodes + c.numNodes + 1), 0)
decreasing_by all_goals simp only [Prod.lex_def]; omega

/-- The `Left` arm of `Node::delete`: `right_rotate`, then delete `n` from the new right
    child and `update_weight` the new root. -/
def deleteLeft (n x : Node κ σ V W) (a b r : MaybeNode κ σ V W) : MaybeNode κ σ V W × Node κ σ V W :=
  let n' := n.updateWeight b r
  let x := x.updateWeight a (.node n' b r)
  let (r', d) := delete n' b r
  (withWeight x a r', d)
termination_by ((a.numNodes + b.numNodes + 1) + r.numNodes, 0)
decreasing_by all_goals simp only [Prod.lex_def]; omega

end

end Weight

/-- `OpResult`: what an updater asks `update_inner` to do with the slot it reached. -/
inductive OpResult (κ σ V W R DR : Type) where
  | insertOnVacant (insert : Node κ σ V W) (ret : R)
  | updated (updateWeight : Bool) (ret : R)
  | noop (ret : R)
  | delete (deleteRet : DR)

/-- `TreapNodeUpdate`: an updater carrying the state `ε` it may change (the key manager, and
    for `ApplyOp` also the random generator its insert closure draws from). `update_node`
    receives `Option<&mut Box<Node>>`: `updateVacant` is its `None` case and `updateOccupied`
    its `Some` case, which returns the node as the updater left it. -/
structure TreapNodeUpdate (κ σ V W ε R DR : Type) where
  treapKey : σ × κ
  updateVacant : ε → Option (ε × OpResult κ σ V W R DR)
  updateOccupied : Node κ σ V W → ε → Option (Node κ σ V W × ε × OpResult κ σ V W R DR)
  handleDelete : Option (Node κ σ V W) → DR → Option R

section UpdateInner

variable [ConsoliableWeight W] {ε R DR : Type}
  (nextNodeDir : σ × κ → σ × κ → Option Direction) (u : TreapNodeUpdate κ σ V W ε R DR)

/-- `Node::delete` on a slot if it holds a node: the new slot and the node taken out. -/
def deleteSlot : MaybeNode κ σ V W → MaybeNode κ σ V W × Option (Node κ σ V W)
  | .nil => (.nil, none)
  | .node n l r =>
    let (t, deleted) := delete n l r
    (t, some deleted)

/-- `Node::process_update_result` on the slot `t`: the new slot, the updater's return value,
    and the `update_weight` and `update_priority` flags. `InsertOnVacant` replaces the slot by
    the new leaf. -/
def processUpdateResult (t : MaybeNode κ σ V W) :
    OpResult κ σ V W R DR → Option (MaybeNode κ σ V W × R × Bool × Bool)
  | .noop ret => some (t, ret, false, false)
  | .updated uw ret => some (t, ret, uw, false)
  | .insertOnVacant ins ret => some (.node ins .nil .nil, ret, true, true)
  | .delete dr =>
    let (t, deleted) := deleteSlot t
    (u.handleDelete deleted dr).map fun ret => (t, ret, true, true)

/-- `updater.update_node(maybe_node.as_mut())`: the slot as the updater left it, its new state
    and what it asks for. -/
def updateNodeAt : MaybeNode κ σ V W → ε → Option (MaybeNode κ σ V W × ε × OpResult κ σ V W R DR)
  | .nil, e => (u.updateVacant e).map fun (e, res) => (.nil, e, res)
  | .node n l r, e => (u.updateOccupied n e).map fun (n, e, res) => (.node n l r, e, res)

/-- The tail of `update_inner` after the walk went left at `n`: a child that came back with
    `update_priority` and a higher priority is rotated above `n`; otherwise the flag is
    cleared. -/
def rebalanceLeft (n : Node κ σ V W) (l r : MaybeNode κ σ V W) (up : Bool) : MaybeNode κ σ V W × Bool :=
  match up, l with
  | true, .node x a b =>
    if n.priority < x.priority then (rightRotate n x a b r, true) else (.node n l r, false)
  | _, _ => (.node n l r, false)

/-- The same after the walk went right. -/
def rebalanceRight (n : Node κ σ V W) (l r : MaybeNode κ σ V W) (up : Bool) : MaybeNode κ σ V W × Bool :=
  match up, r with
  | true, .node y b c =>
    if n.priority < y.priority then (leftRotate n y l b c, true) else (.node n l r, false)
  | _, _ => (.node n l r, false)

/-- The arm of `Node::update_inner` where the walk stops, at the vacant slot or at the node
    of the updater's key: `update_node`, `process_update_result`, then `update_weight` on
    whatever the slot holds if the updater asked for it. -/
def updateSlot (t : MaybeNode κ σ V W) (e : ε) : Option (MaybeNode κ σ V W × ε × R × Bool × Bool) := do
  let (t, e, res) ← updateNodeAt u t e
  let (t, ret, uw, up) ← processUpdateResult u t res
  pure (if uw then reweigh t else t, e, ret, uw, up)

/-- `Node::update_inner`: the new slot, the updater's state and return value, and the
    `update_weight` and `update_priority` flags passed back to the parent. -/
def updateInner : MaybeNode κ σ V W → ε → Option (MaybeNode κ σ V W × ε × R × Bool × Bool)
  | .nil, e => updateSlot u .nil e
  | .node n l r, e =>
    match nextNodeDir u.treapKey n.treapKey with
    | none => updateSlot u (.node n l r) e
    | some .left => do
      let (l, e, ret, uw, up) ← updateInner l e
      let n := if uw then n.updateWeight l r else n
      let (t, up) := rebalanceLeft n l r up
      pure (t, e, ret, uw, up)
    | some .right => do
      let (r, e, ret, uw, up) ← updateInner r e
      let n := if uw then n.updateWeight l r else n
      let (t, up) := rebalanceRight n l r up
      pure (t, e, ret, uw, up)

end UpdateInner

/-- `Node::get`: follow `next_node_dir` from the root to the node of the key. -/
def get (nextNodeDir : σ × κ → σ × κ → Option Direction) (sortKey : σ) (key : κ) :
    MaybeNode κ σ V W → Option V
  | .nil => none
  | .node n l r =>
    match nextNodeDir (sortKey, key) n.treapKey with
    | none => some n.value
    | some .left => get nextNodeDir sortKey key l
    | some .right => get nextNodeDir sortKey key r

end Mazze.Treap
