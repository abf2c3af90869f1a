/-
  `TreapMap` (`map.rs`) and its three updaters (`update.rs`).

  The configuration of a map is its `next_node_dir` and its key manager (`KeyMngTrait`, the
  `ExtMap`): the manager is told of every change of a key's value (`view_update`), counts the
  keys (`len`) and gives the sort key of a search key. `Counter` is the manager of the maps
  whose sort key is `()`: it only counts.

  `InsertOp` puts a node in its place or overwrites the value and weight of the node of equal
  key; `RemoveOp` deletes the node of a key; `ApplyOp` runs the caller's closures: `update` on
  the node of the key, which may rewrite any public field and asks for a new weight sum, a new
  place (`update_key`) or deletion, and `insert` on a vacant slot. `TreapMap::update` re-inserts
  a node that asked for a new place. The random generator is a state `ρ` with its step
  `nextU64`; a closure's `&mut dyn RngCore` is that state passed through.
-/
import Mazze.TreapMap.Node

namespace Mazze.Treap

open BinaryTree

/-- `KeyMngTrait`, over the manager's state `ε`; `default` is its `Default`. -/
structure KeyMng (κ σ V ε : Type) where
  default : ε
  viewUpdate : ε → κ → Option V → Option V → ε
  len : ε → Nat
  getSortKey : ε → κ → Option σ
  makeSortKey : ε → κ → V → σ

/-- `TreapMapConfig`: the order of the treap and its key manager. -/
structure TreapMapConfig (κ σ V ε : Type) where
  nextNodeDir : σ × κ → σ × κ → Option Direction
  extMap : KeyMng κ σ V ε

/-- `Counter`, the key manager of `SharedKeyTreapMapConfig`: a count of the keys. The count is
    a `usize`, lowered by saturating subtraction here. -/
def counter (κ V : Type) : KeyMng κ Unit V Nat where
  default := 0
  viewUpdate c _ value oldValue :=
    let c := if value.isSome then c + 1 else c
    if oldValue.isSome then c - 1 else c
  len c := c
  getSortKey _ _ := some ()
  makeSortKey _ _ _ := ()

/-- `SharedKeyTreapMapConfig::next_node_dir`: the search key's own order, smaller to the left. -/
def sharedKeyNextNodeDir {κ : Type} [Ord κ] (me other : Unit × κ) : Option Direction :=
  match compare me.2 other.2 with
  | .lt => some .left
  | .eq => none
  | .gt => some .right

/-- The configuration of a `SharedKeyTreapMapConfig`. -/
def sharedKeyConfig (κ V : Type) [Ord κ] : TreapMapConfig κ Unit V Nat where
  nextNodeDir := sharedKeyNextNodeDir
  extMap := counter κ V

/-- `ApplyOpOutcome`. -/
structure ApplyOpOutcome (T : Type) where
  out : T
  updateWeight : Bool
  updateKey : Bool
  deleteItem : Bool

variable {κ σ V W ε : Type}

/-- `InsertOp`: a new node at a vacant slot, or the new value and weight over the node of
    equal key, whose old value it returns. -/
def insertOp [DecidableEq W] (C : TreapMapConfig κ σ V ε) (node : Node κ σ V W) :
    TreapNodeUpdate κ σ V W ε (Option V) Unit where
  treapKey := node.treapKey
  updateVacant e :=
    some (C.extMap.viewUpdate e node.key (some node.value) none, .insertOnVacant node none)
  updateOccupied n e :=
    some ({ n with value := node.value, weight := node.weight },
      C.extMap.viewUpdate e node.key (some node.value) (some n.value),
      .updated (n.weight != node.weight) (some n.value))
  -- `update_node` never asks for deletion: `unreachable!()`
  handleDelete _ _ := none

/-- `RemoveOp`: delete the node of the key, returning its value. -/
def removeOp (C : TreapMapConfig κ σ V ε) (key : σ × κ) :
    TreapNodeUpdate κ σ V W ε (Option V) Unit where
  treapKey := key
  updateVacant e := some (C.extMap.viewUpdate e key.2 none none, .delete ())
  updateOccupied n e := some (n, C.extMap.viewUpdate e key.2 none (some n.value), .delete ())
  handleDelete deleted _ := some (deleted.map (·.value))

/-- The `update` closure of `TreapMap::update`: it sees the node, writes its public fields and
    returns its outcome. `none` is a panic inside the closure. -/
abbrev UpdateFn (κ σ V W E T : Type) :=
  Node κ σ V W → Option (NodeFields κ σ V W × Except E (ApplyOpOutcome T))

/-- The `insert` closure of `TreapMap::update`: from the generator, the arguments of
    `Node::new` other than the priority, the priority, and the return value, with the generator
    after it. `none` is a panic inside the closure. -/
abbrev InsertFn (κ σ V W E T ρ : Type) :=
  ρ → Option (Except E ((NodeFields κ σ V W × Nat) × T) × ρ)

/-- `ApplyOp` with the caller's closures. The return value carries the node to re-insert when
    it asked for a new place. -/
def applyOp {E T ρ : Type} (C : TreapMapConfig κ σ V ε) (key : σ × κ) (update : UpdateFn κ σ V W E T)
    (insert : InsertFn κ σ V W E T ρ) :
    TreapNodeUpdate κ σ V W (ε × ρ) (Except E (T × Option (Node κ σ V W))) (T × Bool) where
  treapKey := key
  updateVacant := fun (e, g) => do
    let (res, g) ← insert g
    match res with
    | .error err => some ((e, g), .noop (.error err))
    | .ok ((f, priority), ret) =>
      let node := Node.new f.key f.value f.sortKey f.weight priority
      let e := C.extMap.viewUpdate e key.2 (some node.value) none
      -- `assert!`: the new node must sit at the key it was built for
      if (C.nextNodeDir key node.treapKey).isNone then
        some ((e, g), .insertOnVacant node (.ok (ret, none)))
      else none
  updateOccupied n := fun (e, g) => do
    let oldValue := n.value
    let (f, res) ← update n
    -- the closure has written the node whether or not it then fails
    let n := { n with toNodeFields := f }
    match res with
    | .error err => some (n, (e, g), .noop (.error err))
    | .ok o =>
      let e := C.extMap.viewUpdate e key.2 (if o.deleteItem then none else some n.value)
        (some oldValue)
      if o.updateKey || o.deleteItem then some (n, (e, g), .delete (o.out, o.deleteItem))
      else some (n, (e, g), .updated o.updateWeight (.ok (o.out, none)))
  handleDelete deleted := fun (ret, deleteItem) =>
    if deleteItem then some (.ok (ret, none))
    else deleted.map fun d => .ok (ret, some d)

/-- `TreapMap`: the root, the key manager and the random generator. -/
structure TreapMap (κ σ V W ε ρ : Type) where
  root : MaybeNode κ σ V W
  extMap : ε
  rng : ρ

namespace TreapMap

variable {ρ : Type} [ConsoliableWeight W] [DecidableEq W] (C : TreapMapConfig κ σ V ε)
  (nextU64 : ρ → Nat × ρ)

/-- `TreapMap::new_with_rng`. -/
def new (rng : ρ) : TreapMap κ σ V W ε ρ := { root := .nil, extMap := C.extMap.default, rng }

/-- `TreapMap::len`: what the key manager counts. -/
def len (m : TreapMap κ σ V W ε ρ) : Nat := C.extMap.len m.extMap

/-- `TreapMap::insert`: a new node with a fresh priority, through `InsertOp`. -/
def insert (m : TreapMap κ σ V W ε ρ) (key : κ) (value : V) (weight : W) :
    Option (TreapMap κ σ V W ε ρ × Option V) := do
  let sortKey := C.extMap.makeSortKey m.extMap key value
  let (priority, rng) := nextU64 m.rng
  let node := Node.new key value sortKey weight priority
  let (root, extMap, ret, _, _) ← updateInner C.nextNodeDir (insertOp C node) m.root m.extMap
  pure ({ root, extMap, rng }, ret)

/-- `TreapMap::remove`: nothing to do for a key the manager does not know. -/
def remove (m : TreapMap κ σ V W ε ρ) (key : κ) : Option (TreapMap κ σ V W ε ρ × Option V) :=
  match C.extMap.getSortKey m.extMap key with
  | none => some (m, none)
  | some sortKey => do
    let (root, extMap, ret, _, _) ←
      updateInner C.nextNodeDir (removeOp C (sortKey, key)) m.root m.extMap
    pure ({ m with root, extMap }, ret)

/-- `TreapMap::update`. A key the manager does not know goes straight to `insert`; otherwise
    `ApplyOp` runs at the key, and a node it took out to move is inserted again. An error of a
    closure is returned after whatever the closure did to the node. -/
def update {E T : Type} (m : TreapMap κ σ V W ε ρ) (key : κ) (update : UpdateFn κ σ V W E T)
    (insert : InsertFn κ σ V W E T ρ) : Option (TreapMap κ σ V W ε ρ × Except E T) :=
  match C.extMap.getSortKey m.extMap key with
  | none => do
    let (res, rng) ← insert m.rng
    match res with
    | .ok ((f, _), ret) => do
      let (m, _) ← TreapMap.insert C nextU64 { m with rng } f.key f.value f.weight
      pure (m, .ok ret)
    | .error err => some ({ m with rng }, .error err)
  | some sortKey => do
    let (root, (extMap, rng), res, _, _) ←
      updateInner C.nextNodeDir (applyOp C (sortKey, key) update insert) m.root (m.extMap, m.rng)
    let m : TreapMap κ σ V W ε ρ := { root, extMap, rng }
    match res with
    | .error err => pure (m, .error err)
    | .ok (ret, none) => pure (m, .ok ret)
    | .ok (ret, some n) => do
      let (m, _) ← TreapMap.insert C nextU64 m n.key n.value n.weight
      pure (m, .ok ret)

/-- `TreapMap::get`. -/
def get (m : TreapMap κ σ V W ε ρ) (key : κ) : Option V := do
  let sortKey ← C.extMap.getSortKey m.extMap key
  Mazze.Treap.get C.nextNodeDir sortKey key m.root

/-- `TreapMap::sum_weight`. -/
def sumWeight (m : TreapMap κ σ V W ε ρ) : W :=
  match m.root with
  | .nil => ConsoliableWeight.empty
  | .node n _ _ => n.sumWeight

end TreapMap

end Mazze.Treap
