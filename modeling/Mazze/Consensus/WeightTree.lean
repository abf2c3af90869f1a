/-
  The two link-cut trees of the consensus graph (`consensus_inner/mod.rs`,
  `consensus_new_block_handler.rs`) and every operation that changes them.

  `weight_tree` holds, for a block `x` of the era, its subtree weight `SubTW(x)`: the total
  `block_weight` of `x` and its descendants. `adaptive_tree` holds
  `2 * SubTW(x) - SubTW(parent(x)) + block_weight(parent(x))`, which the adaptivity test reads
  along a path. Neither is ever recomputed. A new block is linked in as a leaf of value 0
  (`update_lcts_initial`); its activation adds its weight with one path update in each tree
  and one caterpillar update in the adaptive tree (`update_lcts_finalize`); a checkpoint cuts
  the trees at the new era genesis (`make_checkpoint_at`); and three validity checks take the
  weight of the outlier barrier out of the trees and put it back (`adaptive_weight_impl`,
  `check_correct_parent`, `choose_correct_parent_impl`).

  Of `ConsensusGraphInner` the model keeps the arena (a slab whose vacant slots are `none`),
  the two trees in their reference semantics (`Forest.LinkCut`), the era genesis and
  `heavy_block_difficulty_ratio`; of an arena node, the fields these operations read. A walk
  of the trees from a block takes its height plus one as fuel: heights drop by one along every
  edge. The reads that the validity checks make between taking the barrier out and putting it
  back are not modelled, only the state they leave behind.

  `Step` is every change the consensus graph makes to this state, each under the condition
  its caller establishes, and `Reachable` what runs of steps reach from `with_era_genesis`.
-/
import Mazze.Forest.LinkCut
import Mathlib

namespace Mazze.Consensus

open Forest

/-- The fields of a `ConsensusGraphNode` that the weight trees depend on; `NULL` is `none`. -/
structure ConsensusGraphNode where
  height : Nat
  isHeavy : Bool
  /-- `difficulty.low_u128()` -/
  difficulty : Nat
  adaptive : Bool
  parent : Option Nat
  eraBlock : Option Nat
  activated : Bool
  deriving Repr, DecidableEq

/-- The part of `ConsensusGraphInner` the weight trees live in, with trees of type `τ`: the
    reference forests unless an implementation is given. -/
structure ConsensusGraphInner (τ : Type := LinkCut Nat) where
  arena : Nat → Option ConsensusGraphNode
  /-- The length of the slab's entry vector: every slot at or past it is vacant. -/
  arenaLen : Nat
  weightTree : τ
  adaptiveTree : τ
  curEraGenesisBlockArenaIndex : Nat
  heavyBlockDifficultyRatio : Nat

namespace ConsensusGraphInner

/-! ## Reading and writing the arena

These do not touch the trees, whatever their type. -/

section Arena

variable {τ : Type} (s : ConsensusGraphInner τ)

def parentOf (i : Nat) : Option Nat := (s.arena i).bind ConsensusGraphNode.parent

def heightOf (i : Nat) : Nat := ((s.arena i).map ConsensusGraphNode.height).getD 0

def activatedOf (i : Nat) : Bool := ((s.arena i).map ConsensusGraphNode.activated).getD false

/-- `era_block != NULL`: the block is in the era. -/
def inEra (i : Nat) : Bool := ((s.arena i).map fun b => b.eraBlock.isSome).getD false

/-- `block_weight`: 0 before activation and outside the era; then the difficulty, or for an
    adaptive block the difficulty times `heavy_block_difficulty_ratio` if it is heavy and 0
    if not. A vacant slot weighs nothing. -/
def blockWeight (me : Nat) : Int :=
  match s.arena me with
  | none => 0
  | some b =>
    if !b.activated || b.eraBlock.isNone then 0
    else if b.adaptive then
      if b.isHeavy then (s.heavyBlockDifficultyRatio : Int) * b.difficulty else 0
    else b.difficulty

/-- The fuel of a walk from `me` to the root of its tree. -/
def fuel (me : Nat) : Nat := s.heightOf me + 1

/-- The parent edges of the era: a block outside the era has no parent in it. -/
def eraParent (i : Nat) : Option Nat := if s.inEra i then s.parentOf i else none

/-- `i` and its ancestors in the era, nearest first. -/
def eraPath (i : Nat) : List Nat := pathFrom s.eraParent (s.fuel i) i

/-- `SubTW(x)`: the total `block_weight` of `x` and its descendants. -/
def subTW (x : Nat) : Int :=
  ∑ y ∈ Finset.range s.arenaLen, if x ∈ s.eraPath y then s.blockWeight y else 0

/-- `new_era_genesis_subtree`: `g` and its descendants in the era. -/
def inSubtree (g x : Nat) : Bool := g ∈ s.eraPath x

/-- A write to slot `me` of the arena. -/
def withNode (me : Nat) (node : Option ConsensusGraphNode) : ConsensusGraphInner τ :=
  { s with arena := Function.update s.arena me node }

/-- A write to the two trees. -/
def withTrees (weightTree adaptiveTree : τ) : ConsensusGraphInner τ :=
  { s with weightTree := weightTree, adaptiveTree := adaptiveTree }

/-- `self.arena.insert(node)`, into the slot `me` the slab hands out: a vacant one or the end
    of the entries. A new node is not activated. -/
def insert (me : Nat) (node : ConsensusGraphNode) : ConsensusGraphInner τ :=
  { s.withNode me (some { node with activated := false }) with
    arenaLen := max s.arenaLen (me + 1) }

end Arena

/-! ## Operations on the reference forests -/

variable (s : ConsensusGraphInner)

/-- `update_lcts_initial`: the block becomes a one-node tree of value 0 in both trees, linked
    under its parent. -/
def updateLctsInitial (me : Nat) : ConsensusGraphInner :=
  let parent := s.parentOf me
  s.withTrees ((s.weightTree.makeTree me).link parent me)
    ((s.adaptiveTree.makeTree me).link parent me)

/-- `update_lcts_finalize`: the adaptive value of the block is set from its parent's subtree
    weight; then its weight is added along its path in both trees, twice in the adaptive one,
    and taken off the caterpillar of its parent. A block without a parent is `none`: the source
    reads the trees at `NULL`, out of bounds. -/
def updateLctsFinalize (me : Nat) : Option ConsensusGraphInner := do
  let parent ← s.parentOf me
  let parentTw := s.weightTree.get parent
  let parentW := s.blockWeight parent
  let adaptiveTree := s.adaptiveTree.set me (-parentTw + parentW)
  let weight := s.blockWeight me
  pure (s.withTrees (s.weightTree.pathApply (s.fuel me) me weight)
    ((adaptiveTree.pathApply (s.fuel me) me (2 * weight)).caterpillarApply (s.fuel parent) parent
      (-weight)))

/-- The in-era branch of `on_new_block`: `insert`, then `update_lcts_initial`. -/
def onNewBlock (me : Nat) (node : ConsensusGraphNode) : ConsensusGraphInner :=
  (s.insert me node).updateLctsInitial me

/-- `insert_out_era_block`: a stub outside the era, and a one-node tree in each tree. -/
def insertOutEraBlock (me : Nat) (node : ConsensusGraphNode) : ConsensusGraphInner :=
  let s := s.insert me { node with eraBlock := none }
  s.withTrees (s.weightTree.makeTree me) (s.adaptiveTree.makeTree me)

/-- `activate_block`, as far as the trees go: the block is activated, and a block of the era
    enters the trees through `update_lcts_finalize`. A vacant slot is `none`. -/
def activateBlock (me : Nat) : Option ConsensusGraphInner := do
  let b ← s.arena me
  let s := s.withNode me (some { b with activated := true })
  if b.eraBlock.isNone then pure s else s.updateLctsFinalize me

/-- `split_root(me)`: `me` is cut from its parent in both trees and in the arena. -/
def splitRoot (me : Nat) : ConsensusGraphInner :=
  (s.withNode me ((s.arena me).map fun b => { b with parent := none })).withTrees
    (s.weightTree.splitRoot me) (s.adaptiveTree.splitRoot me)

/-- One turn of the legacy loop of `make_checkpoint_at`: a legacy block still in the era is
    cut from the trees; it keeps its parent only if the parent is in the new era, and it
    leaves the era. -/
def reassignLegacy (newEraSet : Nat → Bool) (t : ConsensusGraphInner) (me : Nat) :
    ConsensusGraphInner :=
  match t.arena me with
  | none => t
  | some b =>
    let parent := b.parent.filter newEraSet
    let t := if b.eraBlock.isSome then t.splitRoot me else t
    t.withNode me (some { b with parent := parent, eraBlock := none })

/-- The end of `make_checkpoint_at`, after the legacy loop: the blocks outside the new era
    are removed from the arena (not from the trees), and `g` is cut from its parent and
    becomes the era genesis. -/
def finishCheckpoint (t : ConsensusGraphInner) (g : Nat) (newEraSet : Nat → Bool) :
    ConsensusGraphInner :=
  let t : ConsensusGraphInner :=
    { t with arena := fun x => if newEraSet x then t.arena x else none }
  { t.splitRoot g with curEraGenesisBlockArenaIndex := g }

/-- `make_checkpoint_at(g)`, the part the trees see. `newEraSet` is the new era block set of
    `compute_old_era_and_new_era_block_set`, the blocks outside the past of `g`. Those of them
    outside the subtree of `g` are the legacy blocks; the loop visits them in index order,
    each turn writing its own block only. -/
def makeCheckpointAt (g : Nat) (newEraSet : Nat → Bool) : ConsensusGraphInner :=
  let legacy := (List.range s.arenaLen).filter fun x => newEraSet x && !s.inSubtree g x
  (legacy.foldl (reassignLegacy newEraSet) s).finishCheckpoint g newEraSet

/-! ## The barrier adjustments of the validity checks -/

/-- `weight_delta`: the subtree weight of each outlier barrier block, all read before any
    change. -/
def weightDelta (outlierBarrier : List Nat) : List (Nat × Int) :=
  outlierBarrier.map fun index => (index, s.weightTree.get index)

/-- One turn of the two loops over `weight_delta` in `adaptive_weight_impl`, adding
    `sign * delta`: along the path of the barrier block in the weight tree, and in the adaptive
    tree twice along that path and negated on the caterpillar of its parent. The source asserts
    a parent. -/
def applyBarrier (sign : Int) (t : ConsensusGraphInner) (entry : Nat × Int) :
    ConsensusGraphInner :=
  let adaptiveTree := match t.parentOf entry.1 with
    | some parent => t.adaptiveTree.caterpillarApply (t.fuel parent) parent (-sign * entry.2)
    | none => t.adaptiveTree
  t.withTrees (t.weightTree.pathApply (t.fuel entry.1) entry.1 (sign * entry.2))
    (adaptiveTree.pathApply (t.fuel entry.1) entry.1 (sign * entry.2 * 2))

/-- `adaptive_weight_impl`, as far as the trees go: unless it returns early, the barrier is
    subtracted, the adaptivity test reads the trees, and the barrier is added back. -/
def adaptiveWeightImpl (returnsEarly : Bool) (outlierBarrier : List Nat) :
    ConsensusGraphInner :=
  if returnsEarly then s
  else
    let weightDelta := s.weightDelta outlierBarrier
    weightDelta.foldl (applyBarrier 1) (weightDelta.foldl (applyBarrier (-1)) s)

/-- One turn of the weight-only loops over `weight_delta`, adding `sign * delta` along the
    path of the barrier block. -/
def applyBarrierWeight (sign : Int) (t : ConsensusGraphInner) (entry : Nat × Int) :
    ConsensusGraphInner :=
  t.withTrees (t.weightTree.pathApply (t.fuel entry.1) entry.1 (sign * entry.2)) t.adaptiveTree

/-- The weight tree with the barrier taken out and put back, unless the check returns first. -/
def withoutBarrierWeight (returnsEarly : Bool) (outlierBarrier : List Nat) :
    ConsensusGraphInner :=
  if returnsEarly then s
  else
    let weightDelta := s.weightDelta outlierBarrier
    weightDelta.foldl (applyBarrierWeight 1) (weightDelta.foldl (applyBarrierWeight (-1)) s)

/-- `check_correct_parent`: it returns before the barrier when the brute-force weights are
    given. -/
def checkCorrectParent (weightTupleGiven : Bool) (outlierBarrier : List Nat) :
    ConsensusGraphInner :=
  s.withoutBarrierWeight weightTupleGiven outlierBarrier

/-- `choose_correct_parent_impl`: it returns before the barrier when `parent` is correct. -/
def chooseCorrectParentImpl (parentIsCorrect : Bool) (outlierBarrier : List Nat) :
    ConsensusGraphInner :=
  s.withoutBarrierWeight parentIsCorrect outlierBarrier

/-! ## What each write changes -/

section Writes

variable (me i : Nat) (node : Option ConsensusGraphNode) (w a : LinkCut Nat)

@[simp] theorem arena_withTrees : (s.withTrees w a).arena = s.arena := rfl
@[simp] theorem arenaLen_withTrees : (s.withTrees w a).arenaLen = s.arenaLen := rfl
@[simp] theorem weightTree_withTrees : (s.withTrees w a).weightTree = w := rfl
@[simp] theorem adaptiveTree_withTrees : (s.withTrees w a).adaptiveTree = a := rfl
@[simp] theorem curEraGenesisBlockArenaIndex_withTrees :
    (s.withTrees w a).curEraGenesisBlockArenaIndex = s.curEraGenesisBlockArenaIndex := rfl

@[simp] theorem withTrees_withTrees (w' a' : LinkCut Nat) :
    (s.withTrees w a).withTrees w' a' = s.withTrees w' a' := rfl
@[simp] theorem withTrees_self : s.withTrees s.weightTree s.adaptiveTree = s := rfl

@[simp] theorem parentOf_withTrees : (s.withTrees w a).parentOf = s.parentOf := rfl
@[simp] theorem heightOf_withTrees : (s.withTrees w a).heightOf = s.heightOf := rfl
@[simp] theorem activatedOf_withTrees : (s.withTrees w a).activatedOf = s.activatedOf := rfl
@[simp] theorem inEra_withTrees : (s.withTrees w a).inEra = s.inEra := rfl
@[simp] theorem blockWeight_withTrees : (s.withTrees w a).blockWeight = s.blockWeight := rfl
@[simp] theorem fuel_withTrees : (s.withTrees w a).fuel = s.fuel := rfl
@[simp] theorem eraPath_withTrees : (s.withTrees w a).eraPath = s.eraPath := rfl
@[simp] theorem subTW_withTrees : (s.withTrees w a).subTW = s.subTW := rfl

@[simp] theorem arena_withNode : (s.withNode me node).arena = Function.update s.arena me node :=
  rfl
@[simp] theorem arenaLen_withNode : (s.withNode me node).arenaLen = s.arenaLen := rfl
@[simp] theorem weightTree_withNode : (s.withNode me node).weightTree = s.weightTree := rfl
@[simp] theorem adaptiveTree_withNode : (s.withNode me node).adaptiveTree = s.adaptiveTree := rfl
@[simp] theorem curEraGenesisBlockArenaIndex_withNode :
    (s.withNode me node).curEraGenesisBlockArenaIndex = s.curEraGenesisBlockArenaIndex := rfl
@[simp] theorem heavyBlockDifficultyRatio_withNode :
    (s.withNode me node).heavyBlockDifficultyRatio = s.heavyBlockDifficultyRatio := rfl

theorem parentOf_withNode :
    (s.withNode me node).parentOf i = if i = me then node.bind ConsensusGraphNode.parent
      else s.parentOf i := by
  simp only [parentOf, arena_withNode, Function.update_apply]
  split <;> rfl

theorem heightOf_withNode :
    (s.withNode me node).heightOf i = if i = me then (node.map ConsensusGraphNode.height).getD 0
      else s.heightOf i := by
  simp only [heightOf, arena_withNode, Function.update_apply]
  split <;> rfl

theorem activatedOf_withNode :
    (s.withNode me node).activatedOf i =
      if i = me then (node.map ConsensusGraphNode.activated).getD false else s.activatedOf i := by
  simp only [activatedOf, arena_withNode, Function.update_apply]
  split <;> rfl

theorem inEra_withNode :
    (s.withNode me node).inEra i =
      if i = me then (node.map fun b => b.eraBlock.isSome).getD false else s.inEra i := by
  simp only [inEra, arena_withNode, Function.update_apply]
  split <;> rfl

theorem blockWeight_withNode_of_ne {i : Nat} (h : i ≠ me) :
    (s.withNode me node).blockWeight i = s.blockWeight i := by
  simp only [blockWeight, arena_withNode, Function.update_apply, if_neg h,
    heavyBlockDifficultyRatio_withNode]

variable (nd : ConsensusGraphNode)

@[simp] theorem arena_insert :
    (s.insert me nd).arena = Function.update s.arena me (some { nd with activated := false }) :=
  rfl
@[simp] theorem arenaLen_insert : (s.insert me nd).arenaLen = max s.arenaLen (me + 1) := rfl
@[simp] theorem weightTree_insert : (s.insert me nd).weightTree = s.weightTree := rfl
@[simp] theorem adaptiveTree_insert : (s.insert me nd).adaptiveTree = s.adaptiveTree := rfl
@[simp] theorem curEraGenesisBlockArenaIndex_insert :
    (s.insert me nd).curEraGenesisBlockArenaIndex = s.curEraGenesisBlockArenaIndex := rfl

theorem parentOf_insert :
    (s.insert me nd).parentOf i = if i = me then nd.parent else s.parentOf i :=
  s.parentOf_withNode me i _

theorem heightOf_insert :
    (s.insert me nd).heightOf i = if i = me then nd.height else s.heightOf i :=
  s.heightOf_withNode me i _

theorem inEra_insert :
    (s.insert me nd).inEra i = if i = me then nd.eraBlock.isSome else s.inEra i :=
  s.inEra_withNode me i _

theorem activatedOf_insert :
    (s.insert me nd).activatedOf i = if i = me then false else s.activatedOf i :=
  s.activatedOf_withNode me i _

theorem blockWeight_insert_of_ne {i : Nat} (h : i ≠ me) :
    (s.insert me nd).blockWeight i = s.blockWeight i :=
  s.blockWeight_withNode_of_ne me _ h

/-- A new block weighs nothing: it is not activated. -/
theorem blockWeight_insert_self : (s.insert me nd).blockWeight me = 0 := by
  simp [blockWeight]

theorem eraParent_insert_of_ne {i : Nat} (h : i ≠ me) :
    (s.insert me nd).eraParent i = s.eraParent i := by
  simp [eraParent, inEra_insert, parentOf_insert, h]

theorem fuel_insert_of_ne {i : Nat} (h : i ≠ me) : (s.insert me nd).fuel i = s.fuel i := by
  simp [fuel, heightOf_insert, h]

theorem onNewBlock_eq :
    s.onNewBlock me nd = (s.insert me nd).withTrees ((s.weightTree.makeTree me).link nd.parent me)
      ((s.adaptiveTree.makeTree me).link nd.parent me) := by
  simp [onNewBlock, updateLctsInitial, parentOf_insert]

theorem insertOutEraBlock_eq :
    s.insertOutEraBlock me nd = (s.insert me { nd with eraBlock := none }).withTrees
      (s.weightTree.makeTree me) (s.adaptiveTree.makeTree me) := rfl

/-! Activation rewrites a node with only its flag changed. -/

variable {me} {b : ConsensusGraphNode}

theorem parentOf_activate (hb : s.arena me = some b) :
    (s.withNode me (some { b with activated := true })).parentOf = s.parentOf := by
  funext i
  rw [parentOf_withNode]
  split
  case isTrue h => simp [h, parentOf, hb]
  case isFalse => rfl

theorem heightOf_activate (hb : s.arena me = some b) :
    (s.withNode me (some { b with activated := true })).heightOf = s.heightOf := by
  funext i
  rw [heightOf_withNode]
  split
  case isTrue h => simp [h, heightOf, hb]
  case isFalse => rfl

theorem inEra_activate (hb : s.arena me = some b) :
    (s.withNode me (some { b with activated := true })).inEra = s.inEra := by
  funext i
  rw [inEra_withNode]
  split
  case isTrue h => simp [h, inEra, hb]
  case isFalse => rfl

theorem eraParent_activate (hb : s.arena me = some b) :
    (s.withNode me (some { b with activated := true })).eraParent = s.eraParent := by
  funext i
  simp only [eraParent, inEra_activate s hb, parentOf_activate s hb]

theorem fuel_activate (hb : s.arena me = some b) :
    (s.withNode me (some { b with activated := true })).fuel = s.fuel := by
  funext i
  simp only [fuel, heightOf_activate s hb]

theorem eraPath_activate (hb : s.arena me = some b) :
    (s.withNode me (some { b with activated := true })).eraPath = s.eraPath := by
  funext i
  simp only [eraPath, fuel_activate s hb, eraParent_activate s hb]

theorem activatedOf_activate (i : Nat) :
    (s.withNode me (some { b with activated := true })).activatedOf i =
      if i = me then true else s.activatedOf i := by
  rw [activatedOf_withNode]
  split <;> rfl

/-- What `activate_block` can do: activate a block outside the era, or activate a block of
    the era and run `update_lcts_finalize` on it. -/
theorem activateBlock_eq_some {s' : ConsensusGraphInner} (h : s.activateBlock me = some s') :
    ∃ b, s.arena me = some b ∧
      (b.eraBlock = none ∧ s' = s.withNode me (some { b with activated := true }) ∨
        b.eraBlock.isSome = true ∧
          (s.withNode me (some { b with activated := true })).updateLctsFinalize me = some s') := by
  unfold activateBlock at h
  cases hb : s.arena me with
  | none => simp [hb] at h
  | some b =>
    refine ⟨b, rfl, ?_⟩
    cases hera : b.eraBlock with
    | none =>
      simp only [hb, hera, Option.isNone_none, if_true, Option.bind_eq_bind,
        Option.bind_some] at h
      exact .inl ⟨rfl, (Option.some.inj h).symm⟩
    | some e =>
      simp only [hb, hera, Option.isNone_some, Bool.false_eq_true, if_false, Option.bind_eq_bind,
        Option.bind_some] at h
      exact .inr ⟨rfl, h⟩

theorem updateLctsFinalize_eq_some {t t' : ConsensusGraphInner}
    (h : t.updateLctsFinalize me = some t') :
    ∃ p, t.parentOf me = some p ∧
      t' = t.withTrees (t.weightTree.pathApply (t.fuel me) me (t.blockWeight me))
        (((t.adaptiveTree.set me (-t.weightTree.get p + t.blockWeight p)).pathApply (t.fuel me) me
          (2 * t.blockWeight me)).caterpillarApply (t.fuel p) p (-t.blockWeight me)) := by
  unfold updateLctsFinalize at h
  cases hp : t.parentOf me with
  | none => simp [hp] at h
  | some p =>
    simp only [hp, Option.bind_eq_bind, Option.bind_some, Option.pure_def,
      Option.some.injEq] at h
    exact ⟨p, rfl, h.symm⟩

/-! What `split_root` and the legacy loop write. -/

@[simp] theorem arena_splitRoot (me : Nat) :
    (s.splitRoot me).arena =
      Function.update s.arena me ((s.arena me).map fun b => { b with parent := none }) := rfl
@[simp] theorem arenaLen_splitRoot (me : Nat) : (s.splitRoot me).arenaLen = s.arenaLen := rfl
@[simp] theorem weightTree_splitRoot (me : Nat) :
    (s.splitRoot me).weightTree = s.weightTree.splitRoot me := rfl
@[simp] theorem adaptiveTree_splitRoot (me : Nat) :
    (s.splitRoot me).adaptiveTree = s.adaptiveTree.splitRoot me := rfl
@[simp] theorem curEraGenesisBlockArenaIndex_splitRoot (me : Nat) :
    (s.splitRoot me).curEraGenesisBlockArenaIndex = s.curEraGenesisBlockArenaIndex := rfl
@[simp] theorem heavyBlockDifficultyRatio_splitRoot (me : Nat) :
    (s.splitRoot me).heavyBlockDifficultyRatio = s.heavyBlockDifficultyRatio := rfl

variable (g : Nat) (newEraSet : Nat → Bool)

theorem arena_finishCheckpoint (x : Nat) :
    (s.finishCheckpoint g newEraSet).arena x =
      if x = g then ((if newEraSet g then s.arena g else none).map
          fun b => { b with parent := none })
      else if newEraSet x then s.arena x else none := by
  simp [finishCheckpoint, Function.update_apply]

@[simp] theorem arenaLen_finishCheckpoint :
    (s.finishCheckpoint g newEraSet).arenaLen = s.arenaLen := rfl
@[simp] theorem weightTree_finishCheckpoint :
    (s.finishCheckpoint g newEraSet).weightTree = s.weightTree.splitRoot g := rfl
@[simp] theorem adaptiveTree_finishCheckpoint :
    (s.finishCheckpoint g newEraSet).adaptiveTree = s.adaptiveTree.splitRoot g := rfl
@[simp] theorem curEraGenesisBlockArenaIndex_finishCheckpoint :
    (s.finishCheckpoint g newEraSet).curEraGenesisBlockArenaIndex = g := rfl
@[simp] theorem heavyBlockDifficultyRatio_finishCheckpoint :
    (s.finishCheckpoint g newEraSet).heavyBlockDifficultyRatio = s.heavyBlockDifficultyRatio :=
  rfl

end Writes

/-! ## Reads of one slot -/

section Slot

variable {s} {t : ConsensusGraphInner} {x : Nat}

theorem parentOf_of_arena_eq (h : t.arena x = s.arena x) : t.parentOf x = s.parentOf x := by
  simp [parentOf, h]

theorem heightOf_of_arena_eq (h : t.arena x = s.arena x) : t.heightOf x = s.heightOf x := by
  simp [heightOf, h]

theorem activatedOf_of_arena_eq (h : t.arena x = s.arena x) :
    t.activatedOf x = s.activatedOf x := by
  simp [activatedOf, h]

theorem inEra_of_arena_eq (h : t.arena x = s.arena x) : t.inEra x = s.inEra x := by
  simp [inEra, h]

theorem blockWeight_of_arena_eq (h : t.arena x = s.arena x)
    (hr : t.heavyBlockDifficultyRatio = s.heavyBlockDifficultyRatio) :
    t.blockWeight x = s.blockWeight x := by
  simp [blockWeight, h, hr]

/-! A slot whose parent was cut reads the same, its parent apart. -/

theorem parentOf_of_arena_cut (h : t.arena x = (s.arena x).map fun b => { b with parent := none }) :
    t.parentOf x = none := by
  cases hb : s.arena x <;> simp [parentOf, h, hb]

theorem heightOf_of_arena_cut (h : t.arena x = (s.arena x).map fun b => { b with parent := none }) :
    t.heightOf x = s.heightOf x := by
  cases hb : s.arena x <;> simp [heightOf, h, hb]

theorem activatedOf_of_arena_cut
    (h : t.arena x = (s.arena x).map fun b => { b with parent := none }) :
    t.activatedOf x = s.activatedOf x := by
  cases hb : s.arena x <;> simp [activatedOf, h, hb]

theorem inEra_of_arena_cut (h : t.arena x = (s.arena x).map fun b => { b with parent := none }) :
    t.inEra x = s.inEra x := by
  cases hb : s.arena x <;> simp [inEra, h, hb]

theorem blockWeight_of_arena_cut
    (h : t.arena x = (s.arena x).map fun b => { b with parent := none })
    (hr : t.heavyBlockDifficultyRatio = s.heavyBlockDifficultyRatio) :
    t.blockWeight x = s.blockWeight x := by
  cases hb : s.arena x <;> simp [blockWeight, h, hb, hr]

end Slot

/-! ## The legacy loop -/

/-- What the legacy loop leaves of a state: the blocks it visited are out of the era; the
    other blocks, their tree parents, all values and the scalars are as they were. -/
structure LegacyLoop (t t' : ConsensusGraphInner) (visited : Nat → Prop) : Prop where
  arenaLen : t'.arenaLen = t.arenaLen
  curEraGenesisBlockArenaIndex : t'.curEraGenesisBlockArenaIndex = t.curEraGenesisBlockArenaIndex
  heavyBlockDifficultyRatio : t'.heavyBlockDifficultyRatio = t.heavyBlockDifficultyRatio
  weightValue : t'.weightTree.value = t.weightTree.value
  adaptiveValue : t'.adaptiveTree.value = t.adaptiveTree.value
  other : ∀ x, ¬ visited x → t'.arena x = t.arena x ∧
    t'.weightTree.parent x = t.weightTree.parent x ∧
    t'.adaptiveTree.parent x = t.adaptiveTree.parent x
  visited_out : ∀ x, visited x → t'.inEra x = false

theorem LegacyLoop.trans {t₁ t₂ t₃ : ConsensusGraphInner} {v₁ v₂ : Nat → Prop}
    (h₁ : LegacyLoop t₁ t₂ v₁) (h₂ : LegacyLoop t₂ t₃ v₂) :
    LegacyLoop t₁ t₃ fun x => v₁ x ∨ v₂ x where
  arenaLen := h₂.arenaLen.trans h₁.arenaLen
  curEraGenesisBlockArenaIndex :=
    h₂.curEraGenesisBlockArenaIndex.trans h₁.curEraGenesisBlockArenaIndex
  heavyBlockDifficultyRatio := h₂.heavyBlockDifficultyRatio.trans h₁.heavyBlockDifficultyRatio
  weightValue := h₂.weightValue.trans h₁.weightValue
  adaptiveValue := h₂.adaptiveValue.trans h₁.adaptiveValue
  other x hx := by
    obtain ⟨a₂, w₂, d₂⟩ := h₂.other x fun h => hx (.inr h)
    obtain ⟨a₁, w₁, d₁⟩ := h₁.other x fun h => hx (.inl h)
    exact ⟨a₂.trans a₁, w₂.trans w₁, d₂.trans d₁⟩
  visited_out x hx := by
    by_cases h : v₂ x
    · exact h₂.visited_out x h
    · -- visited by the first loop only: the second one left it alone
      rcases hx with hx | hx
      · rw [inEra_of_arena_eq (h₂.other x h).1]
        exact h₁.visited_out x hx
      · exact absurd hx h

/-- One turn of the loop. -/
theorem legacyLoop_reassignLegacy (newEraSet : Nat → Bool) (t : ConsensusGraphInner)
    (me : Nat) : LegacyLoop t (reassignLegacy newEraSet t me) (· = me) := by
  cases hb : t.arena me with
  | none =>
    have heq : reassignLegacy newEraSet t me = t := by simp [reassignLegacy, hb]
    rw [heq]
    refine ⟨rfl, rfl, rfl, rfl, rfl, fun x _ => ⟨rfl, rfl, rfl⟩, ?_⟩
    rintro x rfl
    simp [inEra, hb]
  | some b =>
    have heq : reassignLegacy newEraSet t me =
        (if b.eraBlock.isSome then t.splitRoot me else t).withNode me
          (some { b with parent := b.parent.filter newEraSet, eraBlock := none }) := by
      simp [reassignLegacy, hb]
    rw [heq]
    -- the block itself leaves the era whether it was cut from the trees or not
    by_cases hera : b.eraBlock.isSome = true
    · rw [if_pos hera]
      refine ⟨rfl, rfl, rfl, rfl, rfl, fun x hx => ?_, fun x hx => ?_⟩
      · simp [Function.update_apply, hx]
      · subst hx
        simp [inEra]
    · rw [if_neg hera]
      refine ⟨rfl, rfl, rfl, rfl, rfl, fun x hx => ?_, fun x hx => ?_⟩
      · simp [Function.update_apply, hx]
      · subst hx
        simp [inEra]

/-- The whole loop, over any list of blocks. -/
theorem legacyLoop_foldl (newEraSet : Nat → Bool) (l : List Nat) (t : ConsensusGraphInner) :
    LegacyLoop t (l.foldl (reassignLegacy newEraSet) t) (· ∈ l) := by
  induction l generalizing t with
  | nil => exact ⟨rfl, rfl, rfl, rfl, rfl, fun x _ => ⟨rfl, rfl, rfl⟩, fun x hx => by cases hx⟩
  | cons y l ih =>
    have h := (legacyLoop_reassignLegacy newEraSet t y).trans (ih (reassignLegacy newEraSet t y))
    simpa only [List.foldl_cons, List.mem_cons] using h

/-! ## Facts of any state -/

theorem blockWeight_eq_zero_of_not_activated {i : Nat} (h : s.activatedOf i = false) :
    s.blockWeight i = 0 := by
  unfold blockWeight
  unfold activatedOf at h
  cases hb : s.arena i with
  | none => rfl
  | some b =>
    rw [hb] at h
    simp_all

theorem blockWeight_eq_zero_of_not_inEra {i : Nat} (h : s.inEra i = false) :
    s.blockWeight i = 0 := by
  unfold blockWeight
  unfold inEra at h
  cases hb : s.arena i with
  | none => rfl
  | some b =>
    rw [hb] at h
    simp_all

theorem inEra_of_eraParent {i p : Nat} (h : s.eraParent i = some p) : s.inEra i = true := by
  unfold eraParent at h
  split at h
  · assumption
  · cases h

theorem parentOf_of_eraParent {i p : Nat} (h : s.eraParent i = some p) : s.parentOf i = some p :=
  by
  unfold eraParent at h
  split at h
  · exact h
  · cases h

theorem eraParent_of_inEra {i : Nat} (h : s.inEra i = true) : s.eraParent i = s.parentOf i := by
  simp [eraParent, h]

theorem eraParent_of_not_inEra {i : Nat} (h : s.inEra i = false) : s.eraParent i = none := by
  simp [eraParent, h]

/-- Outside the era a block is its own whole path. -/
theorem eraPath_of_not_inEra {i : Nat} (h : s.inEra i = false) : s.eraPath i = [i] :=
  pathFrom_of_parent_eq_none (s.eraParent_of_not_inEra h) _

theorem mem_eraPath_self (i : Nat) : i ∈ s.eraPath i := by
  simp [eraPath, fuel, pathFrom_succ]

/-- A walk only reads the parent edges of the blocks on it. -/
theorem eraPath_eq_of_agree {s' : ConsensusGraphInner} {y : Nat} (hfuel : s'.fuel y = s.fuel y)
    (hagree : ∀ u ∈ s.eraPath y, s'.eraParent u = s.eraParent u) :
    s'.eraPath y = s.eraPath y := by
  unfold eraPath
  rw [hfuel]
  exact pathFrom_congr hagree

end ConsensusGraphInner

open ConsensusGraphInner

/-- `with_era_genesis`, the part the trees see: the era genesis goes into slot 0 of an empty
    arena, without a parent and with itself as era block; it is activated, its difficulty is
    its subtree weight, and its adaptive value is 0. -/
def withEraGenesis (genesis : ConsensusGraphNode) (heavyBlockDifficultyRatio : Nat) :
    ConsensusGraphInner :=
  let inner : ConsensusGraphInner :=
    { arena := fun _ => none, arenaLen := 0, weightTree := .empty, adaptiveTree := .empty,
      curEraGenesisBlockArenaIndex := 0, heavyBlockDifficultyRatio := heavyBlockDifficultyRatio }
  let node := { genesis with parent := none, eraBlock := some 0 }
  let inner := (inner.insert 0 node).withNode 0 (some { node with activated := true })
  inner.withTrees ((inner.weightTree.makeTree 0).pathApply (inner.fuel 0) 0 genesis.difficulty)
    ((inner.adaptiveTree.makeTree 0).set 0 0)

/-! ## Runs -/

/-- Every change the consensus graph makes to the trees and to the arena fields they read,
    under the condition its caller establishes. -/
inductive Step : ConsensusGraphInner → ConsensusGraphInner → Prop
  /-- `on_new_block` for a block whose parent is in the era: the sync graph has checked that
      its height is one above its parent's, and `insert` finds its era block. -/
  | onNewBlock {s : ConsensusGraphInner} {me p : Nat} {node : ConsensusGraphNode}
      (hslot : s.arena me = none) (hlen : me ≤ s.arenaLen) (hparent : node.parent = some p)
      (hp : s.inEra p = true) (hheight : node.height = s.heightOf p + 1)
      (hera : node.eraBlock.isSome = true) :
      Step s (s.onNewBlock me node)
  /-- `on_new_block` for a block whose parent is unknown or outside the era. -/
  | insertOutEraBlock {s : ConsensusGraphInner} {me : Nat} {node : ConsensusGraphNode}
      (hslot : s.arena me = none) (hlen : me ≤ s.arenaLen)
      (hparent : ∀ p, node.parent = some p → s.inEra p = false) :
      Step s (s.insertOutEraBlock me node)
  /-- `activate_block`: a block is activated once, and a block of the era only after its
      parent, which its inactive dependency count includes. -/
  | activateBlock {s s' : ConsensusGraphInner} {me : Nat} (hnew : s.activatedOf me = false)
      (hparent : s.inEra me = true → ∀ p, s.parentOf me = some p → s.activatedOf p = true)
      (h : s.activateBlock me = some s') :
      Step s s'
  /-- `make_checkpoint_at(g)`: `g` is a block of the era with a parent (`split_root` asserts
      it), and the new era block set holds its subtree. -/
  | makeCheckpointAt {s : ConsensusGraphInner} {g p : Nat} {newEraSet : Nat → Bool}
      (hg : s.inEra g = true) (hpar : s.parentOf g = some p)
      (hset : ∀ x, s.inSubtree g x = true → newEraSet x = true) :
      Step s (s.makeCheckpointAt g newEraSet)
  | adaptiveWeightImpl {s : ConsensusGraphInner} (returnsEarly : Bool) (outlierBarrier : List Nat) :
      Step s (s.adaptiveWeightImpl returnsEarly outlierBarrier)
  | checkCorrectParent {s : ConsensusGraphInner} (weightTupleGiven : Bool)
      (outlierBarrier : List Nat) :
      Step s (s.checkCorrectParent weightTupleGiven outlierBarrier)
  | chooseCorrectParentImpl {s : ConsensusGraphInner} (parentIsCorrect : Bool)
      (outlierBarrier : List Nat) :
      Step s (s.chooseCorrectParentImpl parentIsCorrect outlierBarrier)

/-- The states that runs reach from `with_era_genesis`. -/
inductive Reachable (genesis : ConsensusGraphNode) (ratio : Nat) : ConsensusGraphInner → Prop
  | withEraGenesis : Reachable genesis ratio (withEraGenesis genesis ratio)
  | step {s s' : ConsensusGraphInner} : Reachable genesis ratio s → Step s s' →
      Reachable genesis ratio s'

end Mazze.Consensus
