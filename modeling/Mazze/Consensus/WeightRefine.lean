/-
  The consensus graph over a link-cut tree implementation, and that it refines the model over
  the reference forests (`Mazze.Consensus.WeightTree`).

  Model. `weight_tree` and `adaptive_tree` are of any type with the trait operations the
  consensus graph calls (`Forest.LinkCutTree`). The operations of `Lct` are those of
  `WeightTree` with every tree call made through the trait: the path updates walk the whole
  way to the root, and `ConsensusGraphInner::split_root` reads the parent it passes to
  `split_root(parent, me)` from the arena, asserting that there is one (`none` without one).
  An implementation is held to the brute-force semantics through a `view`
  (`LinkCutTree.Refines`), which the reference itself meets (`Forest.refines_bruteForce`);
  nothing else is assumed of it.

  What is proved, for every implementation that refines the reference:
  * `Step.mapTrees`: read through the view, every step is a step of the model over the
    reference forests. The model bounds its walks by the blocks' heights; on a state whose
    frame holds (`Shape`) the walks the operations take are the whole way to the root
    (`Shape.mem_pathFrom_iff`), so the two updates agree. The barrier adjustments leave both
    levels as they were, whatever blocks the barrier holds.
  * `reachable_mapTrees`: every run of the implementation is, read through the view, a run of
    the model, from any era genesis;
  * `weight_trees_agree_of_refines`: so the implementation's own trees hold `SubTW` and the
    adaptive values in every reachable state;
  * `get_withEraGenesis`: from any era genesis the implementation starts, as the model does,
    with the raw difficulty at the genesis;
  * `era_genesis_weight_diverges`: so at an adaptive era genesis, whose `SubTW` is its
    `block_weight`, every implementation starts out of the documented invariant unless the two
    coincide.
-/
import Mazze.Consensus.WeightInvariant

namespace Mazze.Consensus

open Forest

namespace ConsensusGraphInner

section MapTrees

variable {τ τ' : Type} (s : ConsensusGraphInner τ) (f : τ → τ')

/-- The state with both trees read through `f`. -/
def mapTrees : ConsensusGraphInner τ' :=
  ⟨s.arena, s.arenaLen, f s.weightTree, f s.adaptiveTree, s.curEraGenesisBlockArenaIndex,
    s.heavyBlockDifficultyRatio⟩

@[simp] theorem arena_mapTrees : (s.mapTrees f).arena = s.arena := rfl
@[simp] theorem arenaLen_mapTrees : (s.mapTrees f).arenaLen = s.arenaLen := rfl
@[simp] theorem weightTree_mapTrees : (s.mapTrees f).weightTree = f s.weightTree := rfl
@[simp] theorem adaptiveTree_mapTrees : (s.mapTrees f).adaptiveTree = f s.adaptiveTree := rfl
@[simp] theorem curEraGenesisBlockArenaIndex_mapTrees :
    (s.mapTrees f).curEraGenesisBlockArenaIndex = s.curEraGenesisBlockArenaIndex := rfl
@[simp] theorem heavyBlockDifficultyRatio_mapTrees :
    (s.mapTrees f).heavyBlockDifficultyRatio = s.heavyBlockDifficultyRatio := rfl

variable (i : Nat)

@[simp] theorem parentOf_mapTrees : (s.mapTrees f).parentOf i = s.parentOf i := rfl
@[simp] theorem heightOf_mapTrees : (s.mapTrees f).heightOf i = s.heightOf i := rfl
@[simp] theorem activatedOf_mapTrees : (s.mapTrees f).activatedOf i = s.activatedOf i := rfl
@[simp] theorem inEra_mapTrees : (s.mapTrees f).inEra i = s.inEra i := rfl
@[simp] theorem blockWeight_mapTrees : (s.mapTrees f).blockWeight i = s.blockWeight i := rfl
@[simp] theorem fuel_mapTrees : (s.mapTrees f).fuel i = s.fuel i := rfl
@[simp] theorem eraPath_mapTrees : (s.mapTrees f).eraPath i = s.eraPath i := rfl
@[simp] theorem subTW_mapTrees : (s.mapTrees f).subTW i = s.subTW i := rfl
@[simp] theorem inSubtree_mapTrees (g : Nat) : (s.mapTrees f).inSubtree g i = s.inSubtree g i :=
  rfl

@[simp] theorem mapTrees_withTrees (w a : τ) :
    (s.withTrees w a).mapTrees f = (s.mapTrees f).withTrees (f w) (f a) := rfl
@[simp] theorem mapTrees_withNode (node : Option ConsensusGraphNode) :
    (s.withNode i node).mapTrees f = (s.mapTrees f).withNode i node := rfl
@[simp] theorem mapTrees_insert (nd : ConsensusGraphNode) :
    (s.insert i nd).mapTrees f = (s.mapTrees f).insert i nd := rfl

end MapTrees

/-! ## Walks in a frame

In a state whose frame holds, the walk of a block of the era under a parent function that has
the arena's parents on the era goes up to the genesis: the bounded walk of the model is the
whole way to the root. -/

variable {a : ConsensusGraphInner}

theorem Shape.mem_pathFrom_iff (h : a.Shape) {P : Nat → Option Nat}
    (hP : ∀ x, a.inEra x = true → P x = a.parentOf x) {v : Nat} (hv : a.inEra v = true)
    (u : Nat) : u ∈ pathFrom P (a.fuel v) v ↔ IsAncestor P u v := by
  have hagree : ∀ x, a.inEra x = true → P x = a.eraParent x := fun x hx => by
    rw [hP x hx, a.eraParent_of_inEra hx]
  have hpath : pathFrom P (a.fuel v) v = a.eraPath v :=
    pathFrom_congr fun w hw => hagree w (h.inEra_of_isAncestor ((h.mem_eraPath_iff w v).1 hw) hv)
  -- the era is closed under taking parents, and there the two parent functions agree
  have hclosed : ∀ x p, a.inEra x = true → a.eraParent x = some p → a.inEra p = true :=
    fun x p hx hp => (h.parent_inEra x p hx (a.parentOf_of_eraParent hp)).1
  rw [hpath, h.mem_eraPath_iff, isAncestor_congr hagree hclosed hv]

end ConsensusGraphInner

open ConsensusGraphInner

/-! ## The operations over an implementation -/

namespace Lct

variable {τ : Type} [LinkCutTree τ Nat] (s : ConsensusGraphInner τ)

/-- `update_lcts_initial`. -/
def updateLctsInitial (me : Nat) : ConsensusGraphInner τ :=
  let parent := s.parentOf me
  s.withTrees (LinkCutTree.link (LinkCutTree.makeTree s.weightTree me) parent me)
    (LinkCutTree.link (LinkCutTree.makeTree s.adaptiveTree me) parent me)

/-- `update_lcts_finalize`; a block without a parent is `none`, as in the model. -/
def updateLctsFinalize (me : Nat) : Option (ConsensusGraphInner τ) := do
  let parent ← s.parentOf me
  let parentTw := LinkCutTree.get s.weightTree parent
  let parentW := s.blockWeight parent
  let adaptiveTree := LinkCutTree.set s.adaptiveTree me (-parentTw + parentW)
  let weight := s.blockWeight me
  pure (s.withTrees (LinkCutTree.pathApply s.weightTree me weight)
    (LinkCutTree.caterpillarApply (LinkCutTree.pathApply adaptiveTree me (2 * weight)) parent
      (-weight)))

/-- The in-era branch of `on_new_block`. -/
def onNewBlock (me : Nat) (node : ConsensusGraphNode) : ConsensusGraphInner τ :=
  updateLctsInitial (s.insert me node) me

/-- `insert_out_era_block`. -/
def insertOutEraBlock (me : Nat) (node : ConsensusGraphNode) : ConsensusGraphInner τ :=
  let s := s.insert me { node with eraBlock := none }
  s.withTrees (LinkCutTree.makeTree s.weightTree me) (LinkCutTree.makeTree s.adaptiveTree me)

/-- `activate_block`, as far as the trees go. -/
def activateBlock (me : Nat) : Option (ConsensusGraphInner τ) := do
  let b ← s.arena me
  let s := s.withNode me (some { b with activated := true })
  if b.eraBlock.isNone then pure s else updateLctsFinalize s me

/-- `ConsensusGraphInner::split_root(me)`: it asserts that `me` has a parent, and cuts `me`
    from it in both trees and in the arena. -/
def splitRoot (me : Nat) : Option (ConsensusGraphInner τ) := do
  let parent ← s.parentOf me
  pure ((s.withNode me ((s.arena me).map fun b => { b with parent := none })).withTrees
    (LinkCutTree.splitRoot s.weightTree parent me)
    (LinkCutTree.splitRoot s.adaptiveTree parent me))

/-- One turn of the legacy loop of `make_checkpoint_at`. -/
def reassignLegacy (newEraSet : Nat → Bool) (t : ConsensusGraphInner τ) (me : Nat) :
    Option (ConsensusGraphInner τ) :=
  match t.arena me with
  | none => some t
  | some b => do
    let parent := b.parent.filter newEraSet
    let t ← (if b.eraBlock.isSome then splitRoot t me else some t)
    pure (t.withNode me (some { b with parent := parent, eraBlock := none }))

/-- The end of `make_checkpoint_at`, after the legacy loop. -/
def finishCheckpoint (t : ConsensusGraphInner τ) (g : Nat) (newEraSet : Nat → Bool) :
    Option (ConsensusGraphInner τ) := do
  let t : ConsensusGraphInner τ :=
    { t with arena := fun x => if newEraSet x then t.arena x else none }
  let t ← splitRoot t g
  pure { t with curEraGenesisBlockArenaIndex := g }

/-- `make_checkpoint_at(g)`, the part the trees see. -/
def makeCheckpointAt (g : Nat) (newEraSet : Nat → Bool) : Option (ConsensusGraphInner τ) := do
  let legacy := (List.range s.arenaLen).filter fun x => newEraSet x && !s.inSubtree g x
  let t ← legacy.foldlM (reassignLegacy newEraSet) s
  finishCheckpoint t g newEraSet

/-- `weight_delta`. -/
def weightDelta (outlierBarrier : List Nat) : List (Nat × Int) :=
  outlierBarrier.map fun index => (index, LinkCutTree.get s.weightTree index)

/-- One turn of the two loops over `weight_delta` in `adaptive_weight_impl`. -/
def applyBarrier (sign : Int) (t : ConsensusGraphInner τ) (entry : Nat × Int) :
    ConsensusGraphInner τ :=
  let adaptiveTree := match t.parentOf entry.1 with
    | some parent => LinkCutTree.caterpillarApply t.adaptiveTree parent (-sign * entry.2)
    | none => t.adaptiveTree
  t.withTrees (LinkCutTree.pathApply t.weightTree entry.1 (sign * entry.2))
    (LinkCutTree.pathApply adaptiveTree entry.1 (sign * entry.2 * 2))

/-- `adaptive_weight_impl`, as far as the trees go. -/
def adaptiveWeightImpl (returnsEarly : Bool) (outlierBarrier : List Nat) :
    ConsensusGraphInner τ :=
  if returnsEarly then s
  else
    let weightDelta := weightDelta s outlierBarrier
    weightDelta.foldl (applyBarrier 1) (weightDelta.foldl (applyBarrier (-1)) s)

/-- One turn of the weight-only loops over `weight_delta`. -/
def applyBarrierWeight (sign : Int) (t : ConsensusGraphInner τ) (entry : Nat × Int) :
    ConsensusGraphInner τ :=
  t.withTrees (LinkCutTree.pathApply t.weightTree entry.1 (sign * entry.2)) t.adaptiveTree

def withoutBarrierWeight (returnsEarly : Bool) (outlierBarrier : List Nat) :
    ConsensusGraphInner τ :=
  if returnsEarly then s
  else
    let weightDelta := weightDelta s outlierBarrier
    weightDelta.foldl (applyBarrierWeight 1) (weightDelta.foldl (applyBarrierWeight (-1)) s)

/-- `check_correct_parent`. -/
def checkCorrectParent (weightTupleGiven : Bool) (outlierBarrier : List Nat) :
    ConsensusGraphInner τ :=
  withoutBarrierWeight s weightTupleGiven outlierBarrier

/-- `choose_correct_parent_impl`. -/
def chooseCorrectParentImpl (parentIsCorrect : Bool) (outlierBarrier : List Nat) :
    ConsensusGraphInner τ :=
  withoutBarrierWeight s parentIsCorrect outlierBarrier

/-- `with_era_genesis`, the part the trees see, from two trees made by `new()`. -/
def withEraGenesis (genesis : ConsensusGraphNode) (heavyBlockDifficultyRatio : Nat) :
    ConsensusGraphInner τ :=
  let inner : ConsensusGraphInner τ :=
    { arena := fun _ => none, arenaLen := 0, weightTree := LinkCutTree.new,
      adaptiveTree := LinkCutTree.new, curEraGenesisBlockArenaIndex := 0,
      heavyBlockDifficultyRatio := heavyBlockDifficultyRatio }
  let node := { genesis with parent := none, eraBlock := some 0 }
  let inner := (inner.insert 0 node).withNode 0 (some { node with activated := true })
  inner.withTrees
    (LinkCutTree.pathApply (LinkCutTree.makeTree inner.weightTree 0) 0 genesis.difficulty)
    (LinkCutTree.set (LinkCutTree.makeTree inner.adaptiveTree 0) 0 0)

/-- The steps of `Mazze.Consensus.Step`, over the implementation, each under the same
    condition. -/
inductive Step : ConsensusGraphInner τ → ConsensusGraphInner τ → Prop
  | onNewBlock {s : ConsensusGraphInner τ} {me p : Nat} {node : ConsensusGraphNode}
      (hslot : s.arena me = none) (hlen : me ≤ s.arenaLen) (hparent : node.parent = some p)
      (hp : s.inEra p = true) (hheight : node.height = s.heightOf p + 1)
      (hera : node.eraBlock.isSome = true) :
      Step s (onNewBlock s me node)
  | insertOutEraBlock {s : ConsensusGraphInner τ} {me : Nat} {node : ConsensusGraphNode}
      (hslot : s.arena me = none) (hlen : me ≤ s.arenaLen)
      (hparent : ∀ p, node.parent = some p → s.inEra p = false) :
      Step s (insertOutEraBlock s me node)
  | activateBlock {s s' : ConsensusGraphInner τ} {me : Nat} (hnew : s.activatedOf me = false)
      (hparent : s.inEra me = true → ∀ p, s.parentOf me = some p → s.activatedOf p = true)
      (h : activateBlock s me = some s') :
      Step s s'
  | makeCheckpointAt {s s' : ConsensusGraphInner τ} {g p : Nat} {newEraSet : Nat → Bool}
      (hg : s.inEra g = true) (hpar : s.parentOf g = some p)
      (hset : ∀ x, s.inSubtree g x = true → newEraSet x = true)
      (h : makeCheckpointAt s g newEraSet = some s') :
      Step s s'
  | adaptiveWeightImpl {s : ConsensusGraphInner τ} (returnsEarly : Bool)
      (outlierBarrier : List Nat) :
      Step s (adaptiveWeightImpl s returnsEarly outlierBarrier)
  | checkCorrectParent {s : ConsensusGraphInner τ} (weightTupleGiven : Bool)
      (outlierBarrier : List Nat) :
      Step s (checkCorrectParent s weightTupleGiven outlierBarrier)
  | chooseCorrectParentImpl {s : ConsensusGraphInner τ} (parentIsCorrect : Bool)
      (outlierBarrier : List Nat) :
      Step s (chooseCorrectParentImpl s parentIsCorrect outlierBarrier)

/-- The states that runs of the implementation reach from `with_era_genesis`. -/
inductive Reachable (genesis : ConsensusGraphNode) (ratio : Nat) : ConsensusGraphInner τ → Prop
  | withEraGenesis : Reachable genesis ratio (withEraGenesis genesis ratio)
  | step {s s' : ConsensusGraphInner τ} : Reachable genesis ratio s → Step s s' →
      Reachable genesis ratio s'

/-! ## Each operation, read through the view -/

section Refines

variable {view : τ → LinkCut Nat} (hR : LinkCutTree.Refines view)
include hR

theorem mapTrees_updateLctsInitial (me : Nat) :
    (updateLctsInitial s me).mapTrees view = (s.mapTrees view).updateLctsInitial me := by
  simp [updateLctsInitial, ConsensusGraphInner.updateLctsInitial, hR.link, hR.makeTree]

theorem mapTrees_onNewBlock (me : Nat) (nd : ConsensusGraphNode) :
    (onNewBlock s me nd).mapTrees view = (s.mapTrees view).onNewBlock me nd := by
  rw [onNewBlock, ConsensusGraphInner.onNewBlock, mapTrees_updateLctsInitial _ hR,
    mapTrees_insert]

theorem mapTrees_insertOutEraBlock (me : Nat) (nd : ConsensusGraphNode) :
    (insertOutEraBlock s me nd).mapTrees view = (s.mapTrees view).insertOutEraBlock me nd := by
  simp only [insertOutEraBlock, ConsensusGraphInner.insertOutEraBlock, mapTrees_withTrees,
    mapTrees_insert, hR.makeTree]
  rfl

/-- On a block of the era of a state whose frame holds, the implementation's `update_lcts_finalize`
    is the model's: the walks from the block and from its parent are the whole way up. -/
theorem mapTrees_updateLctsFinalize (h : (s.mapTrees view).Shape) {me : Nat}
    (hme : s.inEra me = true) :
    (updateLctsFinalize s me).map (·.mapTrees view) = (s.mapTrees view).updateLctsFinalize me := by
  cases hp : s.parentOf me with
  | none => simp [updateLctsFinalize, ConsensusGraphInner.updateLctsFinalize, hp]
  | some p =>
    have hpe : s.inEra p = true := (h.parent_inEra me p hme hp).1
    have hw := h.mem_pathFrom_iff h.weightTree_parent hme
    have ha := h.mem_pathFrom_iff h.adaptiveTree_parent hme
    have hap := h.mem_pathFrom_iff h.adaptiveTree_parent hpe
    simp only [weightTree_mapTrees, adaptiveTree_mapTrees, fuel_mapTrees] at hw ha hap
    -- the adaptive tree keeps its parents through `set` and the path update
    have ha' : ∀ x : Int, ∀ u, u ∈ pathFrom ((view s.adaptiveTree).set me x).parent (s.fuel me) me ↔
        IsAncestor ((view s.adaptiveTree).set me x).parent u me := by
      simpa using ha
    have hap' : ∀ x d : Int, ∀ u,
        u ∈ pathFrom (((view s.adaptiveTree).set me x).pathApplyAll me d).parent (s.fuel p) p ↔
          IsAncestor (((view s.adaptiveTree).set me x).pathApplyAll me d).parent u p := by
      simpa using hap
    simp only [updateLctsFinalize, ConsensusGraphInner.updateLctsFinalize, hp, parentOf_mapTrees,
      Option.bind_eq_bind, Option.bind_some, Option.pure_def, Option.map_some, mapTrees_withTrees,
      weightTree_mapTrees, adaptiveTree_mapTrees, blockWeight_mapTrees, fuel_mapTrees, hR.get,
      hR.set, hR.pathApply, hR.caterpillarApply]
    rw [LinkCut.pathApply_eq_pathApplyAll hw, LinkCut.pathApply_eq_pathApplyAll (ha' _),
      LinkCut.caterpillarApply_eq_caterpillarApplyAll (hap' _ _)]

/-- On a state whose frame holds, the implementation's `activate_block` is the model's, under
    the step's condition that the parent of a block of the era is activated. -/
theorem activateBlock_mapTrees (h : (s.mapTrees view).Shape) {me : Nat}
    (hparent : s.inEra me = true → ∀ p, s.parentOf me = some p → s.activatedOf p = true)
    {s' : ConsensusGraphInner τ} (hact : activateBlock s me = some s') :
    (s.mapTrees view).activateBlock me = some (s'.mapTrees view) := by
  cases hb : s.arena me with
  | none => simp [activateBlock, hb] at hact
  | some b =>
    simp only [activateBlock, hb, Option.bind_eq_bind, Option.bind_some] at hact
    simp only [ConsensusGraphInner.activateBlock, arena_mapTrees, hb, Option.bind_eq_bind,
      Option.bind_some]
    by_cases hera : b.eraBlock.isNone = true
    · -- outside the era only the flag changes
      rw [if_pos hera, Option.pure_def, Option.some.injEq] at hact
      subst hact
      rw [if_pos hera]
      rfl
    · rw [if_neg hera] at hact ⊢
      -- the activated state keeps the frame, and the block is in its era
      have hshape : ((s.withNode me (some { b with activated := true })).mapTrees view).Shape :=
        h.activate (b := b) hb hparent
      have hme : (s.withNode me (some { b with activated := true })).inEra me = true := by
        cases heb : b.eraBlock with
        | none => simp [heb] at hera
        | some e => simp [ConsensusGraphInner.inEra, ConsensusGraphInner.withNode]
      have hfin := mapTrees_updateLctsFinalize _ hR hshape hme
      rw [hact, Option.map_some] at hfin
      exact hfin.symm

/-- The implementation's `split_root(me)`, where both trees have the arena's parent of `me`, is
    the model's. -/
theorem splitRoot_mapTrees {me : Nat} {t : ConsensusGraphInner τ}
    (hw : (view s.weightTree).parent me = s.parentOf me)
    (ha : (view s.adaptiveTree).parent me = s.parentOf me)
    (h : splitRoot s me = some t) : t.mapTrees view = (s.mapTrees view).splitRoot me := by
  cases hp : s.parentOf me with
  | none => simp [splitRoot, hp] at h
  | some p =>
    simp only [splitRoot, hp, Option.bind_eq_bind, Option.bind_some, Option.pure_def,
      Option.some.injEq] at h
    subst h
    rw [hp] at hw ha
    simp only [mapTrees_withTrees, mapTrees_withNode, hR.splitRoot _ _ _ hw,
      hR.splitRoot _ _ _ ha]
    rfl

theorem reassignLegacy_mapTrees (newEraSet : Nat → Bool) {t t' : ConsensusGraphInner τ}
    {me : Nat} (hpar : t.inEra me = true → (view t.weightTree).parent me = t.parentOf me ∧
      (view t.adaptiveTree).parent me = t.parentOf me)
    (h : reassignLegacy newEraSet t me = some t') :
    t'.mapTrees view = ConsensusGraphInner.reassignLegacy newEraSet (t.mapTrees view) me := by
  cases hb : t.arena me with
  | none =>
    simp only [reassignLegacy, hb, Option.some.injEq] at h
    subst h
    simp [ConsensusGraphInner.reassignLegacy, hb]
  | some b =>
    simp only [reassignLegacy, hb, Option.bind_eq_bind, Option.bind_eq_some_iff, Option.pure_def,
      Option.some.injEq] at h
    obtain ⟨t₁, h₁, rfl⟩ := h
    -- only a block of the era is cut, and there both trees have the arena's parent
    have hcut : t₁.mapTrees view =
        if b.eraBlock.isSome then (t.mapTrees view).splitRoot me else t.mapTrees view := by
      split at h₁
      · rename_i hera
        have hin : t.inEra me = true := by simp [ConsensusGraphInner.inEra, hb, hera]
        obtain ⟨hw, ha⟩ := hpar hin
        rw [splitRoot_mapTrees t hR hw ha h₁, if_pos hera]
      · rename_i hera
        cases h₁
        rw [if_neg hera]
    simp only [ConsensusGraphInner.reassignLegacy, arena_mapTrees, hb, mapTrees_withNode, hcut]

/-- The implementation's legacy loop is the model's, over blocks each visited once, when every
    block of the era it visits has the arena's parent in both trees. -/
theorem foldlM_reassignLegacy_mapTrees (newEraSet : Nat → Bool) (l : List Nat)
    (hnd : l.Nodup) {t t' : ConsensusGraphInner τ}
    (hpar : ∀ x ∈ l, t.inEra x = true → (view t.weightTree).parent x = t.parentOf x ∧
      (view t.adaptiveTree).parent x = t.parentOf x)
    (h : l.foldlM (reassignLegacy newEraSet) t = some t') :
    t'.mapTrees view = l.foldl (ConsensusGraphInner.reassignLegacy newEraSet) (t.mapTrees view) := by
  induction l generalizing t with
  | nil =>
    simp only [List.foldlM_nil, Option.pure_def, Option.some.injEq] at h
    subst h
    rfl
  | cons y l ih =>
    simp only [List.foldlM_cons, Option.bind_eq_bind, Option.bind_eq_some_iff] at h
    obtain ⟨t₁, h₁, hrest⟩ := h
    obtain ⟨hy, hnd⟩ := List.nodup_cons.1 hnd
    have hturn := reassignLegacy_mapTrees hR newEraSet (hpar y List.mem_cons_self) h₁
    -- the turn on `y` leaves the slots and tree parents of the other blocks alone
    have hother := (legacyLoop_reassignLegacy newEraSet (t.mapTrees view) y).other
    rw [← hturn] at hother
    rw [List.foldl_cons, ← hturn]
    refine ih hnd (fun x hx hin => ?_) hrest
    have hne : x ≠ y := fun hxy => hy (hxy ▸ hx)
    obtain ⟨harena, hw, ha⟩ := hother x hne
    have hera : t₁.inEra x = t.inEra x := inEra_of_arena_eq harena
    have hp : t₁.parentOf x = t.parentOf x := parentOf_of_arena_eq harena
    have hin' : t.inEra x = true := hera ▸ hin
    simp only [weightTree_mapTrees, adaptiveTree_mapTrees] at hw ha
    rw [hw, ha, hp]
    exact hpar x (List.mem_cons_of_mem y hx) hin'

theorem finishCheckpoint_mapTrees {t t' : ConsensusGraphInner τ} {g : Nat}
    {newEraSet : Nat → Bool} (hng : newEraSet g = true)
    (hw : (view t.weightTree).parent g = t.parentOf g)
    (ha : (view t.adaptiveTree).parent g = t.parentOf g)
    (h : finishCheckpoint t g newEraSet = some t') :
    t'.mapTrees view = (t.mapTrees view).finishCheckpoint g newEraSet := by
  simp only [finishCheckpoint, Option.bind_eq_bind, Option.bind_eq_some_iff, Option.pure_def,
    Option.some.injEq] at h
  obtain ⟨t₁, h₁, rfl⟩ := h
  -- pruning the arena keeps `g`, which is in the new era
  have hp : ({ t with arena := fun x => if newEraSet x then t.arena x else none } :
      ConsensusGraphInner τ).parentOf g = t.parentOf g := by
    simp [ConsensusGraphInner.parentOf, hng]
  have hsplit := splitRoot_mapTrees _ hR (by rw [hp]; exact hw) (by rw [hp]; exact ha) h₁
  show { t₁.mapTrees view with curEraGenesisBlockArenaIndex := g } = _
  rw [hsplit]
  rfl

/-- On a state whose frame holds, the implementation's `make_checkpoint_at(g)` is the model's:
    the legacy loop cuts blocks of the era only, and leaves `g` as it was. -/
theorem makeCheckpointAt_mapTrees (h : (s.mapTrees view).Shape) {g : Nat}
    {newEraSet : Nat → Bool} (hg : s.inEra g = true)
    (hset : ∀ x, s.inSubtree g x = true → newEraSet x = true) {s' : ConsensusGraphInner τ}
    (hck : makeCheckpointAt s g newEraSet = some s') :
    s'.mapTrees view = (s.mapTrees view).makeCheckpointAt g newEraSet := by
  simp only [makeCheckpointAt, Option.bind_eq_bind, Option.bind_eq_some_iff] at hck
  obtain ⟨t, hfold, hfin⟩ := hck
  -- every block of the era has the arena's parent in both trees
  have hpar : ∀ x, s.inEra x = true → (view s.weightTree).parent x = s.parentOf x ∧
      (view s.adaptiveTree).parent x = s.parentOf x :=
    fun x hx => ⟨h.weightTree_parent x hx, h.adaptiveTree_parent x hx⟩
  have ht := foldlM_reassignLegacy_mapTrees hR newEraSet _ (List.nodup_range.filter _)
    (fun x _ => hpar x) hfold
  -- `g` is in its own subtree, so the loop does not visit it
  have hgg : s.inSubtree g g = true := by
    simpa [ConsensusGraphInner.inSubtree] using (s.mapTrees view).mem_eraPath_self g
  have hgl : g ∉ (List.range s.arenaLen).filter fun x => newEraSet x && !s.inSubtree g x := by
    simp [hgg]
  obtain ⟨harena, hw, ha⟩ := (legacyLoop_foldl newEraSet _ (s.mapTrees view)).other g hgl
  rw [← ht] at harena hw ha
  have hp : t.parentOf g = s.parentOf g := parentOf_of_arena_eq harena
  obtain ⟨hwg, hag⟩ := hpar g hg
  simp only [weightTree_mapTrees, adaptiveTree_mapTrees] at hw ha
  rw [finishCheckpoint_mapTrees hR (hset g hgg) (by rw [hw, hwg, hp]) (by rw [ha, hag, hp]) hfin,
    ht]
  rfl

end Refines

/-! ## The barrier adjustments, read through the view -/

/-- What one barrier turn adds to the weight tree and to the adaptive tree, read off the parent
    pointers of the two trees and of the arena. -/
noncomputable def barrierAmountsAll (weightParent adaptiveParent parentOf : Nat → Option Nat)
    (sign : Int) (entry : Nat × Int) : (Nat → Int) × (Nat → Int) :=
  (LinkCut.pathDeltaAll weightParent entry.1 (sign * entry.2),
    (match parentOf entry.1 with
      | some parent => LinkCut.caterpillarDeltaAll adaptiveParent parent (-sign * entry.2)
      | none => 0) + LinkCut.pathDeltaAll adaptiveParent entry.1 (sign * entry.2 * 2))

section Barrier

variable (weightParent adaptiveParent parentOf : Nat → Option Nat) (e : Nat × Int)

theorem barrierAmountsAll_neg_fst :
    (barrierAmountsAll weightParent adaptiveParent parentOf (-1) e).1 =
      -(barrierAmountsAll weightParent adaptiveParent parentOf 1 e).1 := by
  simp only [barrierAmountsAll]
  rw [show (-1 : Int) * e.2 = -(1 * e.2) by omega, LinkCut.pathDeltaAll_neg]

theorem barrierAmountsAll_neg_snd :
    (barrierAmountsAll weightParent adaptiveParent parentOf (-1) e).2 =
      -(barrierAmountsAll weightParent adaptiveParent parentOf 1 e).2 := by
  simp only [barrierAmountsAll]
  rw [show (-1 : Int) * e.2 * 2 = -(1 * e.2 * 2) by omega, LinkCut.pathDeltaAll_neg]
  cases parentOf e.1 with
  | none =>
    funext u
    simp
  | some parent =>
    dsimp only
    rw [show -(-1 : Int) * e.2 = -(-1 * e.2) by omega, LinkCut.caterpillarDeltaAll_neg]
    funext u
    simp
    omega

end Barrier

/-- What a turn of a barrier loop adds to the two trees, read off the parent pointers of the two
    trees and of the arena. -/
abbrev Amounts : Type :=
  (Nat → Option Nat) → (Nat → Option Nat) → (Nat → Option Nat) → Nat × Int →
    (Nat → Int) × (Nat → Int)

/-- A turn of a barrier loop that, read through the view, shifts the two trees by what `A`
    reads off their parents and the arena, and moves no parent of the arena. -/
structure ShiftsTrees (view : τ → LinkCut Nat)
    (turn : ConsensusGraphInner τ → Nat × Int → ConsensusGraphInner τ) (A : Amounts) : Prop where
  mapTrees : ∀ t e, (turn t e).mapTrees view = (t.mapTrees view).withTrees
    ((view t.weightTree).shift
      (A (view t.weightTree).parent (view t.adaptiveTree).parent t.parentOf e).1)
    ((view t.adaptiveTree).shift
      (A (view t.weightTree).parent (view t.adaptiveTree).parent t.parentOf e).2)
  parentOf : ∀ t e, (turn t e).parentOf = t.parentOf

namespace ShiftsTrees

variable {view : τ → LinkCut Nat} {turn turn₁ turn₂ : ConsensusGraphInner τ → Nat × Int →
  ConsensusGraphInner τ} {A A₁ A₂ : Amounts}

omit [LinkCutTree τ Nat] in
/-- A loop of such turns shifts both trees by the sum of what each turn adds; no turn moves a
    parent pointer, so every turn reads the amounts off the parents it started from. -/
theorem foldl (h : ShiftsTrees view turn A) (l : List (Nat × Int)) (t : ConsensusGraphInner τ) :
    (l.foldl turn t).mapTrees view = (t.mapTrees view).withTrees
      ((view t.weightTree).shift fun u => (l.map fun e =>
        (A (view t.weightTree).parent (view t.adaptiveTree).parent t.parentOf e).1 u).sum)
      ((view t.adaptiveTree).shift fun u => (l.map fun e =>
        (A (view t.weightTree).parent (view t.adaptiveTree).parent t.parentOf e).2 u).sum) := by
  induction l generalizing t with
  | nil =>
    simp only [List.map_nil, List.sum_nil, LinkCut.shift_zero]
    rfl
  | cons e l ih =>
    have hw := congrArg ConsensusGraphInner.weightTree (h.mapTrees t e)
    have ha := congrArg ConsensusGraphInner.adaptiveTree (h.mapTrees t e)
    simp only [weightTree_mapTrees, adaptiveTree_mapTrees, weightTree_withTrees,
      adaptiveTree_withTrees] at hw ha
    rw [List.foldl_cons, ih, hw, ha, h.parentOf, h.mapTrees]
    simp only [LinkCut.parent_shift, withTrees_withTrees, LinkCut.shift_shift]
    congr 2

omit [LinkCutTree τ Nat] in
/-- A loop that undoes, turn for turn, what an earlier loop over the same entries added leaves
    both trees, read through the view, as they were. -/
theorem foldl_cancel (h₁ : ShiftsTrees view turn₁ A₁) (h₂ : ShiftsTrees view turn₂ A₂)
    (hneg : ∀ wp ap po e, (A₁ wp ap po e).1 = -(A₂ wp ap po e).1 ∧
      (A₁ wp ap po e).2 = -(A₂ wp ap po e).2)
    (l : List (Nat × Int)) (s : ConsensusGraphInner τ) :
    (l.foldl turn₂ (l.foldl turn₁ s)).mapTrees view = s.mapTrees view := by
  -- the first loop shifts the trees and keeps every parent pointer
  have hfirst := h₁.foldl l s
  have hw := congrArg ConsensusGraphInner.weightTree hfirst
  have ha := congrArg ConsensusGraphInner.adaptiveTree hfirst
  have hpo : (l.foldl turn₁ s).parentOf = s.parentOf := by
    funext i
    simpa using congrArg (ConsensusGraphInner.parentOf · i) hfirst
  simp only [weightTree_mapTrees, adaptiveTree_mapTrees, weightTree_withTrees,
    adaptiveTree_withTrees] at hw ha
  rw [h₂.foldl, hfirst, hw, ha, hpo]
  simp only [LinkCut.parent_shift, withTrees_withTrees, LinkCut.shift_shift,
    sum_amounts_cancel _ _ _ fun e => (hneg _ _ _ e).1,
    sum_amounts_cancel _ _ _ fun e => (hneg _ _ _ e).2, LinkCut.shift_zero]
  rfl

end ShiftsTrees

section Barrier

variable {view : τ → LinkCut Nat} (hR : LinkCutTree.Refines view)
include hR

/-- A barrier turn shifts both trees, by amounts that their parent pointers and the arena fix. -/
theorem applyBarrier_shiftsTrees (sign : Int) :
    ShiftsTrees view (applyBarrier sign) fun wp ap po => barrierAmountsAll wp ap po sign := by
  refine ⟨fun t e => ?_, fun _ _ => rfl⟩
  unfold applyBarrier barrierAmountsAll
  cases t.parentOf e.1 with
  | none => simp [hR.pathApply, LinkCut.pathApplyAll]
  | some parent =>
    simp [hR.pathApply, hR.caterpillarApply, LinkCut.pathApplyAll, LinkCut.caterpillarApplyAll,
      LinkCut.shift_shift]

/-- A weight-only barrier turn shifts the weight tree as a full turn does, and leaves the
    adaptive tree. -/
theorem applyBarrierWeight_shiftsTrees (sign : Int) :
    ShiftsTrees view (applyBarrierWeight sign)
      fun wp ap po e => ((barrierAmountsAll wp ap po sign e).1, fun _ => 0) :=
  ⟨fun _ _ => by simp [applyBarrierWeight, barrierAmountsAll, hR.pathApply,
    LinkCut.pathApplyAll], fun _ _ => rfl⟩

/-- The implementation's `adaptive_weight_impl` leaves both trees as it found them, read through
    the view, whatever blocks the barrier holds. -/
theorem mapTrees_adaptiveWeightImpl (s : ConsensusGraphInner τ) (returnsEarly : Bool)
    (outlierBarrier : List Nat) :
    (adaptiveWeightImpl s returnsEarly outlierBarrier).mapTrees view = s.mapTrees view := by
  unfold adaptiveWeightImpl
  split
  · rfl
  · exact (applyBarrier_shiftsTrees hR (-1)).foldl_cancel (applyBarrier_shiftsTrees hR 1)
      (fun wp ap po e => ⟨barrierAmountsAll_neg_fst wp ap po e, barrierAmountsAll_neg_snd wp ap po e⟩)
      _ s

/-- The implementation's weight-only checks leave both trees as they found them, read through
    the view. -/
theorem mapTrees_withoutBarrierWeight (s : ConsensusGraphInner τ) (returnsEarly : Bool)
    (outlierBarrier : List Nat) :
    (withoutBarrierWeight s returnsEarly outlierBarrier).mapTrees view = s.mapTrees view := by
  unfold withoutBarrierWeight
  split
  · rfl
  · exact (applyBarrierWeight_shiftsTrees hR (-1)).foldl_cancel
      (applyBarrierWeight_shiftsTrees hR 1)
      (fun wp ap po e => ⟨barrierAmountsAll_neg_fst wp ap po e, by funext u; simp⟩) _ s

end Barrier

/-! ## Runs, read through the view -/

section Runs

variable {view : τ → LinkCut Nat} (hR : LinkCutTree.Refines view)
include hR

/-- The implementation starts where the model does: the era genesis is a root of both trees,
    so the walk from it ends at once. -/
theorem mapTrees_withEraGenesis (genesis : ConsensusGraphNode) (ratio : Nat) :
    (withEraGenesis genesis ratio : ConsensusGraphInner τ).mapTrees view =
      Mazze.Consensus.withEraGenesis genesis ratio := by
  have hroot : ((LinkCut.empty : LinkCut Nat).makeTree 0).parent 0 = none := by simp
  have hwalk := Forest.mem_pathFrom_of_root hroot (Nat.succ_pos genesis.height)
  -- the two trees `new()` starts from, read through the view
  have hw : view (LinkCutTree.pathApply (LinkCutTree.makeTree (LinkCutTree.new : τ) 0) 0
      genesis.difficulty) = ((LinkCut.empty : LinkCut Nat).makeTree 0).pathApply
        (genesis.height + 1) 0 genesis.difficulty := by
    rw [hR.pathApply, hR.makeTree, hR.new, LinkCut.pathApply_eq_pathApplyAll hwalk]
  have ha : view (LinkCutTree.set (LinkCutTree.makeTree (LinkCutTree.new : τ) 0) 0 0) =
      ((LinkCut.empty : LinkCut Nat).makeTree 0).set 0 0 := by
    rw [hR.set, hR.makeTree, hR.new]
  simp only [withEraGenesis, Mazze.Consensus.withEraGenesis, mapTrees_withTrees,
    ConsensusGraphInner.withNode, ConsensusGraphInner.insert]
  rw [hw, ha]
  rfl

/-- Read through the view, every step of the implementation from a state whose frame holds is
    a step of the model over the reference forests. -/
theorem Step.mapTrees {s s' : ConsensusGraphInner τ} (hstep : Step s s')
    (h : (s.mapTrees view).Shape) : Mazze.Consensus.Step (s.mapTrees view) (s'.mapTrees view) := by
  cases hstep with
  | onNewBlock hslot hlen hparent hp hheight hera =>
    rw [mapTrees_onNewBlock _ hR]
    exact .onNewBlock hslot hlen hparent hp hheight hera
  | insertOutEraBlock hslot hlen hparent =>
    rw [mapTrees_insertOutEraBlock _ hR]
    exact .insertOutEraBlock hslot hlen hparent
  | activateBlock hnew hparent hact =>
    exact .activateBlock hnew hparent (activateBlock_mapTrees _ hR h hparent hact)
  | makeCheckpointAt hg hpar hset hck =>
    rw [makeCheckpointAt_mapTrees _ hR h hg hset hck]
    exact .makeCheckpointAt hg hpar hset
  -- the barrier steps leave both levels as they were
  | adaptiveWeightImpl returnsEarly outlierBarrier =>
    have hself := Mazze.Consensus.Step.adaptiveWeightImpl (s := s.mapTrees view) returnsEarly
      outlierBarrier
    rw [adaptiveWeightImpl_eq] at hself
    rwa [mapTrees_adaptiveWeightImpl hR]
  | checkCorrectParent weightTupleGiven outlierBarrier =>
    have hself := Mazze.Consensus.Step.checkCorrectParent (s := s.mapTrees view)
      weightTupleGiven outlierBarrier
    rw [ConsensusGraphInner.checkCorrectParent, withoutBarrierWeight_eq] at hself
    rwa [Lct.checkCorrectParent, mapTrees_withoutBarrierWeight hR]
  | chooseCorrectParentImpl parentIsCorrect outlierBarrier =>
    have hself := Mazze.Consensus.Step.chooseCorrectParentImpl (s := s.mapTrees view)
      parentIsCorrect outlierBarrier
    rw [ConsensusGraphInner.chooseCorrectParentImpl, withoutBarrierWeight_eq] at hself
    rwa [Lct.chooseCorrectParentImpl, mapTrees_withoutBarrierWeight hR]

variable {genesis : ConsensusGraphNode} {ratio : Nat}

/-- Every run of the implementation is, read through the view, a run of the model over the
    reference forests, from any era genesis: every state the model reaches has the frame each
    step needs. -/
theorem reachable_mapTrees {s : ConsensusGraphInner τ} (hs : Reachable genesis ratio s) :
    Mazze.Consensus.Reachable genesis ratio (s.mapTrees view) := by
  induction hs with
  | withEraGenesis =>
    rw [mapTrees_withEraGenesis hR]
    exact .withEraGenesis
  | step _ hstep ih => exact .step ih (hstep.mapTrees hR (shape_of_reachable ih))

/-- The weight-tree invariant over every reachable state of any implementation that refines
    the reference forests, for an era genesis that is not adaptive: its weight tree answers
    `SubTW` at every block in the subtree of the era genesis, and its adaptive tree
    `2 * SubTW(x) - SubTW(parent(x)) + block_weight(parent(x))` at every such block that is
    activated, the genesis apart. -/
theorem weight_trees_agree_of_refines (hg : genesis.adaptive = false)
    {s : ConsensusGraphInner τ} (hs : Reachable genesis ratio s) (x : Nat)
    (hx : s.curEraGenesisBlockArenaIndex ∈ s.eraPath x) :
    LinkCutTree.get s.weightTree x = s.subTW x ∧
      (x ≠ s.curEraGenesisBlockArenaIndex → s.activatedOf x = true → ∀ p,
        s.parentOf x = some p →
          LinkCutTree.get s.adaptiveTree x = 2 * s.subTW x - s.subTW p + s.blockWeight p) := by
  have hagree := weight_trees_agree_of_activated hg (reachable_mapTrees hR hs) x hx
  simp only [weightTree_mapTrees, adaptiveTree_mapTrees, curEraGenesisBlockArenaIndex_mapTrees,
    activatedOf_mapTrees, parentOf_mapTrees, subTW_mapTrees, blockWeight_mapTrees,
    LinkCut.get_eq] at hagree
  rw [hR.get, hR.get, LinkCut.get_eq, LinkCut.get_eq]
  exact hagree

/-- From any era genesis the implementation starts, as the model does, with the raw
    difficulty of the genesis in its weight tree. -/
theorem get_withEraGenesis (genesis : ConsensusGraphNode) (ratio : Nat) :
    LinkCutTree.get (withEraGenesis genesis ratio : ConsensusGraphInner τ).weightTree 0 =
      genesis.difficulty := by
  rw [hR.get, ← weightTree_mapTrees (f := view), mapTrees_withEraGenesis hR, LinkCut.get_eq,
    weightTree_value_withEraGenesis]

/-- The weight-tree invariant of the documentation, read off the implementation's own trees. -/
def WeightTreesAgree (s : ConsensusGraphInner τ) : Prop :=
  ∀ x, s.curEraGenesisBlockArenaIndex ∈ s.eraPath x →
    LinkCutTree.get s.weightTree x = s.subTW x ∧
    (x ≠ s.curEraGenesisBlockArenaIndex → ∀ p, s.parentOf x = some p →
      LinkCutTree.get s.adaptiveTree x = 2 * s.subTW x - s.subTW p + s.blockWeight p)

/-- The implementation's trees agree with the documentation exactly when, read through the
    view, the reference forests do. -/
theorem weightTreesAgree_mapTrees (s : ConsensusGraphInner τ) :
    Mazze.Consensus.WeightTreesAgree (s.mapTrees view) ↔ WeightTreesAgree s := by
  simp only [Mazze.Consensus.WeightTreesAgree, WeightTreesAgree, hR.get, weightTree_mapTrees,
    adaptiveTree_mapTrees, curEraGenesisBlockArenaIndex_mapTrees, eraPath_mapTrees,
    subTW_mapTrees, parentOf_mapTrees, blockWeight_mapTrees]

end Runs

end Lct

/-- An adaptive era genesis starts out of the documented invariant, in every implementation of
    the trees that refines the reference: `with_era_genesis` puts the genesis's raw difficulty
    into the weight tree, while its `block_weight`, and so `SubTW`, is
    `heavy_block_difficulty_ratio * difficulty` if it is heavy and `0` if not. The trees agree
    with the documentation exactly when the two coincide. -/
theorem era_genesis_weight_diverges {τ : Type} [LinkCutTree τ Nat] {view : τ → LinkCut Nat}
    (hR : LinkCutTree.Refines view) (genesis : ConsensusGraphNode) (ratio : Nat)
    (hadaptive : genesis.adaptive = true) :
    Lct.Reachable genesis ratio (Lct.withEraGenesis genesis ratio : ConsensusGraphInner τ) ∧
      LinkCutTree.get (Lct.withEraGenesis genesis ratio : ConsensusGraphInner τ).weightTree 0 =
        genesis.difficulty ∧
      (Lct.withEraGenesis genesis ratio : ConsensusGraphInner τ).subTW 0 =
        (if genesis.isHeavy then (ratio : Int) * genesis.difficulty else 0) ∧
      (Lct.WeightTreesAgree (Lct.withEraGenesis genesis ratio : ConsensusGraphInner τ) ↔
        (genesis.difficulty : Int) =
          if genesis.isHeavy then (ratio : Int) * genesis.difficulty else 0) := by
  -- read through the view, the implementation starts where the model does
  have hstart := Lct.mapTrees_withEraGenesis hR genesis ratio
  have hsub : (Lct.withEraGenesis genesis ratio : ConsensusGraphInner τ).subTW 0 =
      (withEraGenesis genesis ratio).subTW 0 := by
    rw [← hstart]
    rfl
  rw [subTW_withEraGenesis_of_adaptive genesis ratio hadaptive] at hsub
  refine ⟨.withEraGenesis, Lct.get_withEraGenesis hR genesis ratio, hsub, ?_⟩
  rw [← Lct.weightTreesAgree_mapTrees hR, hstart, weightTreesAgree_withEraGenesis_iff,
    subTW_withEraGenesis_of_adaptive genesis ratio hadaptive]

/-- An adaptive era genesis of difficulty 1 that is not heavy. -/
def adaptiveGenesis : ConsensusGraphNode := ⟨0, false, 1, true, none, none, false⟩

/-- At that genesis, with the reference forests as the implementation, the weight tree holds
    `1` where `SubTW` is `0`, so the documented invariant fails in the first state of every
    run. -/
theorem era_genesis_weight_diverges_at_adaptive_genesis :
    Lct.Reachable adaptiveGenesis 1
        (Lct.withEraGenesis adaptiveGenesis 1 : ConsensusGraphInner (BruteForce Nat)) ∧
      LinkCutTree.get
        (Lct.withEraGenesis adaptiveGenesis 1 : ConsensusGraphInner (BruteForce Nat)).weightTree
        0 = 1 ∧
      (Lct.withEraGenesis adaptiveGenesis 1 : ConsensusGraphInner (BruteForce Nat)).subTW 0 = 0 ∧
      ¬ Lct.WeightTreesAgree
        (Lct.withEraGenesis adaptiveGenesis 1 : ConsensusGraphInner (BruteForce Nat)) := by
  obtain ⟨hr, hget, hsub, hagree⟩ :=
    era_genesis_weight_diverges refines_bruteForce adaptiveGenesis 1 rfl
  exact ⟨hr, hget, hsub, fun h => absurd (hagree.mp h) (by decide)⟩

end Mazze.Consensus
