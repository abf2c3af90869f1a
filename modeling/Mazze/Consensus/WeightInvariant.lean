/-
  What the two link-cut trees of the consensus graph hold, in every reachable state.

  `Shape` is the frame the values rest on: the blocks of the era form one tree under the era
  genesis, heights drop by one along its edges, both link-cut trees have its parent pointers
  at every block of the era, and a block of the era is activated only after its parent. `Inv`
  adds the values: the weight tree holds `SubTW(x)` at every block of the era, and the
  adaptive tree holds `2 * SubTW(x) - SubTW(parent(x)) + block_weight(parent(x))` at every
  activated block of the era with a parent.

  Each step keeps `Shape` and `Inv`, one lemma per kind of step for each; `shape_of_reachable`
  and `inv_of_reachable` are the run lemmas. The
  adaptive value of a block is only set when the block is activated: until then it is 0 plus
  whatever caterpillar updates of its siblings' subtrees it received, so a block that is
  linked into the trees and not activated yet (a partially invalid block waits for its timer)
  does not carry that value.

  Main results:
  * `adaptiveWeightImpl_eq`, `withoutBarrierWeight_eq`: taking the barrier out of the trees
    and putting it back leaves them as they were.
  * `Inv.activateBlock`: one activation keeps the invariant; the caterpillar update of the
    parent is exactly what the siblings' adaptive values need.
  * `Inv.makeCheckpointAt`: a checkpoint keeps it, since the subtree of the new genesis, its
    paths and its weights are those it had.
  * `weightTreesAgree_withEraGenesis_iff`: the first state agrees with the documentation
    exactly when the raw difficulty of the era genesis is its `SubTW`, which an adaptive
    genesis breaks (`subTW_withEraGenesis_of_adaptive`).
  * `shape_of_reachable`: every reachable state has the frame, from any era genesis.
  * `inv_of_reachable`: every reachable state satisfies `Inv`, for an era genesis that is not
    adaptive (its weight tree value is its difficulty from the start).
-/
import Mazze.Consensus.WeightTree

namespace Mazze.Consensus

open Forest

namespace ConsensusGraphInner

/-- The frame of the era in the arena and in the trees. -/
structure Shape (s : ConsensusGraphInner) : Prop where
  bounded : ∀ i, s.arenaLen ≤ i → s.arena i = none
  genesis_inEra : s.inEra s.curEraGenesisBlockArenaIndex = true
  genesis_parent : s.parentOf s.curEraGenesisBlockArenaIndex = none
  parent_inEra : ∀ x p, s.inEra x = true → s.parentOf x = some p →
    s.inEra p = true ∧ s.heightOf x = s.heightOf p + 1
  root_genesis : ∀ x, s.inEra x = true → s.parentOf x = none →
    x = s.curEraGenesisBlockArenaIndex
  weightTree_parent : ∀ x, s.inEra x = true → s.weightTree.parent x = s.parentOf x
  adaptiveTree_parent : ∀ x, s.inEra x = true → s.adaptiveTree.parent x = s.parentOf x
  activated_parent : ∀ x p, s.inEra x = true → s.activatedOf x = true →
    s.parentOf x = some p → s.activatedOf p = true

/-- The weight-tree invariant: the frame, and the values both trees hold. -/
structure Inv (s : ConsensusGraphInner) : Prop extends s.Shape where
  weight : ∀ x, s.inEra x = true → s.weightTree.get x = s.subTW x
  adaptive : ∀ x p, s.inEra x = true → s.activatedOf x = true → s.parentOf x = some p →
    s.adaptiveTree.get x = 2 * s.subTW x - s.subTW p + s.blockWeight p

variable {s s' : ConsensusGraphInner}

/-! ## Paths in the era -/

section Paths

theorem Shape.height_lt (h : s.Shape) {a b : Nat} (hab : s.eraParent a = some b) :
    s.heightOf b < s.heightOf a := by
  have := (h.parent_inEra a b (s.inEra_of_eraParent hab) (s.parentOf_of_eraParent hab)).2
  omega

/-- The walk from a block is the whole way up: its nodes are the block's ancestors. -/
theorem Shape.mem_eraPath_iff (h : s.Shape) (u v : Nat) :
    u ∈ s.eraPath v ↔ IsAncestor s.eraParent u v :=
  mem_pathFrom_iff (fun _ _ hab => h.height_lt hab) (Nat.lt_succ_self _) u

theorem Shape.inEra_of_isAncestor (h : s.Shape) {u v : Nat}
    (huv : IsAncestor s.eraParent u v) (hv : s.inEra v = true) : s.inEra u = true := by
  induction huv with
  | refl => exact hv
  | tail _ hstep _ =>
    exact (h.parent_inEra _ _ (s.inEra_of_eraParent hstep) (s.parentOf_of_eraParent hstep)).1

/-- An ancestor other than the block itself is in the era. -/
theorem Shape.eq_or_inEra_of_mem (h : s.Shape) {u v : Nat} (hu : u ∈ s.eraPath v) :
    u = v ∨ s.inEra u = true := by
  rcases Relation.ReflTransGen.cases_tail ((h.mem_eraPath_iff u v).1 hu) with huv | ⟨c, -, hc⟩
  · exact .inl huv
  · exact .inr (h.parent_inEra _ _ (s.inEra_of_eraParent hc) (s.parentOf_of_eraParent hc)).1

theorem Shape.genesis_isAncestor (h : s.Shape) (v : Nat) (hv : s.inEra v = true) :
    IsAncestor s.eraParent s.curEraGenesisBlockArenaIndex v := by
  cases hp : s.parentOf v with
  | none =>
    rw [h.root_genesis v hv hp]
    exact IsAncestor.refl _
  | some p =>
    obtain ⟨hpEra, hheight⟩ := h.parent_inEra v p hv hp
    have hstep : s.eraParent v = some p := by rw [s.eraParent_of_inEra hv, hp]
    exact (h.genesis_isAncestor p hpEra).trans (IsAncestor.of_parent hstep)
termination_by s.heightOf v
decreasing_by omega

/-- Activation goes down the era: the ancestors of an activated block are activated. -/
theorem Shape.activated_of_isAncestor (h : s.Shape) {u v : Nat}
    (huv : IsAncestor s.eraParent u v) (hv : s.activatedOf v = true) :
    s.activatedOf u = true := by
  induction huv using Relation.ReflTransGen.head_induction_on with
  | refl => exact hv
  | head hstep _ ih =>
    exact ih (h.activated_parent _ _ (s.inEra_of_eraParent hstep) hv
      (s.parentOf_of_eraParent hstep))

/-- The weight tree walks the era's paths. -/
theorem Shape.weightTree_path (h : s.Shape) {v : Nat} (hv : s.inEra v = true) :
    pathFrom s.weightTree.parent (s.fuel v) v = s.eraPath v :=
  pathFrom_congr fun u hu => by
    have hu' := h.inEra_of_isAncestor ((h.mem_eraPath_iff u v).1 hu) hv
    rw [h.weightTree_parent u hu', s.eraParent_of_inEra hu']

theorem Shape.adaptiveTree_path (h : s.Shape) {v : Nat} (hv : s.inEra v = true) :
    pathFrom s.adaptiveTree.parent (s.fuel v) v = s.eraPath v :=
  pathFrom_congr fun u hu => by
    have hu' := h.inEra_of_isAncestor ((h.mem_eraPath_iff u v).1 hu) hv
    rw [h.adaptiveTree_parent u hu', s.eraParent_of_inEra hu']

/-- The path of a block with a parent goes on from the parent. -/
theorem Shape.eraPath_of_parent (h : s.Shape) {v p : Nat} (hv : s.inEra v = true)
    (hp : s.parentOf v = some p) : s.eraPath v = v :: s.eraPath p := by
  have hheight := (h.parent_inEra v p hv hp).2
  have hstep : s.eraParent v = some p := by rw [s.eraParent_of_inEra hv, hp]
  rw [eraPath, fuel, hheight]
  exact pathFrom_of_parent_eq_some hstep _

/-- A block is not on its parent's path. -/
theorem Shape.not_mem_eraPath_parent (h : s.Shape) {v p : Nat} (hv : s.inEra v = true)
    (hp : s.parentOf v = some p) : v ∉ s.eraPath p := by
  intro hmem
  have hle := ((h.mem_eraPath_iff v p).1 hmem).rank_le fun _ _ hab => h.height_lt hab
  have hheight := (h.parent_inEra v p hv hp).2
  omega

end Paths

/-! ## Subtree weights -/

section SubTW

/-- The slots past the arena length are vacant, so a longer range sums to the same. -/
theorem subTW_eq_sum (hb : ∀ i, s.arenaLen ≤ i → s.arena i = none) {n : Nat}
    (hn : s.arenaLen ≤ n) (x : Nat) :
    s.subTW x = ∑ y ∈ Finset.range n, if x ∈ s.eraPath y then s.blockWeight y else 0 := by
  unfold subTW
  refine Finset.sum_subset (Finset.range_subset_range.2 hn) fun y _ hy => ?_
  have hvac : s.arena y = none := hb y (by simpa using hy)
  simp [blockWeight, hvac]

/-- Two states whose terms agree have the same subtree weights. -/
theorem subTW_eq_of_terms (hb : ∀ i, s.arenaLen ≤ i → s.arena i = none)
    (hb' : ∀ i, s'.arenaLen ≤ i → s'.arena i = none) {x x' : Nat}
    (hterm : ∀ y, (if x' ∈ s'.eraPath y then s'.blockWeight y else 0) =
      if x ∈ s.eraPath y then s.blockWeight y else 0) :
    s'.subTW x' = s.subTW x := by
  rw [subTW_eq_sum hb' (le_max_left s'.arenaLen s.arenaLen) x',
    subTW_eq_sum hb (le_max_right s'.arenaLen s.arenaLen) x]
  exact Finset.sum_congr rfl fun y _ => hterm y

/-- Nothing under a block that is not activated is activated. -/
theorem Shape.subTW_eq_zero_of_not_activated (h : s.Shape) {x : Nat}
    (hx : s.activatedOf x = false) : s.subTW x = 0 := by
  refine Finset.sum_eq_zero fun y _ => ?_
  split
  case isFalse => rfl
  case isTrue hxy =>
    cases hy : s.activatedOf y with
    | false => exact s.blockWeight_eq_zero_of_not_activated hy
    | true =>
      have := h.activated_of_isAncestor ((h.mem_eraPath_iff x y).1 hxy) hy
      rw [hx] at this
      cases this

/-- A block outside the era has no subtree. -/
theorem Shape.subTW_eq_zero_of_not_inEra (h : s.Shape) {x : Nat} (hx : s.inEra x = false) :
    s.subTW x = 0 := by
  refine Finset.sum_eq_zero fun y _ => ?_
  split
  case isFalse => rfl
  case isTrue hxy =>
    rcases h.eq_or_inEra_of_mem hxy with rfl | hera
    · exact s.blockWeight_eq_zero_of_not_inEra hx
    · rw [hx] at hera
      cases hera

/-- Activating a block adds its weight to the subtree weight of its ancestors. -/
theorem Shape.subTW_activate (h : s.Shape) {me : Nat} {b : ConsensusGraphNode}
    (hb : s.arena me = some b) (hnew : s.activatedOf me = false) (x : Nat) :
    (s.withNode me (some { b with activated := true })).subTW x =
      s.subTW x + if x ∈ s.eraPath me then
        (s.withNode me (some { b with activated := true })).blockWeight me else 0 := by
  have hme : me ∈ Finset.range s.arenaLen := by
    refine Finset.mem_range.2 (Nat.lt_of_not_le fun hle => ?_)
    rw [h.bounded me hle] at hb
    cases hb
  -- only the term of `me` changes, and it was 0
  have hterm : ∀ y, (if x ∈ s.eraPath y then
      (s.withNode me (some { b with activated := true })).blockWeight y else 0) =
      (if x ∈ s.eraPath y then s.blockWeight y else 0) +
        if y = me then (if x ∈ s.eraPath me then
          (s.withNode me (some { b with activated := true })).blockWeight me else 0) else 0 := by
    intro y
    by_cases hy : y = me
    · subst hy
      simp [s.blockWeight_eq_zero_of_not_activated hnew]
    · simp [hy, s.blockWeight_withNode_of_ne _ _ hy]
  unfold subTW
  rw [arenaLen_withNode, eraPath_activate s hb, Finset.sum_congr rfl fun y _ => hterm y,
    Finset.sum_add_distrib, Finset.sum_ite_eq', if_pos hme]

end SubTW

/-! ## Writes that keep the frame -/

/-- A write to the trees that keeps their parent pointers keeps the frame. -/
theorem Shape.withTrees (h : s.Shape) {w a : LinkCut Nat} (hw : w.parent = s.weightTree.parent)
    (ha : a.parent = s.adaptiveTree.parent) : (s.withTrees w a).Shape where
  bounded := h.bounded
  genesis_inEra := h.genesis_inEra
  genesis_parent := h.genesis_parent
  parent_inEra := h.parent_inEra
  root_genesis := h.root_genesis
  weightTree_parent x hx := by
    rw [weightTree_withTrees, hw]
    exact h.weightTree_parent x hx
  adaptiveTree_parent x hx := by
    rw [adaptiveTree_withTrees, ha]
    exact h.adaptiveTree_parent x hx
  activated_parent := h.activated_parent

/-! ## Inserting a block -/

section Insert

variable {me : Nat} {nd : ConsensusGraphNode}

theorem inEra_of_vacant (hslot : s.arena me = none) : s.inEra me = false := by
  simp [inEra, hslot]

/-- No block of the era hangs under a vacant slot. -/
theorem Shape.parentOf_ne_vacant (h : s.Shape) (hslot : s.arena me = none) {x : Nat}
    (hx : s.inEra x = true) : s.parentOf x ≠ some me := by
  intro hxp
  have := (h.parent_inEra x me hx hxp).1
  rw [inEra_of_vacant hslot] at this
  cases this

theorem Shape.bounded_insert (h : s.Shape) :
    ∀ i, (s.insert me nd).arenaLen ≤ i → (s.insert me nd).arena i = none := by
  intro i hi
  rw [arenaLen_insert, max_le_iff] at hi
  have hne : i ≠ me := by omega
  simp [hne, h.bounded i hi.1]

/-- An insertion into a vacant slot moves no walk of an older block. -/
theorem Shape.eraPath_insert (h : s.Shape) (hslot : s.arena me = none) {y : Nat} (hy : y ≠ me) :
    (s.insert me nd).eraPath y = s.eraPath y :=
  s.eraPath_eq_of_agree (s.fuel_insert_of_ne me nd hy) fun u hu => by
    refine s.eraParent_insert_of_ne me nd ?_
    rcases h.eq_or_inEra_of_mem hu with rfl | hu'
    · exact hy
    · rintro rfl
      rw [inEra_of_vacant hslot] at hu'
      cases hu'

/-- A new block weighs nothing and moves no walk, so no subtree weight changes. -/
theorem Shape.subTW_insert (h : s.Shape) (hslot : s.arena me = none) (x : Nat) :
    (s.insert me nd).subTW x = s.subTW x := by
  refine subTW_eq_of_terms h.bounded h.bounded_insert fun y => ?_
  by_cases hy : y = me
  · subst hy
    simp [blockWeight, hslot]
  · rw [h.eraPath_insert hslot hy, s.blockWeight_insert_of_ne _ _ hy]

/-- A new block of the era keeps the frame: it hangs under its parent, one above it. -/
theorem Shape.onNewBlock (h : s.Shape) {p : Nat} (hslot : s.arena me = none)
    (hparent : nd.parent = some p) (hp : s.inEra p = true)
    (hheight : nd.height = s.heightOf p + 1) : (s.onNewBlock me nd).Shape := by
  have hme := inEra_of_vacant hslot
  have hpme : p ≠ me := by
    rintro rfl
    rw [hp] at hme
    cases hme
  have hG : s.curEraGenesisBlockArenaIndex ≠ me := by
    intro hG
    have := h.genesis_inEra
    rw [hG, hme] at this
    cases this
  rw [onNewBlock_eq, hparent]
  refine ⟨h.bounded_insert, ?_, ?_, ?_, ?_, ?_, ?_, ?_⟩
  · simpa [inEra_insert, hG] using h.genesis_inEra
  · simpa [parentOf_insert, hG] using h.genesis_parent
  · intro x q hx hxq
    simp only [inEra_withTrees, parentOf_withTrees, heightOf_withTrees, inEra_insert,
      parentOf_insert, heightOf_insert] at hx hxq ⊢
    by_cases hxm : x = me
    · -- the new block: its parent is `p`, one below it
      subst hxm
      simp only [if_true, hparent, Option.some.injEq] at hxq
      subst hxq
      simp [hpme, hp, hheight]
    · simp only [if_neg hxm] at hx hxq ⊢
      have hqm : q ≠ me := fun hq => h.parentOf_ne_vacant hslot hx (hq ▸ hxq)
      simpa [hqm] using h.parent_inEra x q hx hxq
  · intro x hx hxn
    simp only [inEra_withTrees, parentOf_withTrees, inEra_insert, parentOf_insert] at hx hxn
    by_cases hxm : x = me
    · simp [hxm, hparent] at hxn
    · simp only [if_neg hxm] at hx hxn
      simpa using h.root_genesis x hx hxn
  · intro x hx
    simp only [inEra_withTrees, inEra_insert] at hx
    by_cases hxm : x = me
    · simp [hxm, parentOf_insert, hparent]
    · simp only [if_neg hxm] at hx
      simp [hxm, parentOf_insert, h.weightTree_parent x hx]
  · intro x hx
    simp only [inEra_withTrees, inEra_insert] at hx
    by_cases hxm : x = me
    · simp [hxm, parentOf_insert, hparent]
    · simp only [if_neg hxm] at hx
      simp [hxm, parentOf_insert, h.adaptiveTree_parent x hx]
  · intro x q hx hxa hxq
    simp only [inEra_withTrees, activatedOf_withTrees, parentOf_withTrees, inEra_insert,
      activatedOf_insert, parentOf_insert] at hx hxa hxq ⊢
    by_cases hxm : x = me
    · simp [hxm] at hxa
    · simp only [if_neg hxm] at hx hxa hxq
      have hqm : q ≠ me := fun hq => h.parentOf_ne_vacant hslot hx (hq ▸ hxq)
      simpa [hqm] using h.activated_parent x q hx hxa hxq

/-- The in-era branch of `on_new_block` keeps the invariant: the new block is a leaf of
    value 0 under its parent, and weighs nothing until it is activated. -/
theorem Inv.onNewBlock (hi : s.Inv) {p : Nat} (hslot : s.arena me = none)
    (hparent : nd.parent = some p) (hp : s.inEra p = true)
    (hheight : nd.height = s.heightOf p + 1) : (s.onNewBlock me nd).Inv := by
  have hme := inEra_of_vacant hslot
  have hshape := hi.toShape.onNewBlock hslot hparent hp hheight
  rw [onNewBlock_eq, hparent] at hshape ⊢
  refine ⟨hshape, ?_, ?_⟩
  · intro x hx
    simp only [inEra_withTrees, inEra_insert] at hx
    simp only [LinkCut.get_eq, weightTree_withTrees, subTW_withTrees, hi.subTW_insert hslot,
      LinkCut.value_link, LinkCut.value_makeTree, Function.update_apply]
    by_cases hxm : x = me
    · -- the new leaf holds 0, and nothing hangs under a vacant slot
      subst hxm
      simp [hi.subTW_eq_zero_of_not_inEra hme]
    · simp only [if_neg hxm] at hx ⊢
      exact hi.weight x hx
  · intro x q hx hxa hxq
    simp only [inEra_withTrees, activatedOf_withTrees, parentOf_withTrees, inEra_insert,
      activatedOf_insert, parentOf_insert] at hx hxa hxq
    have hxm : x ≠ me := by
      rintro rfl
      simp at hxa
    simp only [if_neg hxm] at hx hxa hxq
    have hqm : q ≠ me := fun hq => hi.parentOf_ne_vacant hslot hx (hq ▸ hxq)
    simp only [LinkCut.get_eq, adaptiveTree_withTrees, subTW_withTrees, blockWeight_withTrees,
      hi.subTW_insert hslot, LinkCut.value_link, LinkCut.value_makeTree, Function.update_apply, if_neg hxm,
      s.blockWeight_insert_of_ne _ _ hqm]
    exact hi.adaptive x q hx hxa hxq

/-- A block of the era after an out-of-era stub is inserted is another block than the stub,
    and was in the era before. -/
theorem inEra_insert_outOfEra (hslot : s.arena me = none) (x : Nat) :
    (s.insert me { nd with eraBlock := none }).inEra x = s.inEra x := by
  by_cases hxm : x = me
  · simp [inEra_insert, hxm, inEra_of_vacant hslot]
  · simp [inEra_insert, hxm]

theorem ne_of_inEra_insert_outOfEra {x : Nat}
    (hx : (s.insert me { nd with eraBlock := none }).inEra x = true) : x ≠ me := by
  intro hxm
  simp [inEra_insert, hxm] at hx

/-- An out-of-era stub keeps the frame: it is a one-node tree outside the era. -/
theorem Shape.insertOutEraBlock (h : s.Shape) (hslot : s.arena me = none) :
    (s.insertOutEraBlock me nd).Shape := by
  have hG : s.curEraGenesisBlockArenaIndex ≠ me := by
    intro hG
    have := h.genesis_inEra
    rw [hG, inEra_of_vacant hslot] at this
    cases this
  have hne := fun x => @ne_of_inEra_insert_outOfEra s me nd x
  have hera := @inEra_insert_outOfEra s me nd hslot
  rw [insertOutEraBlock_eq]
  refine ⟨h.bounded_insert, ?_, ?_, ?_, ?_, ?_, ?_, ?_⟩
  · simpa [inEra_insert, hG] using h.genesis_inEra
  · simpa [parentOf_insert, hG] using h.genesis_parent
  · intro x q hx hxq
    have hxm := hne x hx
    rw [inEra_withTrees, hera] at hx
    simp only [parentOf_withTrees, parentOf_insert, if_neg hxm] at hxq
    have hqm : q ≠ me := fun hq => h.parentOf_ne_vacant hslot hx (hq ▸ hxq)
    simpa [inEra_insert, heightOf_insert, hxm, hqm] using h.parent_inEra x q hx hxq
  · intro x hx hxn
    have hxm := hne x hx
    rw [inEra_withTrees, hera] at hx
    simp only [parentOf_withTrees, parentOf_insert, if_neg hxm] at hxn
    simpa using h.root_genesis x hx hxn
  · intro x hx
    have hxm := hne x hx
    rw [inEra_withTrees, hera] at hx
    simp [hxm, parentOf_insert, h.weightTree_parent x hx]
  · intro x hx
    have hxm := hne x hx
    rw [inEra_withTrees, hera] at hx
    simp [hxm, parentOf_insert, h.adaptiveTree_parent x hx]
  · intro x q hx hxa hxq
    have hxm := hne x hx
    rw [inEra_withTrees, hera] at hx
    simp only [activatedOf_withTrees, parentOf_withTrees, activatedOf_insert, parentOf_insert,
      if_neg hxm] at hxa hxq ⊢
    have hqm : q ≠ me := fun hq => h.parentOf_ne_vacant hslot hx (hq ▸ hxq)
    simpa [hqm] using h.activated_parent x q hx hxa hxq

/-- An out-of-era stub is a one-node tree outside the era: nothing of the era changes. -/
theorem Inv.insertOutEraBlock (hi : s.Inv) (hslot : s.arena me = none) :
    (s.insertOutEraBlock me nd).Inv := by
  have hne := fun x => @ne_of_inEra_insert_outOfEra s me nd x
  have hera := @inEra_insert_outOfEra s me nd hslot
  have hshape : (s.insertOutEraBlock me nd).Shape := hi.toShape.insertOutEraBlock hslot
  rw [insertOutEraBlock_eq] at hshape ⊢
  refine ⟨hshape, ?_, ?_⟩
  · intro x hx
    have hxm := hne x hx
    rw [inEra_withTrees, hera] at hx
    simp only [LinkCut.get_eq, weightTree_withTrees, subTW_withTrees, hi.subTW_insert hslot,
      LinkCut.value_makeTree, Function.update_apply, if_neg hxm]
    exact hi.weight x hx
  · intro x q hx hxa hxq
    have hxm := hne x hx
    rw [inEra_withTrees, hera] at hx
    simp only [activatedOf_withTrees, parentOf_withTrees, activatedOf_insert, parentOf_insert,
      if_neg hxm] at hxa hxq
    have hqm : q ≠ me := fun hq => hi.parentOf_ne_vacant hslot hx (hq ▸ hxq)
    simp only [LinkCut.get_eq, adaptiveTree_withTrees, subTW_withTrees, blockWeight_withTrees,
      hi.subTW_insert hslot, LinkCut.value_makeTree, Function.update_apply, if_neg hxm,
      s.blockWeight_insert_of_ne _ _ hqm]
    exact hi.adaptive x q hx hxa hxq

end Insert

/-! ## Activating a block -/

section Activate

variable {me : Nat} {b : ConsensusGraphNode}

/-- Activation only sets the flag, once the parent of a block of the era has it. -/
theorem Shape.activate (h : s.Shape) (hb : s.arena me = some b)
    (hparent : s.inEra me = true → ∀ p, s.parentOf me = some p → s.activatedOf p = true) :
    (s.withNode me (some { b with activated := true })).Shape := by
  have hlive : me < s.arenaLen := Nat.lt_of_not_le fun hle => by
    rw [h.bounded me hle] at hb
    cases hb
  refine ⟨?_, ?_, ?_, ?_, ?_, ?_, ?_, ?_⟩
  · intro i hi
    have hne : i ≠ me := by simp at hi; omega
    simp [hne, h.bounded i (by simpa using hi)]
  · simpa [inEra_activate s hb] using h.genesis_inEra
  · simpa [parentOf_activate s hb] using h.genesis_parent
  · simpa [inEra_activate s hb, parentOf_activate s hb, heightOf_activate s hb] using
      h.parent_inEra
  · simpa [inEra_activate s hb, parentOf_activate s hb] using h.root_genesis
  · simpa [inEra_activate s hb, parentOf_activate s hb] using h.weightTree_parent
  · simpa [inEra_activate s hb, parentOf_activate s hb] using h.adaptiveTree_parent
  · intro x q hx hxa hxq
    rw [inEra_activate s hb] at hx
    rw [parentOf_activate s hb] at hxq
    rw [activatedOf_activate] at hxa ⊢
    by_cases hxm : x = me
    · subst hxm
      simp [hparent hx q hxq]
    · rw [if_neg hxm] at hxa
      simp [h.activated_parent x q hx hxa hxq]

/-- `activate_block` keeps the frame: it sets the flag, and the trees keep their parents. -/
theorem Shape.activateBlock (h : s.Shape)
    (hparent : s.inEra me = true → ∀ p, s.parentOf me = some p → s.activatedOf p = true)
    (hact : s.activateBlock me = some s') : s'.Shape := by
  obtain ⟨b, hb, ⟨-, rfl⟩ | ⟨-, hfin⟩⟩ := s.activateBlock_eq_some hact
  · exact h.activate hb hparent
  · obtain ⟨p, -, rfl⟩ := updateLctsFinalize_eq_some hfin
    exact (h.activate hb hparent).withTrees rfl rfl

/-- `activate_block` keeps the invariant. A block outside the era only gets its flag. A block
    of the era is added along its path in both trees; in the adaptive tree it gets
    `-SubTW(parent) + block_weight(parent)`, then twice its weight, and the caterpillar update
    of its parent takes its weight off again from itself and from its siblings, whose
    parent's subtree weight has grown by that much. -/
theorem Inv.activateBlock (hi : s.Inv) (hnew : s.activatedOf me = false)
    (hparent : s.inEra me = true → ∀ p, s.parentOf me = some p → s.activatedOf p = true)
    (h : s.activateBlock me = some s') : s'.Inv := by
  obtain ⟨b, hb, ⟨hera, rfl⟩ | ⟨hera, hfin⟩⟩ := s.activateBlock_eq_some h
  · -- outside the era: no subtree weight changes
    have hme : s.inEra me = false := by simp [inEra, hb, hera]
    have hshape := hi.activate hb hparent
    have hsub : ∀ x, (s.withNode me (some { b with activated := true })).subTW x = s.subTW x := by
      intro x
      rw [hi.subTW_activate hb hnew, (s.withNode me _).blockWeight_eq_zero_of_not_inEra (by
        rw [inEra_activate s hb]; exact hme)]
      simp
    refine ⟨hshape, ?_, ?_⟩
    · intro x hx
      rw [inEra_activate s hb] at hx
      rw [hsub]
      exact hi.weight x hx
    · intro x q hx hxa hxq
      rw [inEra_activate s hb] at hx
      rw [parentOf_activate s hb] at hxq
      have hxm : x ≠ me := by
        rintro rfl
        rw [hme] at hx
        cases hx
      have hqm : q ≠ me := fun hq => by
        have := (hi.parent_inEra x q hx hxq).1
        rw [hq, hme] at this
        cases this
      rw [activatedOf_activate, if_neg hxm] at hxa
      rw [hsub, hsub, s.blockWeight_withNode_of_ne _ _ hqm]
      exact hi.adaptive x q hx hxa hxq
  · -- in the era: `update_lcts_finalize`
    obtain ⟨p, hp, rfl⟩ := updateLctsFinalize_eq_some hfin
    rw [parentOf_activate s hb] at hp
    have hme : s.inEra me = true := by simp [inEra, hb, hera]
    have hpEra := (hi.parent_inEra me p hme hp).1
    have hpAct := hparent hme p hp
    have hpme : p ≠ me := by
      rintro rfl
      rw [hnew] at hpAct
      cases hpAct
    have hshape := hi.activate hb hparent
    have hpath : s.eraPath me = me :: s.eraPath p := hi.eraPath_of_parent hme hp
    have hnotin : me ∉ s.eraPath p := hi.not_mem_eraPath_parent hme hp
    have hsub := hi.subTW_activate hb hnew
    have hwPath := hi.weightTree_path hme
    have haPath := hi.adaptiveTree_path hme
    have haPathP := hi.adaptiveTree_path hpEra
    have hwp : s.weightTree.value p = s.subTW p := hi.weight p hpEra
    refine ⟨hshape.withTrees rfl rfl, ?_, ?_⟩
    · intro x hx
      rw [inEra_withTrees, inEra_activate s hb] at hx
      have hwx : s.weightTree.value x = s.subTW x := hi.weight x hx
      simp only [LinkCut.get_eq, weightTree_withTrees, subTW_withTrees, weightTree_withNode,
        LinkCut.value_pathApply, fuel_activate s hb, hwPath, hsub, hwx]
    · intro x q hx hxa hxq
      rw [inEra_withTrees, inEra_activate s hb] at hx
      rw [parentOf_withTrees, parentOf_activate s hb] at hxq
      rw [activatedOf_withTrees, activatedOf_activate] at hxa
      have hxq' : s.adaptiveTree.parent x = some q := by rw [hi.adaptiveTree_parent x hx, hxq]
      simp only [LinkCut.get_eq, adaptiveTree_withTrees, subTW_withTrees, blockWeight_withTrees,
        adaptiveTree_withNode, weightTree_withNode, LinkCut.caterpillarApply,
        LinkCut.value_shift, LinkCut.caterpillarDelta_eq, LinkCut.parent_pathApply,
        LinkCut.parent_set, LinkCut.value_pathApply, LinkCut.value_set, fuel_activate s hb,
        haPath, haPathP, hxq', hsub, hwp]
      by_cases hxm : x = me
      · -- the block itself: nothing under it was activated before it
        subst hxm
        rw [hp, Option.some.injEq] at hxq
        subst hxq
        have hzero := hi.subTW_eq_zero_of_not_activated hnew
        simp [hpath, hnotin, hzero, s.mem_eraPath_self p]
        omega
      · -- another block: it and its parent gain the weight exactly when they are on the path
        rw [if_neg hxm] at hxa
        have hqAct := hi.activated_parent x q hx hxa hxq
        have hqm : q ≠ me := by
          rintro rfl
          rw [hnew] at hqAct
          cases hqAct
        have hstep : s.eraParent x = some q := by rw [s.eraParent_of_inEra hx, hxq]
        have hup : x ∈ s.eraPath p → q ∈ s.eraPath p := fun hxp =>
          (hi.mem_eraPath_iff q p).2 (((hi.mem_eraPath_iff x p).1 hxp).up hstep)
        have hax : s.adaptiveTree.value x = 2 * s.subTW x - s.subTW q + s.blockWeight q :=
          hi.adaptive x q hx hxa hxq
        rw [s.blockWeight_withNode_of_ne _ _ hqm]
        by_cases hxp : x ∈ s.eraPath p
        · simp [hpath, hxm, hqm, hxp, hup hxp, hax]
          omega
        · by_cases hqp : q ∈ s.eraPath p
          · simp [hpath, hxm, hqm, hxp, hqp, hax]
            omega
          · simp [hpath, hxm, hqm, hxp, hqp, hax]

end Activate

/-! ## The barrier adjustments leave no trace -/

section Barrier

/-- What one barrier turn adds to the weight tree. -/
def barrierWeightAmount (t : ConsensusGraphInner) (sign : Int) (entry : Nat × Int) :
    Nat → Int :=
  t.weightTree.pathDelta (t.fuel entry.1) entry.1 (sign * entry.2)

/-- What one barrier turn adds to the adaptive tree. -/
def barrierAdaptiveAmount (t : ConsensusGraphInner) (sign : Int) (entry : Nat × Int) :
    Nat → Int :=
  (match t.parentOf entry.1 with
    | some parent => t.adaptiveTree.caterpillarDelta (t.fuel parent) parent (-sign * entry.2)
    | none => 0) +
  t.adaptiveTree.pathDelta (t.fuel entry.1) entry.1 (sign * entry.2 * 2)

theorem applyBarrier_eq (sign : Int) (t : ConsensusGraphInner) (entry : Nat × Int) :
    applyBarrier sign t entry =
      t.withTrees (t.weightTree.shift (barrierWeightAmount t sign entry))
        (t.adaptiveTree.shift (barrierAdaptiveAmount t sign entry)) := by
  unfold applyBarrier barrierAdaptiveAmount barrierWeightAmount
  cases t.parentOf entry.1 with
  | none => simp only [LinkCut.pathApply, zero_add]
  | some parent => simp [LinkCut.pathApply, LinkCut.caterpillarApply, LinkCut.shift_shift]

/-- A turn reads only the arena and the parent pointers, which shifting the values keeps. -/
theorem barrierWeightAmount_shift (t : ConsensusGraphInner) (c : Nat → Int) (a : LinkCut Nat) :
    barrierWeightAmount (t.withTrees (t.weightTree.shift c) a) = barrierWeightAmount t := rfl

theorem barrierAdaptiveAmount_shift (t : ConsensusGraphInner) (c c' : Nat → Int) :
    barrierAdaptiveAmount (t.withTrees (t.weightTree.shift c) (t.adaptiveTree.shift c')) =
      barrierAdaptiveAmount t := rfl

/-- A loop of barrier turns shifts both trees by the sum of what each turn adds. -/
theorem foldl_applyBarrier (sign : Int) (l : List (Nat × Int)) (t : ConsensusGraphInner) :
    l.foldl (applyBarrier sign) t = t.withTrees
      (t.weightTree.shift fun u => (l.map fun e => barrierWeightAmount t sign e u).sum)
      (t.adaptiveTree.shift fun u => (l.map fun e => barrierAdaptiveAmount t sign e u).sum) := by
  induction l generalizing t with
  | nil => simp
  | cons e l ih =>
    rw [List.foldl_cons, ih, applyBarrier_eq, barrierWeightAmount_shift,
      barrierAdaptiveAmount_shift]
    simp only [withTrees_withTrees, weightTree_withTrees, adaptiveTree_withTrees,
      LinkCut.shift_shift]
    congr 2

theorem barrierWeightAmount_neg (t : ConsensusGraphInner) (e : Nat × Int) :
    barrierWeightAmount t (-1) e = -barrierWeightAmount t 1 e := by
  unfold barrierWeightAmount
  rw [show (-1 : Int) * e.2 = -(1 * e.2) by omega, LinkCut.pathDelta_neg]

theorem barrierAdaptiveAmount_neg (t : ConsensusGraphInner) (e : Nat × Int) :
    barrierAdaptiveAmount t (-1) e = -barrierAdaptiveAmount t 1 e := by
  unfold barrierAdaptiveAmount
  rw [show (-1 : Int) * e.2 * 2 = -(1 * e.2 * 2) by omega, LinkCut.pathDelta_neg]
  cases t.parentOf e.1 with
  | none =>
    funext u
    simp
  | some parent =>
    dsimp only
    rw [show -(-1 : Int) * e.2 = -(-1 * e.2) by omega, LinkCut.caterpillarDelta_neg]
    funext u
    simp
    omega

/-- Amounts subtracted in one loop and added in the other cancel. -/
theorem sum_amounts_cancel (l : List (Nat × Int)) (f g : Nat × Int → Nat → Int)
    (h : ∀ e, f e = -g e) :
    ((fun u => (l.map fun e => f e u).sum) + fun u => (l.map fun e => g e u).sum) =
      fun _ => 0 := by
  funext u
  rw [Pi.add_apply, ← List.sum_map_add]
  simp [h]

/-- `adaptive_weight_impl` leaves both trees as it found them. -/
theorem adaptiveWeightImpl_eq (s : ConsensusGraphInner) (returnsEarly : Bool)
    (outlierBarrier : List Nat) : s.adaptiveWeightImpl returnsEarly outlierBarrier = s := by
  unfold adaptiveWeightImpl
  split
  · rfl
  · rw [foldl_applyBarrier, foldl_applyBarrier, barrierWeightAmount_shift,
      barrierAdaptiveAmount_shift]
    simp only [withTrees_withTrees, weightTree_withTrees, adaptiveTree_withTrees,
      LinkCut.shift_shift, sum_amounts_cancel _ _ _ (barrierWeightAmount_neg s),
      sum_amounts_cancel _ _ _ (barrierAdaptiveAmount_neg s), LinkCut.shift_zero, withTrees_self]

theorem foldl_applyBarrierWeight (sign : Int) (l : List (Nat × Int)) (t : ConsensusGraphInner) :
    l.foldl (applyBarrierWeight sign) t = t.withTrees
      (t.weightTree.shift fun u => (l.map fun e => barrierWeightAmount t sign e u).sum)
      t.adaptiveTree := by
  induction l generalizing t with
  | nil => simp
  | cons e l ih =>
    rw [List.foldl_cons, ih]
    simp only [applyBarrierWeight, withTrees_withTrees, weightTree_withTrees,
      adaptiveTree_withTrees, LinkCut.pathApply, LinkCut.shift_shift]
    congr 2

/-- The weight-only checks leave the weight tree as they found it. -/
theorem withoutBarrierWeight_eq (s : ConsensusGraphInner) (returnsEarly : Bool)
    (outlierBarrier : List Nat) : s.withoutBarrierWeight returnsEarly outlierBarrier = s := by
  unfold withoutBarrierWeight
  split
  · rfl
  · rw [foldl_applyBarrierWeight, foldl_applyBarrierWeight, barrierWeightAmount_shift]
    simp only [withTrees_withTrees, weightTree_withTrees, adaptiveTree_withTrees,
      LinkCut.shift_shift, sum_amounts_cancel _ _ _ (barrierWeightAmount_neg _),
      LinkCut.shift_zero, withTrees_self]

end Barrier

/-! ## A checkpoint -/

section Checkpoint

variable {g p : Nat} {newEraSet : Nat → Bool}

theorem Shape.inSubtree_iff (h : s.Shape) (g x : Nat) :
    s.inSubtree g x = true ↔ IsAncestor s.eraParent g x := by
  simp [inSubtree, h.mem_eraPath_iff]

theorem Shape.inEra_of_inSubtree (h : s.Shape) (hg : s.inEra g = true) {x : Nat}
    (hx : s.inSubtree g x = true) : s.inEra x = true := by
  rcases isAncestor_iff.1 ((h.inSubtree_iff g x).1 hx) with rfl | ⟨c, hc, -⟩
  · exact hg
  · exact s.inEra_of_eraParent hc

/-- What the end of a checkpoint leaves of the era, once the legacy loop has taken every block
    of the new era outside the subtree of `g` out of the era and left the subtree alone: the
    subtree of `g` keeps its slots and tree parents, reads as before (`g` cut from its parent),
    and is all that is left of the era, with the old parent edges below `g`. -/
structure CheckpointFrame (s t : ConsensusGraphInner) (g : Nat) (newEraSet : Nat → Bool) :
    Prop where
  keep : ∀ x, s.inSubtree g x = true → t.arena x = s.arena x ∧
    t.weightTree.parent x = s.weightTree.parent x ∧
    t.adaptiveTree.parent x = s.adaptiveTree.parent x
  read : ∀ x, s.inSubtree g x = true →
    (t.finishCheckpoint g newEraSet).heightOf x = s.heightOf x ∧
    (t.finishCheckpoint g newEraSet).inEra x = s.inEra x ∧
    (t.finishCheckpoint g newEraSet).activatedOf x = s.activatedOf x ∧
    (t.finishCheckpoint g newEraSet).blockWeight x = s.blockWeight x ∧
    (t.finishCheckpoint g newEraSet).parentOf x = if x = g then none else s.parentOf x
  out : ∀ x, s.inSubtree g x = false → (t.finishCheckpoint g newEraSet).inEra x = false
  era : ∀ x, (t.finishCheckpoint g newEraSet).inEra x = true ↔ s.inSubtree g x = true
  cut : ∀ a b, (t.finishCheckpoint g newEraSet).eraParent a = some b ↔
    s.eraParent a = some b ∧ IsAncestor s.eraParent g a ∧ a ≠ g

theorem Shape.checkpointFrame (h : s.Shape) (hg : s.inEra g = true)
    (hset : ∀ x, s.inSubtree g x = true → newEraSet x = true) {t : ConsensusGraphInner}
    {visited : Nat → Prop} (hloop : LegacyLoop s t visited)
    (hvisited : ∀ x, visited x → x < s.arenaLen ∧ s.inSubtree g x = false)
    (hall : ∀ x, x < s.arenaLen → newEraSet x = true → s.inSubtree g x = false → visited x) :
    CheckpointFrame s t g newEraSet := by
  have hrank : ∀ a b, s.eraParent a = some b → s.heightOf b < s.heightOf a :=
    fun _ _ hab => h.height_lt hab
  have hgSub : s.inSubtree g g = true := by simp [inSubtree, mem_eraPath_self]
  -- the subtree of `g` is left alone by the loop
  have hkeep : ∀ x, s.inSubtree g x = true → t.arena x = s.arena x ∧
      t.weightTree.parent x = s.weightTree.parent x ∧
      t.adaptiveTree.parent x = s.adaptiveTree.parent x := fun x hx =>
    hloop.other x fun hv => by
      have := (hvisited x hv).2
      rw [hx] at this
      cases this
  have harenaSub : ∀ x, s.inSubtree g x = true → x ≠ g →
      (t.finishCheckpoint g newEraSet).arena x = s.arena x := by
    intro x hx hxg
    rw [arena_finishCheckpoint, if_neg hxg, if_pos (hset x hx), (hkeep x hx).1]
  have harenaG : (t.finishCheckpoint g newEraSet).arena g =
      (s.arena g).map fun b => { b with parent := none } := by
    rw [arena_finishCheckpoint, if_pos rfl, if_pos (hset g hgSub), (hkeep g hgSub).1]
  have hratio : (t.finishCheckpoint g newEraSet).heavyBlockDifficultyRatio =
      s.heavyBlockDifficultyRatio := hloop.heavyBlockDifficultyRatio
  -- what the new state reads at a block of the subtree
  have hread : ∀ x, s.inSubtree g x = true →
      (t.finishCheckpoint g newEraSet).heightOf x = s.heightOf x ∧
      (t.finishCheckpoint g newEraSet).inEra x = s.inEra x ∧
      (t.finishCheckpoint g newEraSet).activatedOf x = s.activatedOf x ∧
      (t.finishCheckpoint g newEraSet).blockWeight x = s.blockWeight x ∧
      (t.finishCheckpoint g newEraSet).parentOf x = if x = g then none else s.parentOf x := by
    intro x hx
    by_cases hxg : x = g
    · subst hxg
      exact ⟨heightOf_of_arena_cut harenaG, inEra_of_arena_cut harenaG,
        activatedOf_of_arena_cut harenaG, blockWeight_of_arena_cut harenaG hratio,
        by rw [if_pos rfl]; exact parentOf_of_arena_cut harenaG⟩
    · have ha := harenaSub x hx hxg
      exact ⟨heightOf_of_arena_eq ha, inEra_of_arena_eq ha, activatedOf_of_arena_eq ha,
        blockWeight_of_arena_eq ha hratio, by rw [if_neg hxg]; exact parentOf_of_arena_eq ha⟩
  -- outside the subtree nothing is in the era any more
  have hout : ∀ x, s.inSubtree g x = false → (t.finishCheckpoint g newEraSet).inEra x = false := by
    intro x hx
    have hxg : x ≠ g := by
      rintro rfl
      rw [hgSub] at hx
      cases hx
    have hslot : (t.finishCheckpoint g newEraSet).arena x =
        if newEraSet x then t.arena x else none := by
      rw [arena_finishCheckpoint, if_neg hxg]
    by_cases hE : newEraSet x = true
    · rw [if_pos hE] at hslot
      rw [inEra_of_arena_eq hslot]
      by_cases hlt : x < s.arenaLen
      · exact hloop.visited_out x (hall x hlt hE hx)
      · -- past the arena: still vacant
        have hv : ¬ visited x := fun hv => hlt (hvisited x hv).1
        rw [inEra_of_arena_eq (hloop.other x hv).1]
        simp [inEra, h.bounded x (Nat.le_of_not_lt hlt)]
    · rw [if_neg hE] at hslot
      simp [inEra, hslot]
  have hera : ∀ x, (t.finishCheckpoint g newEraSet).inEra x = true ↔ s.inSubtree g x = true := by
    intro x
    constructor
    · intro hx
      by_contra hnot
      rw [hout x (by simpa using hnot)] at hx
      cases hx
    · intro hx
      rw [(hread x hx).2.1]
      exact h.inEra_of_inSubtree hg hx
  -- the new parent edges are the old ones out of the strict descendants of `g`
  have hcut : ∀ a b, (t.finishCheckpoint g newEraSet).eraParent a = some b ↔
      s.eraParent a = some b ∧ IsAncestor s.eraParent g a ∧ a ≠ g := by
    intro a b
    constructor
    · intro hab
      have ha := (hera a).1 (inEra_of_eraParent _ hab)
      have hpa := parentOf_of_eraParent _ hab
      rw [(hread a ha).2.2.2.2] at hpa
      by_cases hag : a = g
      · rw [if_pos hag] at hpa
        cases hpa
      · rw [if_neg hag] at hpa
        exact ⟨by rw [s.eraParent_of_inEra (h.inEra_of_inSubtree hg ha), hpa],
          (h.inSubtree_iff g a).1 ha, hag⟩
    · rintro ⟨hab, hga, hag⟩
      have ha := (h.inSubtree_iff g a).2 hga
      rw [eraParent_of_inEra _ ((hera a).2 ha), (hread a ha).2.2.2.2, if_neg hag]
      exact parentOf_of_eraParent _ hab
  exact ⟨hkeep, hread, hout, hera, hcut⟩

/-- The end of a checkpoint keeps the frame: the subtree of `g` is the era, rooted at `g`. -/
theorem Shape.finishCheckpoint (h : s.Shape) (hg : s.inEra g = true)
    (hset : ∀ x, s.inSubtree g x = true → newEraSet x = true) {t : ConsensusGraphInner}
    {visited : Nat → Prop} (hloop : LegacyLoop s t visited)
    (hvisited : ∀ x, visited x → x < s.arenaLen ∧ s.inSubtree g x = false)
    (hall : ∀ x, x < s.arenaLen → newEraSet x = true → s.inSubtree g x = false → visited x) :
    (t.finishCheckpoint g newEraSet).Shape := by
  have hrank : ∀ a b, s.eraParent a = some b → s.heightOf b < s.heightOf a :=
    fun _ _ hab => h.height_lt hab
  have hgSub : s.inSubtree g g = true := by simp [inSubtree, mem_eraPath_self]
  have hglive : g < s.arenaLen := Nat.lt_of_not_le fun hle => by
    have := hg
    simp [inEra, h.bounded g hle] at this
  obtain ⟨hkeep, hread, -, hera, -⟩ := h.checkpointFrame hg hset hloop hvisited hall
  refine ⟨?_, ?_, ?_, ?_, ?_, ?_, ?_, ?_⟩
  · intro i hi'
    rw [arenaLen_finishCheckpoint, hloop.arenaLen] at hi'
    have hig : i ≠ g := by omega
    have hv : ¬ visited i := fun hv => by have := (hvisited i hv).1; omega
    rw [arena_finishCheckpoint, if_neg hig, (hloop.other i hv).1, h.bounded i hi']
    simp
  · rw [curEraGenesisBlockArenaIndex_finishCheckpoint]
    exact (hera g).2 hgSub
  · rw [curEraGenesisBlockArenaIndex_finishCheckpoint, (hread g hgSub).2.2.2.2, if_pos rfl]
  · intro x q hx hxq
    have hxs := (hera x).1 hx
    have hxg : x ≠ g := by
      intro hxg
      rw [hxg, (hread g hgSub).2.2.2.2, if_pos rfl] at hxq
      cases hxq
    rw [(hread x hxs).2.2.2.2, if_neg hxg] at hxq
    have hxe := h.inEra_of_inSubtree hg hxs
    -- the parent of a strict descendant of `g` is in the subtree of `g`
    have hqs : s.inSubtree g q = true := by
      have hstep : s.eraParent x = some q := by rw [s.eraParent_of_inEra hxe, hxq]
      rcases isAncestor_iff.1 ((h.inSubtree_iff g x).1 hxs) with hgx | ⟨c, hc, hgc⟩
      · exact absurd hgx hxg
      · rw [hstep, Option.some.injEq] at hc
        subst hc
        exact (h.inSubtree_iff g q).2 hgc
    obtain ⟨_, hheight⟩ := h.parent_inEra x q hxe hxq
    exact ⟨(hera q).2 hqs, by rw [(hread x hxs).1, (hread q hqs).1, hheight]⟩
  · intro x hx hxn
    have hxs := (hera x).1 hx
    rw [curEraGenesisBlockArenaIndex_finishCheckpoint]
    by_contra hxg
    rw [(hread x hxs).2.2.2.2, if_neg hxg] at hxn
    -- a root of the era is the old genesis, which is above `g`: so it is `g`
    have hx0 := h.root_genesis x (h.inEra_of_inSubtree hg hxs) hxn
    have hgx := (h.inSubtree_iff g x).1 hxs
    rw [hx0] at hgx
    exact hxg (hx0.trans (hgx.antisymm hrank (h.genesis_isAncestor g hg)).symm)
  · intro x hx
    have hxs := (hera x).1 hx
    rw [weightTree_finishCheckpoint, LinkCut.parent_splitRoot, Function.update_apply,
      (hread x hxs).2.2.2.2]
    split
    · rfl
    · rw [(hkeep x hxs).2.1]
      exact h.weightTree_parent x (h.inEra_of_inSubtree hg hxs)
  · intro x hx
    have hxs := (hera x).1 hx
    rw [adaptiveTree_finishCheckpoint, LinkCut.parent_splitRoot, Function.update_apply,
      (hread x hxs).2.2.2.2]
    split
    · rfl
    · rw [(hkeep x hxs).2.2]
      exact h.adaptiveTree_parent x (h.inEra_of_inSubtree hg hxs)
  · intro x q hx hxa hxq
    have hxs := (hera x).1 hx
    have hxg : x ≠ g := by
      intro hxg
      rw [hxg, (hread g hgSub).2.2.2.2, if_pos rfl] at hxq
      cases hxq
    rw [(hread x hxs).2.2.2.2, if_neg hxg] at hxq
    rw [(hread x hxs).2.2.1] at hxa
    have hxe := h.inEra_of_inSubtree hg hxs
    have hqs : s.inSubtree g q = true := by
      have := (h.parent_inEra x q hxe hxq).1
      have hstep : s.eraParent x = some q := by rw [s.eraParent_of_inEra hxe, hxq]
      rcases isAncestor_iff.1 ((h.inSubtree_iff g x).1 hxs) with hgx | ⟨c, hc, hgc⟩
      · exact absurd hgx hxg
      · rw [hstep, Option.some.injEq] at hc
        subst hc
        exact (h.inSubtree_iff g q).2 hgc
    rw [(hread q hqs).2.2.1]
    exact h.activated_parent x q hxe hxa hxq

/-- The end of a checkpoint keeps the invariant: the subtree of `g` keeps its values, and so
    its paths below `g` and its subtree weights. -/
theorem Inv.finishCheckpoint (hi : s.Inv) (hg : s.inEra g = true)
    (hset : ∀ x, s.inSubtree g x = true → newEraSet x = true) {t : ConsensusGraphInner}
    {visited : Nat → Prop} (hloop : LegacyLoop s t visited)
    (hvisited : ∀ x, visited x → x < s.arenaLen ∧ s.inSubtree g x = false)
    (hall : ∀ x, x < s.arenaLen → newEraSet x = true → s.inSubtree g x = false → visited x) :
    (t.finishCheckpoint g newEraSet).Inv := by
  have hrank : ∀ a b, s.eraParent a = some b → s.heightOf b < s.heightOf a :=
    fun _ _ hab => hi.height_lt hab
  have hgSub : s.inSubtree g g = true := by simp [inSubtree, mem_eraPath_self]
  obtain ⟨-, hread, hout, hera, hcut⟩ := hi.checkpointFrame hg hset hloop hvisited hall
  have hshape := hi.toShape.finishCheckpoint hg hset hloop hvisited hall
  -- the subtree weights of the subtree of `g` are those it had
  have hsubTW : ∀ x, s.inSubtree g x = true →
      (t.finishCheckpoint g newEraSet).subTW x = s.subTW x := by
    intro x hx
    have hgx := (hi.inSubtree_iff g x).1 hx
    refine subTW_eq_of_terms hi.bounded hshape.bounded fun y => ?_
    by_cases hy : s.inSubtree g y = true
    · have hmem : x ∈ (t.finishCheckpoint g newEraSet).eraPath y ↔ x ∈ s.eraPath y := by
        rw [hshape.mem_eraPath_iff, hi.mem_eraPath_iff]
        exact isAncestor_cut_iff hrank hcut hgx
      rw [(hread y hy).2.2.2.1]
      simp only [hmem]
    · -- a block outside the subtree weighs nothing now, and was not under `x`
      have hy' : s.inSubtree g y = false := by simpa using hy
      rw [blockWeight_eq_zero_of_not_inEra _ (hout y hy')]
      have hxy : x ∉ s.eraPath y := fun hxy =>
        hy ((hi.inSubtree_iff g y).2 (hgx.trans ((hi.mem_eraPath_iff x y).1 hxy)))
      simp [hxy]
  refine ⟨hshape, ?_, ?_⟩
  · intro x hx
    have hxs := (hera x).1 hx
    rw [hsubTW x hxs, LinkCut.get_eq, weightTree_finishCheckpoint, LinkCut.value_splitRoot,
      hloop.weightValue, ← LinkCut.get_eq]
    exact hi.weight x (hi.inEra_of_inSubtree hg hxs)
  · intro x q hx hxa hxq
    have hxs := (hera x).1 hx
    have hxg : x ≠ g := by
      intro hxg
      rw [hxg, (hread g hgSub).2.2.2.2, if_pos rfl] at hxq
      cases hxq
    rw [(hread x hxs).2.2.2.2, if_neg hxg] at hxq
    rw [(hread x hxs).2.2.1] at hxa
    have hxe := hi.inEra_of_inSubtree hg hxs
    have hqs : s.inSubtree g q = true := by
      have hstep : s.eraParent x = some q := by rw [s.eraParent_of_inEra hxe, hxq]
      rcases isAncestor_iff.1 ((hi.inSubtree_iff g x).1 hxs) with hgx | ⟨c, hc, hgc⟩
      · exact absurd hgx hxg
      · rw [hstep, Option.some.injEq] at hc
        subst hc
        exact (hi.inSubtree_iff g q).2 hgc
    rw [hsubTW x hxs, hsubTW q hqs, (hread q hqs).2.2.2.1, LinkCut.get_eq,
      adaptiveTree_finishCheckpoint, LinkCut.value_splitRoot, hloop.adaptiveValue,
      ← LinkCut.get_eq]
    exact hi.adaptive x q hxe hxa hxq

/-- The legacy loop of `make_checkpoint_at` visits the blocks of the new era outside the subtree
    of `g`. -/
theorem mem_legacy_iff {x : Nat} :
    x ∈ (List.range s.arenaLen).filter (fun x => newEraSet x && !s.inSubtree g x) ↔
      x < s.arenaLen ∧ newEraSet x = true ∧ s.inSubtree g x = false := by
  simp

/-- `make_checkpoint_at` keeps the frame. -/
theorem Shape.makeCheckpointAt (h : s.Shape) (hg : s.inEra g = true)
    (hset : ∀ x, s.inSubtree g x = true → newEraSet x = true) :
    (s.makeCheckpointAt g newEraSet).Shape :=
  h.finishCheckpoint hg hset (legacyLoop_foldl newEraSet _ s)
    (fun _ hx => ⟨(mem_legacy_iff.1 hx).1, (mem_legacy_iff.1 hx).2.2⟩)
    (fun _ hlt hE hx => mem_legacy_iff.2 ⟨hlt, hE, hx⟩)

/-- `make_checkpoint_at` keeps the invariant. -/
theorem Inv.makeCheckpointAt (hi : s.Inv) (hg : s.inEra g = true)
    (hset : ∀ x, s.inSubtree g x = true → newEraSet x = true) :
    (s.makeCheckpointAt g newEraSet).Inv :=
  hi.finishCheckpoint hg hset (legacyLoop_foldl newEraSet _ s)
    (fun _ hx => ⟨(mem_legacy_iff.1 hx).1, (mem_legacy_iff.1 hx).2.2⟩)
    (fun _ hlt hE hx => mem_legacy_iff.2 ⟨hlt, hE, hx⟩)

end Checkpoint

end ConsensusGraphInner

open ConsensusGraphInner

/-! ## The start -/

section Genesis

variable (genesis : ConsensusGraphNode) (ratio : Nat)

theorem arena_withEraGenesis :
    (withEraGenesis genesis ratio).arena = fun i =>
      if i = 0 then some { genesis with parent := none, eraBlock := some 0, activated := true }
      else none := by
  funext i
  by_cases hi : i = 0 <;> simp [withEraGenesis, hi]

theorem weightTree_parent_withEraGenesis :
    (withEraGenesis genesis ratio).weightTree.parent = fun _ => none := by
  funext i
  by_cases hi : i = 0 <;> simp [withEraGenesis, hi]

theorem adaptiveTree_parent_withEraGenesis :
    (withEraGenesis genesis ratio).adaptiveTree.parent = fun _ => none := by
  funext i
  by_cases hi : i = 0 <;> simp [withEraGenesis, hi]

theorem weightTree_value_withEraGenesis :
    (withEraGenesis genesis ratio).weightTree.value 0 = genesis.difficulty := by
  simp [withEraGenesis, LinkCut.value_pathApply, fuel, pathFrom_succ]

theorem parentOf_withEraGenesis (i : Nat) : (withEraGenesis genesis ratio).parentOf i = none := by
  by_cases hi : i = 0 <;> simp [parentOf, arena_withEraGenesis, hi]

theorem eraPath_withEraGenesis : (withEraGenesis genesis ratio).eraPath 0 = [0] := by
  rw [eraPath, fuel]
  exact pathFrom_of_parent_eq_none (by simp [eraParent, parentOf_withEraGenesis]) _

/-- The genesis is the only block: its `SubTW` is its own block weight. -/
theorem subTW_withEraGenesis :
    (withEraGenesis genesis ratio).subTW 0 = (withEraGenesis genesis ratio).blockWeight 0 := by
  rw [subTW, show (withEraGenesis genesis ratio).arenaLen = 1 from rfl, Finset.sum_range_one,
    eraPath_withEraGenesis]
  simp

/-- A graph built from any era genesis has the frame: the genesis is the only block, a root
    of both trees. -/
theorem shape_withEraGenesis : (withEraGenesis genesis ratio).Shape := by
  have harena := arena_withEraGenesis genesis ratio
  have hparent := parentOf_withEraGenesis genesis ratio
  have hera : ∀ i, (withEraGenesis genesis ratio).inEra i = true → i = 0 := by
    intro i hi
    by_contra hne
    simp [inEra, harena, hne] at hi
  have hlen : (withEraGenesis genesis ratio).arenaLen = 1 := rfl
  have hgen : (withEraGenesis genesis ratio).curEraGenesisBlockArenaIndex = 0 := rfl
  refine ⟨?_, ?_, ?_, ?_, ?_, ?_, ?_, ?_⟩
  · intro i hi
    have hne : i ≠ 0 := by omega
    simp [harena, hne]
  · simp [hgen, inEra, harena]
  · exact hparent _
  · intro x p _ hxp
    rw [hparent] at hxp
    cases hxp
  · intro x hx _
    exact hera x hx
  · intro x _
    rw [weightTree_parent_withEraGenesis, hparent]
  · intro x _
    rw [adaptiveTree_parent_withEraGenesis, hparent]
  · intro x p _ _ hxp
    rw [hparent] at hxp
    cases hxp

/-- A graph built from an era genesis that is not adaptive satisfies the invariant: its weight
    tree value at the genesis is its difficulty, which is its block weight. -/
theorem inv_withEraGenesis (hg : genesis.adaptive = false) :
    (withEraGenesis genesis ratio).Inv := by
  have harena := arena_withEraGenesis genesis ratio
  have hparent := parentOf_withEraGenesis genesis ratio
  have hera : ∀ i, (withEraGenesis genesis ratio).inEra i = true → i = 0 := by
    intro i hi
    by_contra hne
    simp [inEra, harena, hne] at hi
  refine ⟨shape_withEraGenesis genesis ratio, ?_, ?_⟩
  · -- the genesis holds its difficulty, which is also its block weight
    intro x hx
    obtain rfl := hera x hx
    rw [LinkCut.get_eq, weightTree_value_withEraGenesis, subTW_withEraGenesis]
    simp [blockWeight, harena, hg]
  · intro x p _ _ hxp
    rw [hparent] at hxp
    cases hxp

end Genesis

/-! ## Every step, every run -/

/-- Each step keeps the invariant. -/
theorem Step.inv {s s' : ConsensusGraphInner} (hstep : Step s s') (hi : s.Inv) : s'.Inv := by
  cases hstep with
  | onNewBlock hslot _ hparent hp hheight _ => exact hi.onNewBlock hslot hparent hp hheight
  | insertOutEraBlock hslot _ _ => exact hi.insertOutEraBlock hslot
  | activateBlock hnew hparent h => exact hi.activateBlock hnew hparent h
  | makeCheckpointAt hg _ hset => exact hi.makeCheckpointAt hg hset
  | adaptiveWeightImpl returnsEarly outlierBarrier =>
    rw [adaptiveWeightImpl_eq]
    exact hi
  | checkCorrectParent weightTupleGiven outlierBarrier =>
    rw [ConsensusGraphInner.checkCorrectParent, withoutBarrierWeight_eq]
    exact hi
  | chooseCorrectParentImpl parentIsCorrect outlierBarrier =>
    rw [ConsensusGraphInner.chooseCorrectParentImpl, withoutBarrierWeight_eq]
    exact hi

/-- Every state a run reaches from an era genesis that is not adaptive satisfies the
    invariant. -/
theorem inv_of_reachable {genesis : ConsensusGraphNode} {ratio : Nat}
    (hg : genesis.adaptive = false) {s : ConsensusGraphInner} (hs : Reachable genesis ratio s) :
    s.Inv := by
  induction hs with
  | withEraGenesis => exact inv_withEraGenesis genesis ratio hg
  | step _ hstep ih => exact hstep.inv ih

/-- Each step keeps the frame, whatever values the trees hold. -/
theorem Step.shape {s s' : ConsensusGraphInner} (hstep : Step s s') (h : s.Shape) : s'.Shape := by
  cases hstep with
  | onNewBlock hslot _ hparent hp hheight _ => exact h.onNewBlock hslot hparent hp hheight
  | insertOutEraBlock hslot _ _ => exact h.insertOutEraBlock hslot
  | activateBlock _ hparent hact => exact h.activateBlock hparent hact
  | makeCheckpointAt hg _ hset => exact h.makeCheckpointAt hg hset
  | adaptiveWeightImpl returnsEarly outlierBarrier =>
    rw [adaptiveWeightImpl_eq]
    exact h
  | checkCorrectParent weightTupleGiven outlierBarrier =>
    rw [ConsensusGraphInner.checkCorrectParent, withoutBarrierWeight_eq]
    exact h
  | chooseCorrectParentImpl parentIsCorrect outlierBarrier =>
    rw [ConsensusGraphInner.chooseCorrectParentImpl, withoutBarrierWeight_eq]
    exact h

/-- Every state a run reaches, from any era genesis, has the frame. -/
theorem shape_of_reachable {genesis : ConsensusGraphNode} {ratio : Nat}
    {s : ConsensusGraphInner} (hs : Reachable genesis ratio s) : s.Shape := by
  induction hs with
  | withEraGenesis => exact shape_withEraGenesis genesis ratio
  | step _ hstep ih => exact hstep.shape ih

/-! ## The two trees at every block of the era -/

/-- The weight-tree invariant as the documentation of the consensus graph states it, for every
    block in the subtree of the era genesis. -/
def WeightTreesAgree (s : ConsensusGraphInner) : Prop :=
  ∀ x, s.curEraGenesisBlockArenaIndex ∈ s.eraPath x →
    s.weightTree.get x = s.subTW x ∧
    (x ≠ s.curEraGenesisBlockArenaIndex → ∀ p, s.parentOf x = some p →
      s.adaptiveTree.get x = 2 * s.subTW x - s.subTW p + s.blockWeight p)

/-- The weight-tree invariant over every reachable state, for an era genesis that is not
    adaptive: the weight tree holds `SubTW` at every block in the subtree of the era genesis,
    and the adaptive tree holds `2 * SubTW(x) - SubTW(parent(x)) + block_weight(parent(x))` at
    every such block that is activated, the genesis apart. -/
theorem weight_trees_agree_of_activated {genesis : ConsensusGraphNode} {ratio : Nat}
    (hg : genesis.adaptive = false) {s : ConsensusGraphInner} (hs : Reachable genesis ratio s)
    (x : Nat) (hx : s.curEraGenesisBlockArenaIndex ∈ s.eraPath x) :
    s.weightTree.get x = s.subTW x ∧
      (x ≠ s.curEraGenesisBlockArenaIndex → s.activatedOf x = true → ∀ p,
        s.parentOf x = some p →
          s.adaptiveTree.get x = 2 * s.subTW x - s.subTW p + s.blockWeight p) := by
  have hi := inv_of_reachable hg hs
  have hxe : s.inEra x = true :=
    hi.inEra_of_inSubtree hi.genesis_inEra (by simp [inSubtree, hx])
  exact ⟨hi.weight x hxe, fun _ hact p hp => hi.adaptive x p hxe hact hp⟩

/-- At an adaptive era genesis, `SubTW` of the genesis is its `block_weight`:
    `heavy_block_difficulty_ratio * difficulty` if it is heavy and `0` if not. -/
theorem subTW_withEraGenesis_of_adaptive (genesis : ConsensusGraphNode) (ratio : Nat)
    (hadaptive : genesis.adaptive = true) :
    (withEraGenesis genesis ratio).subTW 0 =
      (if genesis.isHeavy then (ratio : Int) * genesis.difficulty else 0) := by
  have hratio : (withEraGenesis genesis ratio).heavyBlockDifficultyRatio = ratio := rfl
  rw [subTW_withEraGenesis]
  simp [blockWeight, arena_withEraGenesis, hadaptive, hratio]

/-- The trees `with_era_genesis` builds agree with the documentation exactly when the raw
    difficulty it puts into the weight tree is `SubTW` of the genesis, the only block of the
    era. -/
theorem weightTreesAgree_withEraGenesis_iff (genesis : ConsensusGraphNode) (ratio : Nat) :
    WeightTreesAgree (withEraGenesis genesis ratio) ↔
      (genesis.difficulty : Int) = (withEraGenesis genesis ratio).subTW 0 := by
  have hget : (withEraGenesis genesis ratio).weightTree.get 0 = genesis.difficulty := by
    rw [LinkCut.get_eq, weightTree_value_withEraGenesis]
  refine ⟨fun h => ?_, fun h x hx => ?_⟩
  · -- the genesis is in its own subtree
    have h0 := (h 0 (by rw [eraPath_withEraGenesis]; exact List.mem_singleton.mpr rfl)).1
    rwa [hget] at h0
  · -- the genesis is the only block of the era: any other slot is its own path
    have hx0 : x = 0 := by
      by_contra hne
      have hout : (withEraGenesis genesis ratio).inEra x = false := by
        simp [inEra, arena_withEraGenesis, hne]
      rw [eraPath_of_not_inEra _ hout] at hx
      exact hne (List.mem_singleton.mp hx).symm
    subst hx0
    exact ⟨hget.trans h, fun hne => absurd rfl hne⟩

end Mazze.Consensus
