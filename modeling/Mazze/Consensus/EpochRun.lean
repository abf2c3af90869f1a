/-
  Every step of the consensus graph keeps `EpochInv`, so every state reached from
  `with_era_genesis` has it, and the epoch sets of a parent chain from the era genesis split
  the past of its last block.

  A new block (`insert`, `insert_out_era_block`) enters at a free slot with its edges into the
  arena, so no edge leads to it and the past of every other block is as it was (`AddsNode`).
  `make_checkpoint_at(g)` keeps the blocks outside the past of `g`. That past is closed under
  edges, and every edge the checkpoint cuts leads into it, so the past of a kept block is its
  old past cut to the new era (`cutToNewEra_past`).
-/
import Mazze.Consensus.EpochInvariant

namespace Mazze.Consensus

open Forest Graph EpochGraph

variable {s t : EpochGraph} {me : Nat} {b : EpochNode}

/-! ## Blocks entering the arena -/

/-- `t` is `s` with the block `b` put at the free slot `me`. -/
structure AddsNode (t s : EpochGraph) (me : Nat) (b : EpochNode) : Prop where
  slot : s.arena me = none
  arena : t.arena = Function.update s.arena me (some b)
  arenaLen : t.arenaLen = max s.arenaLen (me + 1)
  cache : t.pastsetCache = s.pastsetCache
  genesis : t.curEraGenesisBlockArenaIndex = s.curEraGenesisBlockArenaIndex

namespace AddsNode

theorem arena_self (h : AddsNode t s me b) : t.arena me = some b := by simp [h.arena]

theorem arena_of_ne (h : AddsNode t s me b) {x : Nat} (hx : x ≠ me) : t.arena x = s.arena x := by
  simp [h.arena, hx]

theorem ne_of_mem (h : AddsNode t s me b) {y : Nat} (hy : (s.arena y).isSome) : y ≠ me := by
  rintro rfl; simp [h.slot] at hy

theorem parentOf_of_ne (h : AddsNode t s me b) {x : Nat} (hx : x ≠ me) :
    t.parentOf x = s.parentOf x := by simp [parentOf, h.arena_of_ne hx]

theorem heightOf_of_ne (h : AddsNode t s me b) {x : Nat} (hx : x ≠ me) :
    t.heightOf x = s.heightOf x := by simp [heightOf, h.arena_of_ne hx]

theorem inEra_of_ne (h : AddsNode t s me b) {x : Nat} (hx : x ≠ me) :
    t.inEra x = s.inEra x := by simp [inEra, h.arena_of_ne hx]

theorem blocksetOf_of_ne (h : AddsNode t s me b) {x : Nat} (hx : x ≠ me) :
    t.blocksetOf x = s.blocksetOf x := by simp [blocksetOf, h.arena_of_ne hx]

theorem clearedOf_of_ne (h : AddsNode t s me b) {x : Nat} (hx : x ≠ me) :
    t.clearedOf x = s.clearedOf x := by simp [clearedOf, h.arena_of_ne hx]

theorem edge_of_ne (h : AddsNode t s me b) {x : Nat} (hx : x ≠ me) (y : Nat) :
    t.Edge x y ↔ s.Edge x y := by
  simp [EpochGraph.Edge, parentOf, refereesOf, h.arena_of_ne hx]

theorem edge_self (h : AddsNode t s me b) (y : Nat) :
    t.Edge me y ↔ b.parent = some y ∨ y ∈ b.referees := by
  simp [EpochGraph.Edge, parentOf, refereesOf, h.arena_self]

section Shape

variable (h : AddsNode t s me b) (hs : EpochShape s)
include h hs

/-- No edge of the old blocks leads to the new one, so their past is as it was. -/
theorem past_of_ne {x : Nat} (hx : x ≠ me) (y : Nat) : t.Past x y ↔ s.Past x y :=
  transGen_congr_of_closed (P := fun x => x ≠ me)
    (fun _ y hx hxy => h.ne_of_mem (hs.edge_mem _ y ((h.edge_of_ne hx y).1 hxy)))
    (fun _ hx y => h.edge_of_ne hx y) hx

theorem pastOrSelf_of_ne {x : Nat} (hx : x ≠ me) (y : Nat) :
    t.PastOrSelf x y ↔ s.PastOrSelf x y := by
  rw [pastOrSelf_iff_eq_or_past, pastOrSelf_iff_eq_or_past, h.past_of_ne hs hx]

/-- Nothing leads back to the new block. -/
theorem not_past_self (hb : ∀ y, b.parent = some y ∨ y ∈ b.referees → (s.arena y).isSome) :
    ¬ t.Past me me := by
  intro hme
  obtain ⟨z, hz, hzme⟩ := Relation.TransGen.head'_iff.1 hme
  have hzs := hb z ((h.edge_self z).1 hz)
  rcases (pastOrSelf_iff_eq_or_past t z me).1 hzme with rfl | hpast
  · exact h.ne_of_mem hzs rfl
  · exact h.ne_of_mem (hs.past_mem ((h.past_of_ne hs (h.ne_of_mem hzs) me).1 hpast)) rfl

end Shape

end AddsNode

/-- A new block keeps the shape of the arena when its edges lead into the arena, its height
    is above its parent's, and a block of the era has a parent of the era. -/
theorem EpochShape.addNode (hs : EpochShape s) (h : AddsNode t s me b)
    (hb : ∀ y, b.parent = some y ∨ y ∈ b.referees → (s.arena y).isSome)
    (hheight : ∀ p, b.parent = some p → s.heightOf p < b.height)
    (hera : b.eraBlock.isSome = true → ∃ p, b.parent = some p ∧ s.inEra p = true) :
    EpochShape t := by
  have hgen : s.curEraGenesisBlockArenaIndex ≠ me := by
    refine h.ne_of_mem ?_
    have := hs.genesis_inEra
    unfold inEra at this
    cases hg : s.arena s.curEraGenesisBlockArenaIndex <;> simp_all
  have hparent_me : t.parentOf me = b.parent := by simp [parentOf, h.arena_self]
  have hinEra_me : t.inEra me = b.eraBlock.isSome := by simp [inEra, h.arena_self]
  refine ⟨fun i hi => ?_, fun i j hij => ?_, fun i p hp => ?_, fun i => ?_, fun i p hp hi => ?_,
    fun i hi hp => ?_, ?_, ?_, ?_⟩
  · -- bounded
    by_cases him : i = me
    · rw [h.arenaLen]; omega
    · rw [h.arena_of_ne him] at hi
      have := hs.bounded i hi
      rw [h.arenaLen]; omega
  · -- edge_mem
    have hjs : (s.arena j).isSome := by
      by_cases him : i = me
      · subst him; exact hb j ((h.edge_self j).1 hij)
      · exact hs.edge_mem i j ((h.edge_of_ne him j).1 hij)
    rwa [h.arena_of_ne (h.ne_of_mem hjs)]
  · -- height_lt
    by_cases him : i = me
    · subst him
      rw [hparent_me] at hp
      have hps := hb p (Or.inl hp)
      rw [h.heightOf_of_ne (h.ne_of_mem hps)]
      simpa [heightOf, h.arena_self] using hheight p hp
    · rw [h.parentOf_of_ne him] at hp
      rw [h.heightOf_of_ne him, h.heightOf_of_ne (h.ne_of_mem (hs.edge_mem i p (Or.inl hp)))]
      exact hs.height_lt i p hp
  · -- acyclic
    by_cases him : i = me
    · subst him; exact h.not_past_self hs hb
    · rw [h.past_of_ne hs him]; exact hs.acyclic i
  · -- parent_inEra
    by_cases him : i = me
    · subst him
      rw [hparent_me] at hp
      rw [hinEra_me] at hi
      obtain ⟨p', hp', hp'era⟩ := hera hi
      rw [hp, Option.some.injEq] at hp'
      subst hp'
      rwa [h.inEra_of_ne (h.ne_of_mem (hb p (Or.inl hp)))]
    · rw [h.parentOf_of_ne him] at hp
      rw [h.inEra_of_ne him] at hi
      rw [h.inEra_of_ne (h.ne_of_mem (hs.edge_mem i p (Or.inl hp)))]
      exact hs.parent_inEra i p hp hi
  · -- root_genesis
    by_cases him : i = me
    · subst him
      rw [hinEra_me] at hi
      obtain ⟨p', hp', -⟩ := hera hi
      rw [hparent_me, hp'] at hp
      cases hp
    · rw [h.genesis]
      exact hs.root_genesis i (by rwa [h.inEra_of_ne him] at hi) (by rwa [h.parentOf_of_ne him] at hp)
  · rw [h.genesis, h.inEra_of_ne hgen]; exact hs.genesis_inEra
  · rw [h.genesis, h.parentOf_of_ne hgen]; exact hs.genesis_parent
  · rw [h.genesis]
    simpa [refereesOf, h.arena_of_ne hgen] using hs.genesis_referees

/-- A new block with a cleared, empty epoch set keeps the invariant. -/
theorem EpochInv.addNode (hs : EpochInv s) (h : AddsNode t s me b)
    (hb : ∀ y, b.parent = some y ∨ y ∈ b.referees → (s.arena y).isSome)
    (hheight : ∀ p, b.parent = some p → s.heightOf p < b.height)
    (hera : b.eraBlock.isSome = true → ∃ p, b.parent = some p ∧ s.inEra p = true)
    (hcleared : b.blocksetCleared = true) (hblockset : b.blocksetInOwnViewOfEpoch = []) :
    EpochInv t where
  toEpochShape := hs.toEpochShape.addNode h hb hheight hera
  blockset i hi y := by
    have him : i ≠ me := by
      rintro rfl; simp [clearedOf, h.arena_self, hcleared] at hi
    rw [h.clearedOf_of_ne him] at hi
    rw [h.blocksetOf_of_ne him, h.past_of_ne hs.toEpochShape him, h.parentOf_of_ne him,
      hs.blockset i hi y]
    refine and_congr Iff.rfl (forall_congr' fun p => imp_congr_right fun hp => ?_)
    rw [h.pastOrSelf_of_ne hs.toEpochShape (h.ne_of_mem (hs.edge_mem i p (Or.inl hp)))]
  cleared i hi := by
    by_cases him : i = me
    · subst him; simp [blocksetOf, h.arena_self, hblockset]
    · rw [h.clearedOf_of_ne him] at hi
      rw [h.blocksetOf_of_ne him]
      exact hs.cleared i hi
  cache := by
    intro e he
    rw [h.cache] at he
    obtain ⟨hk, hf⟩ := hs.cache e he
    refine ⟨by rwa [h.arena_of_ne (h.ne_of_mem hk)], fun y => ?_⟩
    rw [h.pastOrSelf_of_ne hs.toEpochShape (h.ne_of_mem hk)]
    exact hf y

theorem addsNode_addToArena (node : EpochNode) (hslot : s.arena me = none) :
    AddsNode (s.addToArena me node) s me
      { node with activated := false, pending := false, blocksetInOwnViewOfEpoch := [],
                  blocksetCleared := true } :=
  ⟨hslot, rfl, rfl, rfl, rfl⟩

theorem addsNode_insertOutEraBlock {node : EpochNode} (hslot : s.arena me = none) :
    AddsNode (s.insertOutEraBlock me node) s me
      { node with eraBlock := none, activated := false, pending := true,
                  blocksetInOwnViewOfEpoch := [], blocksetCleared := true } :=
  ⟨hslot, rfl, rfl, rfl, rfl⟩

/-! ## Writes of one node -/

section Flags

variable (s : EpochGraph) (me j : Nat)

theorem sameShape_activate : SameShape (s.activate me) s :=
  sameShape_setNode s me fun _ => ⟨rfl, rfl, rfl, rfl⟩

theorem blocksetOf_activate : (s.activate me).blocksetOf j = s.blocksetOf j := by
  by_cases hj : j = me
  · subst hj; cases h : s.arena j <;> simp [activate, setNode, blocksetOf, h]
  · simp [activate, setNode, blocksetOf, hj]

theorem clearedOf_activate : (s.activate me).clearedOf j = s.clearedOf j := by
  by_cases hj : j = me
  · subst hj; cases h : s.arena j <;> simp [activate, setNode, clearedOf, h]
  · simp [activate, setNode, clearedOf, hj]

/-- Clearing the epoch set of `me` leaves it empty and cleared, whether or not `me` is a block. -/
theorem clearBlockset_self :
    ((s.setBlockset me []).setCleared me true).blocksetOf me = [] ∧
      ((s.setBlockset me []).setCleared me true).clearedOf me = true := by
  have harena : ((s.setBlockset me []).arena me).isSome = (s.arena me).isSome :=
    (sameShape_setNode s me (keepsShape_blockset [])).isSome me
  rw [blocksetOf_setCleared, blocksetOf_setBlockset, clearedOf_setCleared, clearedOf_setBlockset,
    harena]
  cases h : s.arena me
  · -- not a block: its fields read as their defaults
    simp [blocksetOf, clearedOf, h]
  · simp

theorem clearBlockset_of_ne {j : Nat} (hj : j ≠ me) :
    ((s.setBlockset me []).setCleared me true).blocksetOf j = s.blocksetOf j ∧
      ((s.setBlockset me []).setCleared me true).clearedOf j = s.clearedOf j := by
  simp [blocksetOf_setCleared, blocksetOf_setBlockset, clearedOf_setCleared,
    clearedOf_setBlockset, hj]

end Flags

/-- Putting back the epoch set that was taken out leaves every epoch set as it was. -/
theorem blocksetOf_putBack (s : EpochGraph) (me j : Nat) :
    ((s.setBlockset me []).setBlockset me (s.blocksetOf me)).blocksetOf j = s.blocksetOf j := by
  have harena : ((s.setBlockset me []).arena me).isSome = (s.arena me).isSome :=
    (sameShape_setNode s me (keepsShape_blockset [])).isSome me
  rw [blocksetOf_setBlockset, blocksetOf_setBlockset, harena]
  by_cases hj : j = me
  · subst hj
    cases h : s.arena j
    · simp
    · simp
  · simp [hj]

theorem EpochInv.activate (h : EpochInv s) (me : Nat) : EpochInv (s.activate me) :=
  h.of_sameShape (sameShape_activate s me)
    (fun i hi y => by
      rw [clearedOf_activate] at hi
      rw [blocksetOf_activate]
      exact h.blockset i hi y)
    (fun i hi => by
      rw [clearedOf_activate] at hi
      rw [blocksetOf_activate]
      exact h.cleared i hi)
    h.cache

theorem EpochInv.tryClear (h : EpochInv s) (me : Nat) :
    EpochInv (s.tryClearBlocksetInOwnViewOfEpoch me) := by
  unfold tryClearBlocksetInOwnViewOfEpoch
  split
  · -- a set above the cap is dropped and marked cleared
    refine h.of_sameShape ((sameShape_setNode _ me (keepsShape_cleared true)).trans
      (sameShape_setNode s me (keepsShape_blockset []))) (fun i hi y => ?_) (fun i hi => ?_)
      h.cache
    · have him : i ≠ me := by
        rintro rfl; simp [(clearBlockset_self s i).2] at hi
      rw [(clearBlockset_of_ne s me him).2] at hi
      rw [(clearBlockset_of_ne s me him).1]
      exact h.blockset i hi y
    · by_cases him : i = me
      · subst him; exact (clearBlockset_self s i).1
      · rw [(clearBlockset_of_ne s me him).2] at hi
        rw [(clearBlockset_of_ne s me him).1]
        exact h.cleared i hi
  · exact h

/-- Taking an epoch set out (computing it first if it was cleared) and putting it back keeps
    the invariant. -/
theorem EpochInv.exchange (h : EpochInv s) {index last : Nat} {blockset rest : List Nat}
    {u : EpochGraph} (hindex : s.inEra index = true)
    (htake : s.exchangeOrComputeBlocksetInOwnViewOfEpoch index last none = some (t, blockset))
    (hput : t.exchangeOrComputeBlocksetInOwnViewOfEpoch index last (some blockset) =
      some (u, rest)) : EpochInv u := by
  simp only [exchangeOrComputeBlocksetInOwnViewOfEpoch, Option.some.injEq, Prod.mk.injEq]
    at htake hput
  obtain ⟨rfl, -⟩ := hput
  -- the set is taken from a state with the invariant: the computed one, or `s` itself
  obtain ⟨t0, h0, rfl, rfl⟩ : ∃ t0, EpochInv t0 ∧ t = t0.setBlockset index [] ∧
      blockset = t0.blocksetOf index := by
    split at htake
    · simp only [Option.bind_eq_bind, Option.bind_eq_some_iff, Option.pure_def, Option.some.injEq,
        Prod.mk.injEq] at htake
      obtain ⟨t0, ht0, rfl, rfl⟩ := htake
      exact ⟨t0, (h.computeBlocksetInOwnViewOfEpoch_spec hindex ht0).1, rfl, rfl⟩
    · simp only [Option.bind_eq_bind, Option.bind_some, Option.pure_def, Option.some.injEq,
        Prod.mk.injEq] at htake
      obtain ⟨rfl, rfl⟩ := htake
      exact ⟨s, h, rfl, rfl⟩
  have hcl : ∀ j, ((t0.setBlockset index []).setBlockset index (t0.blocksetOf index)).clearedOf j =
      t0.clearedOf j := by
    intro j; rw [clearedOf_setBlockset, clearedOf_setBlockset]
  refine h0.of_sameShape ((sameShape_setNode _ index (keepsShape_blockset _)).trans
    (sameShape_setNode t0 index (keepsShape_blockset []))) (fun i hi y => ?_) (fun i hi => ?_)
    h0.cache
  · rw [hcl] at hi
    rw [blocksetOf_putBack]
    exact h0.blockset i hi y
  · rw [hcl] at hi
    rw [blocksetOf_putBack]
    exact h0.cleared i hi

/-! ## Checkpoints -/

/-- The search of `compute_old_era_and_new_era_block_set` marks the past of `g`. -/
theorem EpochShape.oldEraBlockSet_spec (hs : EpochShape s) (g : Nat) :
    ∃ old, s.oldEraBlockSet g = some old ∧ ∀ y, old y = true ↔ s.Past g y := by
  obtain ⟨⟨seen, out⟩, hb⟩ := hs.bfs_some (fun _ => true) (fun _ => false) [g] []
    (by simp)
  refine ⟨seen, by simp [oldEraBlockSet, hb], fun y => ?_⟩
  rw [bfs_seen_iff s.succ _ hb (fun x hx => by simp at hx) y]
  simp [transGen_graphEdge_true]

theorem inSubtree_iff (hs : EpochShape s) (g x : Nat) :
    s.inSubtree g x = true ↔ IsAncestor s.parentOf g x := by
  simp only [inSubtree, decide_eq_true_eq]
  exact mem_pathFrom_iff hs.height_lt (Nat.lt_succ_self _) g

theorem arena_of_edge {x y : Nat} (hxy : s.Edge x y) : (s.arena x).isSome := by
  rcases hxy with hxy | hxy <;> cases hx : s.arena x <;> simp_all [parentOf, refereesOf]

section Checkpoint

variable {old : Nat → Bool} {g : Nat}

theorem cutToNewEra_arena_of_not {x : Nat} (hx : s.newEra old x = false) :
    (s.cutToNewEra old g).arena x = none := by
  simp [cutToNewEra, hx]

theorem cutToNewEra_arena_of_newEra {x : Nat} (hx : s.newEra old x = true) {b : EpochNode}
    (hb : s.arena x = some b) :
    (s.cutToNewEra old g).arena x = some (s.retainNode (s.newEra old) g x b) := by
  simp [cutToNewEra, hx, hb]

theorem newEra_of_isSome {x : Nat} (hx : ((s.cutToNewEra old g).arena x).isSome) :
    s.newEra old x = true := by
  by_contra hx'
  rw [cutToNewEra_arena_of_not (by simpa using hx')] at hx
  cases hx

theorem arena_eq_some_of_newEra {x : Nat} (hx : s.newEra old x = true) :
    ∃ b, s.arena x = some b := by
  simp only [newEra, Bool.and_eq_true] at hx
  exact Option.isSome_iff_exists.1 hx.1

theorem isSome_cutToNewEra {x : Nat} (hx : s.newEra old x = true) :
    ((s.cutToNewEra old g).arena x).isSome := by
  obtain ⟨b, hb⟩ := arena_eq_some_of_newEra hx
  simp [cutToNewEra_arena_of_newEra hx hb]

theorem newEra_of_cutToNewEra_edge {x y : Nat} (hxy : (s.cutToNewEra old g).Edge x y) :
    s.newEra old x = true :=
  newEra_of_isSome (arena_of_edge hxy)

theorem newEra_of_cutToNewEra_past {x y : Nat} (hxy : (s.cutToNewEra old g).Past x y) :
    s.newEra old x = true := by
  obtain ⟨z, hxz, -⟩ := Relation.TransGen.head'_iff.1 hxy
  exact newEra_of_cutToNewEra_edge hxz

/-- The fields a kept block keeps. -/
theorem cutToNewEra_fields {x : Nat} (hx : s.newEra old x = true) :
    (s.cutToNewEra old g).heightOf x = s.heightOf x ∧
      (s.cutToNewEra old g).refereesOf x = (s.refereesOf x).filter (s.newEra old) ∧
      (s.cutToNewEra old g).blocksetOf x = (s.blocksetOf x).filter (s.newEra old) ∧
      (s.cutToNewEra old g).clearedOf x = s.clearedOf x ∧
      (s.cutToNewEra old g).inEra x = (s.inSubtree g x && s.inEra x) := by
  obtain ⟨b, hb⟩ := arena_eq_some_of_newEra hx
  rw [heightOf, refereesOf, blocksetOf, clearedOf, inEra, cutToNewEra_arena_of_newEra hx hb]
  cases hsub : s.inSubtree g x <;> simp [retainNode, heightOf, refereesOf, blocksetOf,
    clearedOf, inEra, hb, hsub]

variable (hold : ∀ y, old y = true ↔ s.Past g y)
include hold

theorem newEra_iff (x : Nat) : s.newEra old x = true ↔ (s.arena x).isSome ∧ ¬ s.Past g x := by
  unfold newEra
  rw [← hold]
  cases old x <;> simp

theorem not_newEra_of_past {x : Nat} (hx : s.Past g x) : s.newEra old x = false := by
  have : ¬ s.newEra old x = true := fun h => ((newEra_iff hold x).1 h).2 hx
  simpa using this

variable (hs : EpochShape s)
include hs

/-- Below `g` the parent of a block other than `g` is kept: `g` is not in its past. -/
theorem newEra_parent_of_subtree {x p : Nat} (hsub : IsAncestor s.parentOf g x) (hxg : x ≠ g)
    (hp : s.parentOf x = some p) : s.newEra old p = true := by
  rw [newEra_iff hold]
  refine ⟨hs.edge_mem x p (Or.inl hp), fun hgp => ?_⟩
  have hpg := pastOrSelf_of_isAncestor (hsub.parent_of_ne hxg hp)
  exact hs.acyclic g (Relation.TransGen.trans_left hgp hpg)

/-- A kept block keeps its parent exactly when the parent is kept: a legacy block drops a
    parent of the old era, `g` drops its parent, and the other blocks below `g` have kept
    parents. -/
theorem cutToNewEra_parentOf {x : Nat} (hx : s.newEra old x = true) (q : Nat) :
    (s.cutToNewEra old g).parentOf x = some q ↔
      s.parentOf x = some q ∧ s.newEra old q = true := by
  obtain ⟨b, hb⟩ := arena_eq_some_of_newEra hx
  have hpx : s.parentOf x = b.parent := by simp [parentOf, hb]
  rw [parentOf, cutToNewEra_arena_of_newEra hx hb, hpx]
  cases hsub : s.inSubtree g x
  · simp [retainNode, hsub, Option.filter_eq_some_iff]
  · by_cases hxg : x = g
    · -- the parent of `g` is in its past
      subst hxg
      have : ¬ (b.parent = some q ∧ s.newEra old q = true) := by
        rintro ⟨hq, hNq⟩
        rw [not_newEra_of_past hold (Relation.TransGen.single (Or.inl (hpx.trans hq)))] at hNq
        cases hNq
      simpa [retainNode, hsub] using this
    · have : b.parent = some q → s.newEra old q = true := fun hq =>
        newEra_parent_of_subtree hold hs ((inSubtree_iff hs g x).1 hsub) hxg (hpx.trans hq)
      simpa [retainNode, hsub, hxg] using this

theorem cutToNewEra_edge {x : Nat} (hx : s.newEra old x = true) (y : Nat) :
    (s.cutToNewEra old g).Edge x y ↔ s.Edge x y ∧ s.newEra old y = true := by
  unfold EpochGraph.Edge
  rw [cutToNewEra_parentOf hold hs hx, (cutToNewEra_fields hx).2.1, List.mem_filter]
  tauto

/-- The past of a kept block is its old past cut to the new era: the old era is closed under
    edges. -/
theorem cutToNewEra_past {x : Nat} (hx : s.newEra old x = true) (y : Nat) :
    (s.cutToNewEra old g).Past x y ↔ s.Past x y ∧ s.newEra old y = true := by
  refine transGen_restrict_iff (N := fun x => s.newEra old x = true) (fun a c ha hac => ?_)
    (fun a ha c => cutToNewEra_edge hold hs ha c) hx
  have hga : s.Past g a := by
    by_contra hga
    exact ha ((newEra_iff hold a).2 ⟨arena_of_edge hac, hga⟩)
  rw [not_newEra_of_past hold (Relation.TransGen.tail hga hac)]
  simp

theorem cutToNewEra_pastOrSelf {x : Nat} (hx : s.newEra old x = true) (y : Nat) :
    (s.cutToNewEra old g).PastOrSelf x y ↔ s.PastOrSelf x y ∧ s.newEra old y = true := by
  rw [pastOrSelf_iff_eq_or_past, pastOrSelf_iff_eq_or_past, cutToNewEra_past hold hs hx]
  constructor
  · rintro (rfl | ⟨hxy, hy⟩)
    · exact ⟨Or.inl rfl, hx⟩
    · exact ⟨Or.inr hxy, hy⟩
  · rintro ⟨rfl | hxy, hy⟩
    · exact Or.inl rfl
    · exact Or.inr ⟨hxy, hy⟩

end Checkpoint

/-- The checkpoint at a block `g` of the era keeps the shape of the arena, with `g` the era
    genesis. -/
theorem EpochShape.cutToNewEra (hs : EpochShape s) {old : Nat → Bool} {g : Nat}
    (hold : ∀ y, old y = true ↔ s.Past g y) (hg : s.inEra g = true) :
    EpochShape (s.cutToNewEra old g) := by
  have hgN : s.newEra old g = true := (newEra_iff hold g).2 ⟨isSome_of_inEra hg, hs.acyclic g⟩
  have hinEra : ∀ x, (s.cutToNewEra old g).inEra x = true →
      s.newEra old x = true ∧ IsAncestor s.parentOf g x ∧ s.inEra x = true := by
    intro x hx
    have hN : s.newEra old x = true := by
      by_contra hN
      simp [inEra, cutToNewEra_arena_of_not (g := g) (by simpa using hN)] at hx
    rw [(cutToNewEra_fields hN).2.2.2.2, Bool.and_eq_true, inSubtree_iff hs] at hx
    exact ⟨hN, hx⟩
  have hgp : (s.cutToNewEra old g).parentOf g = none := by
    cases hq : (s.cutToNewEra old g).parentOf g with
    | none => rfl
    | some q =>
      obtain ⟨hq', hNq⟩ := (cutToNewEra_parentOf hold hs hgN q).1 hq
      rw [not_newEra_of_past hold (Relation.TransGen.single (Or.inl hq'))] at hNq
      cases hNq
  refine ⟨fun i hi => ?_, fun i j hij => ?_, fun i p hp => ?_, fun i hi => ?_,
    fun i p hp hi => ?_, fun i hi hp => ?_, ?_, hgp, ?_⟩
  · -- bounded
    have hN := newEra_of_isSome hi
    exact hs.bounded i ((newEra_iff hold i).1 hN).1
  · -- edge_mem
    have hN := newEra_of_cutToNewEra_edge hij
    have hNj := ((cutToNewEra_edge hold hs hN j).1 hij).2
    exact isSome_cutToNewEra hNj
  · -- height_lt
    have hN := newEra_of_cutToNewEra_edge (Or.inl hp : (s.cutToNewEra old g).Edge i p)
    obtain ⟨hp', hNp⟩ := (cutToNewEra_parentOf hold hs hN p).1 hp
    rw [(cutToNewEra_fields hN).1, (cutToNewEra_fields hNp).1]
    exact hs.height_lt i p hp'
  · -- acyclic
    have hN := newEra_of_cutToNewEra_past hi
    exact hs.acyclic i ((cutToNewEra_past hold hs hN i).1 hi).1
  · -- parent_inEra: the parent of a block of the era below `g` is below `g`
    obtain ⟨hN, hsub, hera⟩ := hinEra i hi
    obtain ⟨hp', hNp⟩ := (cutToNewEra_parentOf hold hs hN p).1 hp
    have hig : i ≠ g := by rintro rfl; rw [hgp] at hp; cases hp
    rw [(cutToNewEra_fields hNp).2.2.2.2, Bool.and_eq_true, inSubtree_iff hs]
    exact ⟨hsub.parent_of_ne hig hp', hs.parent_inEra i p hp' hera⟩
  · -- root_genesis: a block strictly below `g` keeps its parent
    obtain ⟨hN, hsub, -⟩ := hinEra i hi
    show i = g
    by_contra hig
    rcases isAncestor_iff.1 hsub with rfl | ⟨q, hq, -⟩
    · exact hig rfl
    · have hNq := newEra_parent_of_subtree hold hs hsub hig hq
      rw [(cutToNewEra_parentOf hold hs hN q).2 ⟨hq, hNq⟩] at hp
      cases hp
  · show (s.cutToNewEra old g).inEra g = true
    rw [(cutToNewEra_fields hgN).2.2.2.2, Bool.and_eq_true, inSubtree_iff hs]
    exact ⟨IsAncestor.refl g, hg⟩
  · -- the referees of `g` are in its past
    show (s.cutToNewEra old g).refereesOf g = []
    rw [(cutToNewEra_fields hgN).2.1, List.filter_eq_nil_iff]
    intro r hr
    rw [not_newEra_of_past hold (Relation.TransGen.single (Or.inr hr))]
    simp

/-- The checkpoint keeps the invariant: a kept epoch set cut to the new era is the new past
    outside the new past set of the parent, and a kept cached set cut to the new era is the new
    past set. -/
theorem EpochInv.cutToNewEra (h : EpochInv s) {old : Nat → Bool} {g : Nat}
    (hold : ∀ y, old y = true ↔ s.Past g y) (hg : s.inEra g = true) :
    EpochInv (s.cutToNewEra old g) where
  toEpochShape := h.toEpochShape.cutToNewEra hold hg
  blockset i hi y := by
    have hN : s.newEra old i = true := by
      by_contra hN
      simp [clearedOf, cutToNewEra_arena_of_not (g := g) (by simpa using hN)] at hi
    rw [(cutToNewEra_fields hN).2.2.2.1] at hi
    rw [(cutToNewEra_fields hN).2.2.1, List.mem_filter, h.blockset i hi y,
      cutToNewEra_past hold h.toEpochShape hN]
    constructor
    · rintro ⟨⟨hpast, hnot⟩, hNy⟩
      refine ⟨⟨hpast, hNy⟩, fun p hp hpy => ?_⟩
      obtain ⟨hp', hNp⟩ := (cutToNewEra_parentOf hold h.toEpochShape hN p).1 hp
      exact hnot p hp' ((cutToNewEra_pastOrSelf hold h.toEpochShape hNp y).1 hpy).1
    · rintro ⟨⟨hpast, hNy⟩, hnot⟩
      refine ⟨⟨hpast, fun p hp hpy => ?_⟩, hNy⟩
      by_cases hNp : s.newEra old p = true
      · exact hnot p ((cutToNewEra_parentOf hold h.toEpochShape hN p).2 ⟨hp, hNp⟩)
          ((cutToNewEra_pastOrSelf hold h.toEpochShape hNp y).2 ⟨hpy, hNy⟩)
      · -- a parent of the old era has only old blocks in its past set
        have hgp : s.Past g p := by
          by_contra hgp
          exact hNp ((newEra_iff hold p).2 ⟨h.edge_mem i p (Or.inl hp), hgp⟩)
        rw [not_newEra_of_past hold (Relation.TransGen.trans_left hgp hpy)] at hNy
        cases hNy
  cleared i hi := by
    by_cases hN : s.newEra old i = true
    · rw [(cutToNewEra_fields hN).2.2.2.1] at hi
      rw [(cutToNewEra_fields hN).2.2.1, h.cleared i hi, List.filter_nil]
    · simp [blocksetOf, cutToNewEra_arena_of_not (g := g) (by simpa using hN)]
  cache := by
    refine h.cache.intersectUpdate fun k pastset hkf hok => ?_
    obtain ⟨hk, hf⟩ := hkf
    have hN : s.newEra old k = true := by simp [newEra, hk, hok]
    refine ⟨isSome_cutToNewEra hN, fun y => ?_⟩
    rw [cutToNewEra_pastOrSelf hold h.toEpochShape hN, Bool.and_eq_true, hf]
    constructor
    · rintro ⟨hky, hoy⟩
      have hy : (s.arena y).isSome := by
        rcases (pastOrSelf_iff_eq_or_past s k y).1 hky with rfl | hky
        · exact hk
        · exact h.past_mem hky
      exact ⟨hky, by simp [newEra, hy, by simpa using hoy]⟩
    · rintro ⟨hky, hNy⟩
      simp only [newEra, Bool.and_eq_true] at hNy
      exact ⟨hky, hNy.2⟩

theorem EpochInv.makeCheckpointAt (h : EpochInv s) {g : Nat} (hg : s.inEra g = true)
    (ht : s.makeCheckpointAt g = some t) : EpochInv t := by
  obtain ⟨old, hb, hold⟩ := h.oldEraBlockSet_spec g
  simp only [EpochGraph.makeCheckpointAt, hb, Option.bind_eq_bind, Option.bind_some,
    Option.bind_eq_some_iff, Option.pure_def, Option.some.injEq] at ht
  obtain ⟨_, -, rfl⟩ := ht
  exact h.cutToNewEra hold hg

/-! ## Runs -/

/-- The genesis alone has no edge. -/
theorem epochGenesis_not_edge (height x y : Nat) : ¬ (epochGenesis height).Edge x y := by
  by_cases hx : x = 0 <;> simp [EpochGraph.Edge, parentOf, refereesOf, epochGenesis, hx]

theorem epochGenesis_not_past (height x y : Nat) : ¬ (epochGenesis height).Past x y := by
  intro hxy
  obtain ⟨z, hxz, -⟩ := Relation.TransGen.head'_iff.1 hxy
  exact epochGenesis_not_edge height x z hxz

theorem epochInv_genesis (height : Nat) : EpochInv (epochGenesis height) := by
  have hb : ∀ i, (epochGenesis height).blocksetOf i = [] := by
    intro i; by_cases hi : i = 0 <;> simp [blocksetOf, epochGenesis, hi]
  refine ⟨⟨fun i hi => ?_, fun i j hij => ?_, fun i p hp => ?_, fun i => ?_, fun i p hp _ => ?_,
    fun i hi _ => ?_, ?_, ?_, ?_⟩, fun i _ y => ?_, fun i _ => hb i, fun e he => ?_⟩
  · by_cases h0 : i = 0 <;> simp_all [epochGenesis]
  · exact absurd hij (epochGenesis_not_edge height i j)
  · exact absurd (Or.inl hp) (epochGenesis_not_edge height i p)
  · exact epochGenesis_not_past height i i
  · exact absurd (Or.inl hp) (epochGenesis_not_edge height i p)
  · by_cases h0 : i = 0 <;> simp_all [inEra, epochGenesis]
  · simp [inEra, epochGenesis]
  · simp [parentOf, epochGenesis]
  · simp [refereesOf, epochGenesis]
  · simp [hb, epochGenesis_not_past]
  · simp [epochGenesis] at he

/-- Every step keeps the invariant. -/
theorem EpochStep.inv (hstep : EpochStep s t) (h : EpochInv s) : EpochInv t := by
  cases hstep with
  | @insert _ me last p node hslot hparent hp hheight hrefs hera _ hins =>
    -- the block enters with a cleared epoch set, which is then computed
    have hadd := addsNode_addToArena node hslot
    have hinv := h.addNode hadd
      (fun y hy => by
        rcases hy with hy | hy
        · rw [hparent, Option.some.injEq] at hy
          exact hy ▸ isSome_of_inEra hp
        · exact hrefs y hy)
      (fun q hq => by
        rw [hparent, Option.some.injEq] at hq
        subst hq
        show s.heightOf p < node.height
        omega)
      (fun _ => ⟨p, hparent, hp⟩) rfl rfl
    have hmain : (s.addToArena me node).inEra me = true := by
      simp [inEra, hadd.arena_self, hera]
    exact (hinv.computeBlocksetInOwnViewOfEpoch_spec hmain hins).1
  | @insertOutEraBlock me node hslot hparent hrefs =>
    refine h.addNode (addsNode_insertOutEraBlock hslot) (fun y hy => ?_) (fun q hq => ?_)
      (fun hera => by simp at hera) rfl rfl
    · rcases hy with hy | hy
      · exact (hparent y hy).1
      · exact hrefs y hy
    · have := (hparent q hq).2.2
      show s.heightOf q < node.height
      omega
  | computeBlockset hmain _ hcomp => exact (h.computeBlocksetInOwnViewOfEpoch_spec hmain hcomp).1
  | exchange hindex _ htake hput => exact h.exchange hindex htake hput
  | tryClear me => exact h.tryClear me
  | activate me => exact h.activate me
  | makeCheckpointAt hg hcut => exact h.makeCheckpointAt hg hcut

/-- Every state reached from `with_era_genesis` has the invariant. -/
theorem epochInv_of_reachable {height : Nat} (hr : EpochReachable height s) : EpochInv s := by
  induction hr with
  | genesis => exact epochInv_genesis height
  | step _ hstep ih => exact hstep.inv ih

/-! ## Epoch sets along a parent chain -/

section Chain

variable (h : EpochInv s) (p : Nat → Nat) (hp0 : p 0 = s.curEraGenesisBlockArenaIndex)
include h hp0

/-- Along a parent chain from the era genesis whose epoch sets are computed, the blocks up to
    `p k` and their epoch sets make up the past set of `p k`. The induction is on `k`; the
    era genesis has an empty past. -/
theorem EpochInv.chain_union (k : Nat)
    (hchain : ∀ i < k, s.parentOf (p (i + 1)) = some (p i) ∧ s.clearedOf (p (i + 1)) = false)
    (y : Nat) : (∃ i ≤ k, y = p i ∨ y ∈ s.blocksetOf (p i)) ↔ s.PastOrSelf (p k) y := by
  induction k generalizing y with
  | zero =>
    have hnp := h.not_past_of_root (hp0 ▸ h.genesis_inEra) (hp0 ▸ h.genesis_parent) y
    have hnb : y ∉ s.blocksetOf (p 0) := by
      cases hc : s.clearedOf (p 0)
      · exact fun hy => hnp ((h.blockset _ hc y).1 hy).1
      · simp [h.cleared _ hc]
    simp [pastOrSelf_iff_eq_or_past, hnp, hnb]
  | succ k ih =>
    obtain ⟨hpar, hc⟩ := hchain k (Nat.lt_succ_self k)
    -- the past set of `p (k + 1)` is itself, its epoch set and the past set of `p k`
    have hr : ∀ y, s.PastOrSelf (p k) y ↔
        ∃ q, s.parentOf (p (k + 1)) = some q ∧ s.PastOrSelf q y := by
      simp [hpar]
    rw [← h.pastOrSelf_iff_blockset hc hr y, ← ih (fun i hi => hchain i (by omega)) y]
    constructor
    · rintro ⟨i, hi, hy⟩
      rcases Nat.lt_or_eq_of_le hi with hi | rfl
      · exact Or.inr (Or.inl ⟨i, by omega, hy⟩)
      · rcases hy with hy | hy
        · exact Or.inl hy
        · exact Or.inr (Or.inr hy)
    · rintro (hy | ⟨i, hi, hy⟩ | hy)
      · exact ⟨k + 1, le_rfl, Or.inl hy⟩
      · exact ⟨i, by omega, hy⟩
      · exact ⟨k + 1, le_rfl, Or.inr hy⟩

/-- What `p j` adds is outside the past set of its parent, which holds what every block before
    it adds. -/
theorem EpochInv.chain_disjoint (k : Nat)
    (hchain : ∀ i < k, s.parentOf (p (i + 1)) = some (p i) ∧ s.clearedOf (p (i + 1)) = false)
    {i j y : Nat} (hij : i < j) (hjk : j ≤ k) (hi : y = p i ∨ y ∈ s.blocksetOf (p i)) :
    ¬ (y = p j ∨ y ∈ s.blocksetOf (p j)) := by
  obtain ⟨j', rfl⟩ : ∃ j', j = j' + 1 := ⟨j - 1, by omega⟩
  obtain ⟨hpar, hc⟩ := hchain j' (by omega)
  have hy : s.PastOrSelf (p j') y :=
    (h.chain_union p hp0 j' (fun i' hi' => hchain i' (by omega)) y).1 ⟨i, by omega, hi⟩
  rintro (rfl | hy')
  · exact h.not_pastOrSelf_parent hpar hy
  · exact ((h.blockset _ hc y).1 hy').2 _ hpar hy

end Chain

/-- In every reachable state: a computed epoch set is the past of its block minus the past set
    of its parent; `compute_pastset_brutal(x)` is the past set of `x`; and along a parent chain
    `p 0, ..., p k` from the era genesis (the main chain) with computed epoch sets, the sets
    `{p i} ∪ blockset(p i)` are pairwise disjoint and make up the past set of `p k`. -/
theorem epoch_sets_partition_past {height : Nat} (hr : EpochReachable height s) :
    (∀ x p, s.parentOf x = some p → s.clearedOf x = false →
      ∀ y, y ∈ s.blocksetOf x ↔ s.Past x y ∧ ¬ s.PastOrSelf p y) ∧
    (∀ x, (s.arena x).isSome →
      ∃ f, s.computePastsetBrutal x = some f ∧ ∀ y, f y = true ↔ s.PastOrSelf x y) ∧
    ∀ (p : Nat → Nat) (k : Nat), p 0 = s.curEraGenesisBlockArenaIndex →
      (∀ i < k, s.parentOf (p (i + 1)) = some (p i) ∧ s.clearedOf (p (i + 1)) = false) →
      (∀ y, (∃ i ≤ k, y = p i ∨ y ∈ s.blocksetOf (p i)) ↔ s.PastOrSelf (p k) y) ∧
      ∀ i j y, i ≤ k → j ≤ k → i ≠ j → (y = p i ∨ y ∈ s.blocksetOf (p i)) →
        ¬ (y = p j ∨ y ∈ s.blocksetOf (p j)) := by
  have h := epochInv_of_reachable hr
  refine ⟨fun x p hp hc y => ?_, fun x hx => h.computePastsetBrutal_spec hx,
    fun p k hp0 hchain => ⟨h.chain_union p hp0 k hchain, fun i j y hi hj hij hy => ?_⟩⟩
  · rw [h.blockset x hc y]
    simp [hp]
  · rcases Nat.lt_or_gt_of_ne hij with hlt | hlt
    · exact h.chain_disjoint p hp0 k hchain hlt hj hy
    · exact fun hy' => h.chain_disjoint p hp0 k hchain hlt hi hy' hy

/-- A block of the era at `height` over `parent`, with its referees; `insert` resets its other
    fields. -/
def eraNode (height parent : Nat) (referees : List Nat) : EpochNode :=
  ⟨height, some parent, referees, some 0, false, false, false, [], true⟩

/-- The genesis and its main-chain child `1`. -/
def childGraph : EpochGraph := ((epochGenesis 0).insert 1 (eraNode 1 0 []) 0).getD (epochGenesis 0)

/-- `childGraph` and a sibling `2` of `1`, inserted with `1` as the tip of the main chain. -/
def siblingGraph : EpochGraph := (childGraph.insert 2 (eraNode 1 0 []) 1).getD childGraph

/-- `siblingGraph` and `3` over `1`, referring to `2`. -/
def refereeGraph : EpochGraph := (siblingGraph.insert 3 (eraNode 2 1 [2]) 1).getD siblingGraph

theorem reachable_refereeGraph : EpochReachable 0 refereeGraph := by
  -- each `insert` is evaluated, and its side conditions decided, at the state it is made in
  have h₁ : EpochReachable 0 childGraph := .step .genesis (.insert (by decide) rfl (by decide)
    (by decide) (by decide) (by decide) (by decide)
    (show (epochGenesis 0).insert 1 (eraNode 1 0 []) 0 = some childGraph from rfl))
  have h₂ : EpochReachable 0 siblingGraph := .step h₁ (.insert (by decide) rfl (by decide)
    (by decide) (by decide) (by decide) (by decide)
    (show childGraph.insert 2 (eraNode 1 0 []) 1 = some siblingGraph from rfl))
  exact .step h₂ (.insert (by decide) rfl (by decide) (by decide) (by decide) (by decide)
    (by decide) (show siblingGraph.insert 3 (eraNode 2 1 [2]) 1 = some refereeGraph from rfl))

/-- At `refereeGraph`: the epoch set of `3` is the sibling `2` it refers to, and along the main
    chain `0, 1, 3` the epoch sets split the past of `3`. -/
theorem epoch_sets_partition_past_at_refereeGraph :
    EpochReachable 0 refereeGraph ∧ refereeGraph.blocksetOf 3 = [2] ∧
    (∀ y, y ∈ refereeGraph.blocksetOf 3 ↔
      refereeGraph.Past 3 y ∧ ¬ refereeGraph.PastOrSelf 1 y) ∧
    (∀ y, (∃ i ≤ 2, y = [0, 1, 3].getD i 0 ∨ y ∈ refereeGraph.blocksetOf ([0, 1, 3].getD i 0)) ↔
      refereeGraph.PastOrSelf 3 y) ∧
    ∀ i j y, i ≤ 2 → j ≤ 2 → i ≠ j →
      (y = [0, 1, 3].getD i 0 ∨ y ∈ refereeGraph.blocksetOf ([0, 1, 3].getD i 0)) →
      ¬ (y = [0, 1, 3].getD j 0 ∨ y ∈ refereeGraph.blocksetOf ([0, 1, 3].getD j 0)) := by
  obtain ⟨hset, -, hchain⟩ := epoch_sets_partition_past reachable_refereeGraph
  have hmain : ∀ i < 2, refereeGraph.parentOf ([0, 1, 3].getD (i + 1) 0) = some ([0, 1, 3].getD i 0) ∧
      refereeGraph.clearedOf ([0, 1, 3].getD (i + 1) 0) = false := by decide
  exact ⟨reachable_refereeGraph, by decide, hset 3 1 (by decide) (by decide),
    hchain (fun i => [0, 1, 3].getD i 0) 2 rfl hmain⟩

end Mazze.Consensus
