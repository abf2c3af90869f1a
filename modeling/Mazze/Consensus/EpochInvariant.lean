/-
  The epoch sets and the past-set cache hold what they stand for in every reachable state.

  `EpochShape` is the shape of the arena that every step keeps: edges lead into the arena,
  heights drop along parent edges, the past relation has no cycle, the blocks of the era hang
  below the era genesis, which has no parent and no referee. `EpochInv` adds what the caches
  mean: a computed epoch set is the past of its block minus the past set of its parent, a
  cleared one is empty, and a cached past set is the past of its block with the block.

  Main results:
  * `EpochInv.computePastsetBrutal_spec`: `compute_pastset_brutal(x)` returns the past set of
    `x`, `x` included.
  * `EpochInv.computeBlocksetInOwnViewOfEpoch_spec`: computing an epoch set keeps the
    invariant and leaves the set computed, and no other block's set changes.
-/
import Mazze.Consensus.EpochSet

namespace Mazze.Consensus

open Forest Graph

/-! ## The cache -/

namespace PastSetCache

variable (c : PastSetCache)

/-- Every entry's past set satisfies `P` for its index. -/
def Sound (P : Nat → (Nat → Bool) → Prop) : Prop := ∀ e ∈ c.cache, P e.1 e.2.1

variable {c} {P : Nat → (Nat → Bool) → Prop}

theorem Sound.get (h : c.Sound P) {me : Nat} {pastset : Nat → Bool}
    (hg : c.get me = some pastset) : P me pastset := by
  simp only [PastSetCache.get, Option.map_eq_some_iff] at hg
  obtain ⟨e, he, rfl⟩ := hg
  have hme : e.1 = me := by simpa using List.find?_some he
  exact hme ▸ h e (List.mem_of_find?_eq_some he)

theorem Sound.update (h : c.Sound P) {me : Nat} {pastset : Nat → Bool} (hp : P me pastset) :
    (c.update me pastset).Sound P := by
  intro e he
  simp only [PastSetCache.update, List.mem_append, List.mem_filter, List.mem_singleton] at he
  rcases he with ⟨he, -⟩ | rfl
  · -- an entry that stays was there before the eviction
    have hsub : e ∈ c.cache := by
      split at he
      · exact (List.mem_filter.1 he).1
      · exact he
    exact h e hsub
  · exact hp

theorem Sound.getAndUpdateCache (h : c.Sound P) (me : Nat) :
    (c.getAndUpdateCache me).2.Sound P := by
  unfold PastSetCache.getAndUpdateCache
  split
  · exact h
  · intro e he
    simp only [List.mem_map] at he
    obtain ⟨e', he', rfl⟩ := he
    split
    · exact h e' he'
    · exact h e' he'

theorem Sound.intersectUpdate (h : c.Sound P) {outside : Nat → Bool}
    {P' : Nat → (Nat → Bool) → Prop}
    (hP : ∀ k pastset, P k pastset → outside k = false → P' k fun v => pastset v && !outside v) :
    (c.intersectUpdate outside).Sound P' := by
  intro e he
  simp only [PastSetCache.intersectUpdate, List.mem_map, List.mem_filter] at he
  obtain ⟨e', ⟨he', hout⟩, rfl⟩ := he
  exact hP e'.1 e'.2.1 (h e' he') (by simpa using hout)

@[simp] theorem getAndUpdateCache_fst (me : Nat) : (c.getAndUpdateCache me).1 = c.get me := by
  unfold PastSetCache.getAndUpdateCache
  split <;> simp_all

/-- An update is found again at once. -/
theorem get_update_self (me : Nat) (pastset : Nat → Bool) :
    (c.update me pastset).get me = some pastset := by
  simp only [PastSetCache.get, PastSetCache.update, List.find?_append]
  rw [List.find?_eq_none.2 (by simp [List.mem_filter])]
  simp

/-- A hit only refreshes the stamp: the set is found again. -/
theorem get_getAndUpdateCache (me : Nat) : (c.getAndUpdateCache me).2.get me = c.get me := by
  unfold PastSetCache.getAndUpdateCache
  split
  · rfl
  · -- the refreshed entries keep their index and their set
    have hp : ((fun e : Nat × (Nat → Bool) × Nat => e.1 == me) ∘
        fun e => if e.1 = me then (e.1, e.2.1, c.entry) else e) = fun e => e.1 == me := by
      funext e; by_cases he : e.1 = me <;> simp [he]
    have hf : ((fun e : Nat × (Nat → Bool) × Nat => e.2.1) ∘
        fun e => if e.1 = me then (e.1, e.2.1, c.entry) else e) = fun e => e.2.1 := by
      funext e; by_cases he : e.1 = me <;> simp [he]
    simp only [PastSetCache.get, List.find?_map, Option.map_map, hp, hf]

end PastSetCache

/-! ## Writes that keep the shape of the arena -/

namespace EpochGraph

/-- Two states with the same blocks, edges, heights, eras and era genesis. -/
structure SameShape (t s : EpochGraph) : Prop where
  isSome : ∀ i, (t.arena i).isSome = (s.arena i).isSome
  parentOf : t.parentOf = s.parentOf
  refereesOf : t.refereesOf = s.refereesOf
  heightOf : t.heightOf = s.heightOf
  inEra : t.inEra = s.inEra
  arenaLen : t.arenaLen = s.arenaLen
  genesis : t.curEraGenesisBlockArenaIndex = s.curEraGenesisBlockArenaIndex

variable {s t u : EpochGraph}

theorem SameShape.refl (s : EpochGraph) : SameShape s s := ⟨fun _ => rfl, rfl, rfl, rfl, rfl, rfl, rfl⟩

theorem SameShape.trans (htu : SameShape t u) (hus : SameShape u s) : SameShape t s :=
  ⟨fun i => (htu.isSome i).trans (hus.isSome i), htu.parentOf.trans hus.parentOf,
    htu.refereesOf.trans hus.refereesOf, htu.heightOf.trans hus.heightOf,
    htu.inEra.trans hus.inEra, htu.arenaLen.trans hus.arenaLen, htu.genesis.trans hus.genesis⟩

theorem SameShape.edge (h : SameShape t s) : t.Edge = s.Edge := by
  unfold Edge; rw [h.parentOf, h.refereesOf]

theorem SameShape.past (h : SameShape t s) : t.Past = s.Past := by
  unfold Past; rw [h.edge]

theorem SameShape.pastOrSelf (h : SameShape t s) : t.PastOrSelf = s.PastOrSelf := by
  unfold PastOrSelf; rw [h.edge]

theorem SameShape.succ (h : SameShape t s) : t.succ = s.succ := by
  funext x; unfold EpochGraph.succ; rw [h.parentOf, h.refereesOf]

theorem SameShape.bfsFuel (h : SameShape t s) : t.bfsFuel = s.bfsFuel := by
  unfold EpochGraph.bfsFuel; rw [h.arenaLen]

/-- A write of one node that keeps its edges, height and era. -/
def KeepsShape (f : EpochNode → EpochNode) : Prop :=
  ∀ b, (f b).height = b.height ∧ (f b).parent = b.parent ∧ (f b).referees = b.referees ∧
    (f b).eraBlock = b.eraBlock

theorem sameShape_setNode (s : EpochGraph) (i : Nat) {f : EpochNode → EpochNode}
    (hf : KeepsShape f) : SameShape (s.setNode i f) s := by
  have key : ∀ j, (s.setNode i f).arena j = if j = i then (s.arena j).map f else s.arena j := by
    intro j
    by_cases hj : j = i
    · subst hj; simp [setNode]
    · simp [setNode, hj]
  refine ⟨fun j => ?_, funext fun j => ?_, funext fun j => ?_, funext fun j => ?_,
    funext fun j => ?_, rfl, rfl⟩ <;>
  simp only [parentOf, refereesOf, heightOf, inEra, key] <;> split <;>
  cases s.arena j <;> simp [(hf _).1, (hf _).2.1, (hf _).2.2.1, (hf _).2.2.2]

theorem keepsShape_blockset (l : List Nat) :
    KeepsShape fun b => { b with blocksetInOwnViewOfEpoch := l } := fun _ => ⟨rfl, rfl, rfl, rfl⟩

theorem keepsShape_cleared (c : Bool) : KeepsShape fun b => { b with blocksetCleared := c } :=
  fun _ => ⟨rfl, rfl, rfl, rfl⟩

theorem sameShape_withCache (s : EpochGraph) (c : PastSetCache) :
    SameShape { s with pastsetCache := c } s := ⟨fun _ => rfl, rfl, rfl, rfl, rfl, rfl, rfl⟩

/-! ## Reading back a write -/

section Writes

variable (s : EpochGraph) (i j : Nat)

theorem blocksetOf_setBlockset (l : List Nat) :
    (s.setBlockset i l).blocksetOf j =
      if j = i ∧ (s.arena i).isSome then l else s.blocksetOf j := by
  by_cases hj : j = i
  · subst hj; cases h : s.arena j <;> simp [setBlockset, setNode, blocksetOf, h]
  · simp [setBlockset, setNode, blocksetOf, hj]

theorem clearedOf_setBlockset (l : List Nat) : (s.setBlockset i l).clearedOf j = s.clearedOf j := by
  by_cases hj : j = i
  · subst hj; cases h : s.arena j <;> simp [setBlockset, setNode, clearedOf, h]
  · simp [setBlockset, setNode, clearedOf, hj]

theorem clearedOf_setCleared (c : Bool) :
    (s.setCleared i c).clearedOf j = if j = i ∧ (s.arena i).isSome then c else s.clearedOf j := by
  by_cases hj : j = i
  · subst hj; cases h : s.arena j <;> simp [setCleared, setNode, clearedOf, h]
  · simp [setCleared, setNode, clearedOf, hj]

theorem blocksetOf_setCleared (c : Bool) : (s.setCleared i c).blocksetOf j = s.blocksetOf j := by
  by_cases hj : j = i
  · subst hj; cases h : s.arena j <;> simp [setCleared, setNode, blocksetOf, h]
  · simp [setCleared, setNode, blocksetOf, hj]

@[simp] theorem pastsetCache_setNode (f : EpochNode → EpochNode) :
    (s.setNode i f).pastsetCache = s.pastsetCache := rfl

end Writes

/-! ## The past relation -/

section Past

variable (s : EpochGraph)

theorem mem_succ (x y : Nat) : y ∈ s.succ x ↔ s.Edge x y := by
  simp [succ, Edge, eq_comm]

theorem graphEdge_succ (ok : Nat → Bool) (x y : Nat) :
    Graph.Edge s.succ ok x y ↔ s.Edge x y ∧ ok y = true := by
  simp [Graph.Edge, mem_succ]

theorem transGen_graphEdge_true (x y : Nat) :
    Relation.TransGen (Graph.Edge s.succ fun _ => true) x y ↔ s.Past x y := by
  have : (Graph.Edge s.succ fun _ => true) = s.Edge := by
    funext x y; simp [graphEdge_succ]
  rw [this]; rfl

theorem pastOrSelf_iff_eq_or_past (x y : Nat) : s.PastOrSelf x y ↔ y = x ∨ s.Past x y :=
  Relation.reflTransGen_iff_eq_or_transGen

variable {s}

theorem past_of_edge_pastOrSelf {x y z : Nat} (hxy : s.Edge x y) (hyz : s.PastOrSelf y z) :
    s.Past x z :=
  Relation.TransGen.head' hxy hyz

theorem past_of_parent {x p y : Nat} (hp : s.parentOf x = some p) (hy : s.PastOrSelf p y) :
    s.Past x y :=
  past_of_edge_pastOrSelf (Or.inl hp) hy

theorem pastOrSelf_of_past {x y : Nat} (h : s.Past x y) : s.PastOrSelf x y := h.to_reflTransGen

theorem pastOrSelf_tail {x y z : Nat} (hxy : s.PastOrSelf x y) (hyz : s.Edge y z) :
    s.PastOrSelf x z :=
  Relation.ReflTransGen.tail hxy hyz

/-- The past set of `x` is its parent's past set, `x` and whatever else `x` reaches. -/
theorem pastOrSelf_iff_of_parent {x : Nat} {R : Nat → Prop}
    (hr : ∀ y, R y ↔ ∃ p, s.parentOf x = some p ∧ s.PastOrSelf p y) (y : Nat) :
    s.PastOrSelf x y ↔ y = x ∨ R y ∨ s.Past x y := by
  rw [pastOrSelf_iff_eq_or_past, hr]
  constructor
  · rintro (h | h)
    · exact Or.inl h
    · exact Or.inr (Or.inr h)
  · rintro (h | ⟨p, hp, hpy⟩ | h)
    · exact Or.inl h
    · exact Or.inr (past_of_parent hp hpy)
    · exact Or.inr h

theorem isSome_of_inEra {x : Nat} (hx : s.inEra x = true) : (s.arena x).isSome := by
  unfold inEra at hx
  cases hs : s.arena x <;> simp_all

/-- An ancestor along parent edges is in the past set. -/
theorem pastOrSelf_of_isAncestor {u v : Nat} (h : IsAncestor s.parentOf u v) : s.PastOrSelf v u :=
  Relation.ReflTransGen.mono (fun _ _ hab => Or.inl hab) _ _ h

end Past

/-! ## One ancestor of the loop of `compute_blockset_in_own_view_of_epoch_impl` -/

section ImplStep

variable (s : EpochGraph) (pastset : Nat → Bool) (main : Nat) (visited : Nat → Bool)
  (blockset : List Nat)

/-- An ancestor whose epoch set is computed adds it to the marks. -/
theorem blocksetImplStep_keep {a : Nat} (hne : a ≠ main) (hc : s.clearedOf a = false) :
    s.blocksetImplStep pastset main (some (visited, blockset)) a =
      some (fun y => Function.update visited a true y || decide (y ∈ s.blocksetOf a), blockset) := by
  simp [blocksetImplStep, hne, hc]

/-- From `main`, or from an ancestor whose epoch set was cleared, the step searches. -/
theorem blocksetImplStep_search {a : Nat} (ha : a = main ∨ s.clearedOf a = true) :
    s.blocksetImplStep pastset main (some (visited, blockset)) a =
      (bfs s.succ (fun y => !pastset y) s.bfsFuel
        (scan (fun y => !pastset y) (Function.update visited a true) (s.refereesOf a) []).1
        (scan (fun y => !pastset y) (Function.update visited a true) (s.refereesOf a) []).2
        []).map fun r => (r.1, if a = main then blockset ++ r.2 else blockset) := by
  have ha' : (decide (a = main) || s.clearedOf a) = true := by
    rcases ha with ha | ha <;> simp [ha]
  simp only [blocksetImplStep, ha', if_true, Option.bind_eq_bind, Option.bind_some]
  cases bfs s.succ (fun y => !pastset y) s.bfsFuel
    (scan (fun y => !pastset y) (Function.update visited a true) (s.refereesOf a) []).1
    (scan (fun y => !pastset y) (Function.update visited a true) (s.refereesOf a) []).2 [] <;> rfl

end ImplStep

end EpochGraph

/-! ## The invariant -/

open EpochGraph

/-- The shape of the arena every step keeps. -/
structure EpochShape (s : EpochGraph) : Prop where
  bounded : ∀ i, (s.arena i).isSome → i < s.arenaLen
  edge_mem : ∀ i j, s.Edge i j → (s.arena j).isSome
  height_lt : ∀ i p, s.parentOf i = some p → s.heightOf p < s.heightOf i
  acyclic : ∀ i, ¬ s.Past i i
  parent_inEra : ∀ i p, s.parentOf i = some p → s.inEra i = true → s.inEra p = true
  root_genesis : ∀ i, s.inEra i = true → s.parentOf i = none →
    i = s.curEraGenesisBlockArenaIndex
  genesis_inEra : s.inEra s.curEraGenesisBlockArenaIndex = true
  genesis_parent : s.parentOf s.curEraGenesisBlockArenaIndex = none
  genesis_referees : s.refereesOf s.curEraGenesisBlockArenaIndex = []

/-- What the cached sets mean. -/
structure EpochInv (s : EpochGraph) : Prop extends EpochShape s where
  blockset : ∀ i, s.clearedOf i = false → ∀ y,
    y ∈ s.blocksetOf i ↔ s.Past i y ∧ ∀ p, s.parentOf i = some p → ¬ s.PastOrSelf p y
  cleared : ∀ i, s.clearedOf i = true → s.blocksetOf i = []
  cache : s.pastsetCache.Sound fun k pastset =>
    (s.arena k).isSome ∧ ∀ y, pastset y = true ↔ s.PastOrSelf k y

namespace EpochShape

variable {s t : EpochGraph}

theorem sameShape (h : EpochShape s) (hts : SameShape t s) : EpochShape t where
  bounded i hi := hts.arenaLen ▸ h.bounded i (hts.isSome i ▸ hi)
  edge_mem i j hij := hts.isSome j ▸ h.edge_mem i j (hts.edge ▸ hij)
  height_lt i p hp := hts.heightOf ▸ h.height_lt i p (hts.parentOf ▸ hp)
  acyclic i := hts.past ▸ h.acyclic i
  parent_inEra i p hp hi := hts.inEra ▸ h.parent_inEra i p (hts.parentOf ▸ hp) (hts.inEra ▸ hi)
  root_genesis i hi hp := hts.genesis ▸ h.root_genesis i (hts.inEra ▸ hi) (hts.parentOf ▸ hp)
  genesis_inEra := by rw [hts.inEra, hts.genesis]; exact h.genesis_inEra
  genesis_parent := by rw [hts.parentOf, hts.genesis]; exact h.genesis_parent
  genesis_referees := by rw [hts.refereesOf, hts.genesis]; exact h.genesis_referees

theorem past_mem (h : EpochShape s) {i j : Nat} (hij : s.Past i j) : (s.arena j).isSome := by
  induction hij with
  | single hij => exact h.edge_mem _ _ hij
  | tail _ hbc _ => exact h.edge_mem _ _ hbc

/-- A block is not in the past set of its parent. -/
theorem not_pastOrSelf_parent (h : EpochShape s) {i p : Nat} (hp : s.parentOf i = some p) :
    ¬ s.PastOrSelf p i :=
  fun hpi => h.acyclic i (past_of_parent hp hpi)

/-- Every node an edge reaches is a slot below `arenaLen`. -/
theorem graphEdge_mem (h : EpochShape s) (ok : Nat → Bool) (x y : Nat)
    (hxy : Graph.Edge s.succ ok x y) : y ∈ Finset.range s.arenaLen :=
  Finset.mem_range.2 (h.bounded y (h.edge_mem x y ((graphEdge_succ s ok x y).1 hxy).1))

/-- Every search of the past the model runs finishes within `bfsFuel`. -/
theorem bfs_some (h : EpochShape s) (ok seen : Nat → Bool) (queue out : List Nat)
    (hq : ((Finset.range s.arenaLen).filter fun x => seen x = false).card + queue.length ≤
      s.arenaLen + 1) :
    ∃ r, bfs s.succ ok s.bfsFuel seen queue out = some r :=
  bfs_isSome s.succ ok _ (h.graphEdge_mem ok) _ seen queue out (by unfold bfsFuel; omega)

theorem card_unseen_le (s : EpochGraph) (seen : Nat → Bool) :
    ((Finset.range s.arenaLen).filter fun x => seen x = false).card ≤ s.arenaLen :=
  (Finset.card_filter_le _ _).trans (Finset.card_range _).le

/-- The root of the era, the era genesis, has nothing in its past. -/
theorem not_past_of_root (h : EpochShape s) {i : Nat} (hi : s.inEra i = true)
    (hp : s.parentOf i = none) (y : Nat) : ¬ s.Past i y := by
  have hg := h.root_genesis i hi hp
  intro hy
  obtain ⟨z, hiz, -⟩ := Relation.TransGen.head'_iff.1 hy
  rcases hiz with hiz | hiz
  · simp [hp] at hiz
  · simp [hg, h.genesis_referees] at hiz

/-- The lca of the link-cut tree is an ancestor of its second block. -/
theorem lca_isAncestor (h : EpochShape s) {me v w : Nat} (hl : s.lca me v = some w) :
    IsAncestor s.parentOf w v := by
  unfold EpochGraph.lca at hl
  split at hl
  · exact (mem_pathFrom_iff h.height_lt (by omega) w).1 (lca_mem hl).1
  · cases hl

/-- Ancestors of a block of the arena are blocks of the arena. -/
theorem isAncestor_mem (h : EpochShape s) {u v : Nat} (hv : (s.arena v).isSome)
    (huv : IsAncestor s.parentOf u v) : (s.arena u).isSome := by
  rcases (pastOrSelf_iff_eq_or_past s v u).1 (pastOrSelf_of_isAncestor huv) with rfl | hpast
  · exact hv
  · exact h.past_mem hpast

end EpochShape

/-! ## `compute_pastset_brutal` -/

namespace EpochInv

variable {s t : EpochGraph}

/-- A computed epoch set fills the past set of a block from that of its parent. -/
theorem pastOrSelf_iff_blockset (h : EpochInv s) {a : Nat} (hc : s.clearedOf a = false)
    {R : Nat → Prop} (hr : ∀ y, R y ↔ ∃ p, s.parentOf a = some p ∧ s.PastOrSelf p y)
    (y : Nat) : (y = a ∨ R y ∨ y ∈ s.blocksetOf a) ↔ s.PastOrSelf a y := by
  rw [pastOrSelf_iff_of_parent hr, h.blockset a hc y]
  constructor
  · rintro (h1 | h1 | ⟨h1, -⟩)
    · exact Or.inl h1
    · exact Or.inr (Or.inl h1)
    · exact Or.inr (Or.inr h1)
  · rintro (h1 | h1 | h1)
    · exact Or.inl h1
    · exact Or.inr (Or.inl h1)
    · -- the part of the past outside the parent's past set is the epoch set
      by_cases hp : ∃ p, s.parentOf a = some p ∧ s.PastOrSelf p y
      · exact Or.inr (Or.inl ((hr y).2 hp))
      · exact Or.inr (Or.inr ⟨h1, fun p hp' hpy => hp ⟨p, hp', hpy⟩⟩)

/-- One ancestor on the way down turns the past set of its parent (nothing for a root) into
    its own. -/
theorem pastsetAdd_spec (h : EpochInv s) {a : Nat} {r : Nat → Bool}
    (hr : ∀ y, r y = true ↔ ∃ p, s.parentOf a = some p ∧ s.PastOrSelf p y) :
    ∃ f, s.pastsetAdd (some r) a = some f ∧ ∀ y, f y = true ↔ s.PastOrSelf a y := by
  unfold pastsetAdd
  cases hc : s.clearedOf a with
  | false =>
    refine ⟨_, rfl, fun y => ?_⟩
    rw [← h.pastOrSelf_iff_blockset hc hr y]
    by_cases hya : y = a
    · simp [hya]
    · simp [hya]
  | true =>
    -- a search from `a` through what the parent's past set leaves out
    have hc' : ∀ x, Function.update r a true x = true → x ∉ [a] →
        ∀ y, Graph.Edge s.succ (fun _ => true) x y → Function.update r a true y = true := by
      intro x hx hxa y hxy
      have hxa' : x ≠ a := by simpa using hxa
      rw [Function.update_of_ne hxa'] at hx
      obtain ⟨p, hp, hpx⟩ := (hr x).1 hx
      have hpy := pastOrSelf_tail hpx ((graphEdge_succ s _ x y).1 hxy).1
      by_cases hya : y = a
      · simp [hya]
      · rw [Function.update_of_ne hya]; exact (hr y).2 ⟨p, hp, hpy⟩
    obtain ⟨⟨seen', out'⟩, hb⟩ := h.bfs_some (fun _ => true) (Function.update r a true) [a] []
      (by have := EpochShape.card_unseen_le s (Function.update r a true); simp; omega)
    refine ⟨seen', by simp [hb], fun y => ?_⟩
    rw [bfs_seen_iff s.succ _ hb hc' y, pastOrSelf_iff_of_parent hr]
    simp only [List.mem_singleton, exists_eq_left, transGen_graphEdge_true]
    by_cases hya : y = a
    · simp [hya]
    · simp [hya]

/-- The walk up to a cached ancestor, folded back down, gives the past set of its start. -/
theorem pastsetWalk_fold (h : EpochInv s) :
    ∀ (fuel cur : Nat), (s.arena cur).isSome → s.heightOf cur < fuel →
      ∃ r f, s.pastsetWalk fuel cur = some r ∧
        r.1.reverse.foldl s.pastsetAdd (some ((r.2.bind s.pastsetCache.get).getD fun _ => false))
          = some f ∧ ∀ y, f y = true ↔ s.PastOrSelf cur y := by
  intro fuel
  induction fuel with
  | zero => intro _ _ h; omega
  | succ fuel ih =>
    intro cur hcur hfuel
    by_cases hhit : (s.pastsetCache.get cur).isSome
    · -- the cached set is the past set of `cur`
      obtain ⟨pastset, hget⟩ := Option.isSome_iff_exists.1 hhit
      refine ⟨([], some cur), pastset, by simp [pastsetWalk, hhit], by simp [hget], ?_⟩
      exact (h.cache.get hget).2
    · cases hp : s.parentOf cur with
      | none =>
        have hr : ∀ y, (fun _ => false) y = true ↔
            ∃ p, s.parentOf cur = some p ∧ s.PastOrSelf p y := by simp [hp]
        obtain ⟨f, hf, hfy⟩ := h.pastsetAdd_spec hr
        exact ⟨([cur], none), f, by simp [pastsetWalk, hhit, hp], by simpa using hf, hfy⟩
      | some p =>
        have hpmem := h.edge_mem cur p (Or.inl hp)
        have hph := h.height_lt cur p hp
        obtain ⟨r, f, hr, hfold, hf⟩ := ih p hpmem (by omega)
        have hr' : ∀ y, f y = true ↔ ∃ p', s.parentOf cur = some p' ∧ s.PastOrSelf p' y := by
          simp [hp, hf]
        obtain ⟨g, hg, hgy⟩ := h.pastsetAdd_spec hr'
        refine ⟨(cur :: r.1, r.2), g, by simp [pastsetWalk, hhit, hp, hr], ?_, hgy⟩
        rw [List.reverse_cons, List.foldl_append, hfold]
        exact hg

/-- `compute_pastset_brutal(x)` is the past set of `x`, `x` included. -/
theorem computePastsetBrutal_spec (h : EpochInv s) {x : Nat} (hx : (s.arena x).isSome) :
    ∃ f, s.computePastsetBrutal x = some f ∧ ∀ y, f y = true ↔ s.PastOrSelf x y := by
  obtain ⟨r, f, hr, hfold, hf⟩ := h.pastsetWalk_fold _ x hx (Nat.lt_succ_self _)
  refine ⟨f, ?_, hf⟩
  simp only [computePastsetBrutal, hr]
  exact hfold

/-! ## `compute_blockset_in_own_view_of_epoch` -/

/-- A state with the shape of an invariant one, whose epoch sets and cache mean what they
    should, has the invariant. -/
theorem of_sameShape (h : EpochInv s) (hts : SameShape t s)
    (hb : ∀ i, t.clearedOf i = false → ∀ y, y ∈ t.blocksetOf i ↔
      s.Past i y ∧ ∀ p, s.parentOf i = some p → ¬ s.PastOrSelf p y)
    (hc : ∀ i, t.clearedOf i = true → t.blocksetOf i = [])
    (hcache : t.pastsetCache.Sound fun k pastset =>
      (s.arena k).isSome ∧ ∀ y, pastset y = true ↔ s.PastOrSelf k y) : EpochInv t where
  toEpochShape := h.sameShape hts
  blockset i hi y := by rw [hts.past, hts.pastOrSelf, hts.parentOf]; exact hb i hi y
  cleared := hc
  cache := by
    intro e he
    rw [hts.isSome, hts.pastOrSelf]
    exact hcache e he

theorem withCache (h : EpochInv s) {c : PastSetCache}
    (hc : c.Sound fun k pastset => (s.arena k).isSome ∧ ∀ y, pastset y = true ↔ s.PastOrSelf k y) :
    EpochInv { s with pastsetCache := c } :=
  h.of_sameShape (sameShape_withCache s c) (fun i hi => h.blockset i hi) (fun i hi => h.cleared i hi)
    hc

variable {pastset : Nat → Bool} {lca : Nat}

section ImplSearch

/-! The search from an ancestor `a` of the loop, with parent `p`, runs through what the past
set of `lca` leaves out. It is seeded with the referees of `a`; the parent of `a` is covered
already, by the marks or by the past set of `lca`. -/

variable {a p : Nat} {visited : Nat → Bool}

/-- What the scan of the referees of `a` marks and queues. -/
theorem implSeed_spec (y : Nat) :
    ((scan (fun y => !pastset y) (Function.update visited a true) (s.refereesOf a) []).1 y = true ↔
      (y = a ∨ visited y = true) ∨ (y ∈ s.refereesOf a ∧ pastset y = false)) ∧
    (y ∈ (scan (fun y => !pastset y) (Function.update visited a true) (s.refereesOf a) []).2 ↔
      y ∈ s.refereesOf a ∧ pastset y = false ∧ y ≠ a ∧ visited y = false) := by
  rw [scan_fst, mem_scan_snd]
  by_cases hya : y = a <;> simp [hya]

/-- A marked node the seed does not queue has its successors outside the past set of `lca`
    marked: it is `a`, whose parent is covered and whose referees are scanned, or a node of
    the past set of `p`, which is closed under edges. -/
theorem implSeed_closed (hp : s.parentOf a = some p)
    (hv : ∀ y, visited y = true ∨ pastset y = true ↔ s.PastOrSelf p y) (x : Nat)
    (hx : (scan (fun y => !pastset y) (Function.update visited a true) (s.refereesOf a) []).1 x
      = true)
    (hxq : x ∉ (scan (fun y => !pastset y) (Function.update visited a true) (s.refereesOf a)
      []).2)
    (y : Nat) (hxy : Graph.Edge s.succ (fun y => !pastset y) x y) :
    (scan (fun y => !pastset y) (Function.update visited a true) (s.refereesOf a) []).1 y
      = true := by
  rw [graphEdge_succ] at hxy
  obtain ⟨hxy, hoky⟩ := hxy
  have hpy : pastset y = false := by simpa using hoky
  rw [(implSeed_spec y).1]
  have hx1 : x = a ∨ visited x = true := by
    rcases (implSeed_spec x).1.1 hx with hx1 | ⟨hxr, hpx⟩
    · exact hx1
    · by_cases hxa : x = a
      · exact Or.inl hxa
      · by_contra hvx
        exact hxq ((implSeed_spec x).2.2 ⟨hxr, hpx, hxa, by simpa [hxa] using hvx⟩)
  rcases hx1 with rfl | hx'
  · rcases hxy with hxy | hxy
    · -- the parent of `a` is covered, and not by the past set of `lca`
      rw [hp, Option.some.injEq] at hxy
      subst hxy
      have := (hv p).2 Relation.ReflTransGen.refl
      exact Or.inl (Or.inr (this.resolve_right (by simp [hpy])))
    · exact Or.inr ⟨hxy, hpy⟩
  · have hpy' := pastOrSelf_tail ((hv x).1 (Or.inl hx')) hxy
    exact Or.inl (Or.inr (((hv y).2 hpy').resolve_right (by simp [hpy])))

variable {visited' : Nat → Bool} {popped : List Nat}

/-- With the marks the search leaves, the past set of `lca` covers the past set of `a`. -/
theorem implSearch_marks (hps : ∀ y, pastset y = true ↔ s.PastOrSelf lca y)
    (hp : s.parentOf a = some p)
    (hv : ∀ y, visited y = true ∨ pastset y = true ↔ s.PastOrSelf p y)
    (hb : bfs s.succ (fun y => !pastset y) s.bfsFuel
      (scan (fun y => !pastset y) (Function.update visited a true) (s.refereesOf a) []).1
      (scan (fun y => !pastset y) (Function.update visited a true) (s.refereesOf a) []).2 []
      = some (visited', popped)) (y : Nat) :
    visited' y = true ∨ pastset y = true ↔ s.PastOrSelf a y := by
  constructor
  · rintro (hy | hy)
    · rcases bfs_sound s.succ _ hb hy with hy | ⟨x, hx, hxy⟩
      · rcases (implSeed_spec y).1.1 hy with (rfl | hy) | ⟨hy, -⟩
        · exact Relation.ReflTransGen.refl
        · exact pastOrSelf_of_past (past_of_parent hp ((hv y).1 (Or.inl hy)))
        · exact pastOrSelf_of_past (Relation.TransGen.single (Or.inr hy))
      · -- reached from a referee through edges the search may follow
        have hx' := ((implSeed_spec x).2.1 hx).1
        have hxy' : s.Past x y :=
          Relation.TransGen.mono (fun u v huv => ((graphEdge_succ s _ u v).1 huv).1) x y hxy
        exact pastOrSelf_of_past (Relation.TransGen.head (Or.inr hx') hxy')
    · exact pastOrSelf_of_past (past_of_parent hp ((hv y).1 (Or.inr hy)))
  · intro hy
    by_cases hpy : pastset y = true
    · exact Or.inr hpy
    · -- the whole way from `a` to `y` avoids the past set of `lca`, so the search marks it
      left
      have hclosed : ∀ x y, pastset x = true → s.Edge x y → pastset y = true := fun x y hx hxy =>
        (hps y).2 (pastOrSelf_tail ((hps x).1 hx) hxy)
      have hclosed' := (bfs_closed s.succ _ hb (implSeed_closed hp hv)).1
      have ha : visited' a = true :=
        bfs_mono s.succ _ hb ((implSeed_spec a).1.2 (Or.inl (Or.inl rfl)))
      induction hy with
      | refl => exact ha
      | @tail b c _ hbc ih =>
        have hpb : ¬ pastset b = true := fun hb' => hpy (hclosed b c hb' hbc)
        exact hclosed' b c (ih hpb) ((graphEdge_succ s _ b c).2 ⟨hbc, by simpa using hpy⟩)

/-- The search takes off the queue exactly the past of `a` outside the past set of `p`. -/
theorem implSearch_popped (h : EpochInv s) (hps : ∀ y, pastset y = true ↔ s.PastOrSelf lca y)
    (hp : s.parentOf a = some p)
    (hv : ∀ y, visited y = true ∨ pastset y = true ↔ s.PastOrSelf p y)
    (hb : bfs s.succ (fun y => !pastset y) s.bfsFuel
      (scan (fun y => !pastset y) (Function.update visited a true) (s.refereesOf a) []).1
      (scan (fun y => !pastset y) (Function.update visited a true) (s.refereesOf a) []).2 []
      = some (visited', popped)) (y : Nat) :
    y ∈ popped ↔ s.Past a y ∧ ¬ s.PastOrSelf p y := by
  rw [mem_bfs_out s.succ _ hb y]
  simp only [List.not_mem_nil, false_or]
  constructor
  · rintro (hy | ⟨hy, hsy⟩)
    · -- a referee of `a` that the seed queued
      obtain ⟨hyr, hpy, hya, hvy⟩ := (implSeed_spec y).2.1 hy
      refine ⟨Relation.TransGen.single (Or.inr hyr), fun hpy' => ?_⟩
      rcases (hv y).2 hpy' with hy' | hy' <;> simp_all
    · -- marked by the search itself: reached from a referee, through an edge it may follow
      rcases bfs_sound s.succ _ hb hy with hy' | ⟨x, hx, hxy⟩
      · simp [hy'] at hsy
      · have hx' := ((implSeed_spec x).2.1 hx).1
        have hxy' : s.Past x y :=
          Relation.TransGen.mono (fun u v huv => ((graphEdge_succ s _ u v).1 huv).1) x y hxy
        refine ⟨Relation.TransGen.head (Or.inr hx') hxy', fun hpy => ?_⟩
        have hoky := ok_of_transGen hxy
        rcases (hv y).2 hpy with hy' | hy'
        · have hs : (scan (fun y => !pastset y) (Function.update visited a true)
              (s.refereesOf a) []).1 y = true := (implSeed_spec y).1.2 (Or.inl (Or.inr hy'))
          simp [hs] at hsy
        · simp [hy'] at hoky
  · rintro ⟨hy, hpy⟩
    have hnv : ¬ visited y = true := fun h' => hpy ((hv y).1 (Or.inl h'))
    have hnp : ¬ pastset y = true := fun h' => hpy ((hv y).1 (Or.inr h'))
    have hya : y ≠ a := by rintro rfl; exact h.acyclic y hy
    have hvy := ((implSearch_marks hps hp hv hb y).2 (pastOrSelf_of_past hy)).resolve_right hnp
    cases hs : (scan (fun y => !pastset y) (Function.update visited a true) (s.refereesOf a)
        []).1 y
    · exact Or.inr ⟨hvy, rfl⟩
    · rcases (implSeed_spec y).1.1 hs with (hs' | hs') | ⟨hyr, hpy'⟩
      · exact absurd hs' hya
      · exact absurd hs' hnv
      · exact Or.inl ((implSeed_spec y).2.2 ⟨hyr, hpy', hya, by simpa using hnv⟩)

/-- What the search from `a` finds: it finishes, with its marks covering the past set of `a`
    and the past of `a` outside the past set of `p` taken off the queue. -/
theorem implSearch_spec (h : EpochInv s) (hps : ∀ y, pastset y = true ↔ s.PastOrSelf lca y)
    (hp : s.parentOf a = some p)
    (hv : ∀ y, visited y = true ∨ pastset y = true ↔ s.PastOrSelf p y) :
    ∃ visited' popped,
      bfs s.succ (fun y => !pastset y) s.bfsFuel
        (scan (fun y => !pastset y) (Function.update visited a true) (s.refereesOf a) []).1
        (scan (fun y => !pastset y) (Function.update visited a true) (s.refereesOf a) []).2 []
        = some (visited', popped) ∧
      (∀ y, visited' y = true ∨ pastset y = true ↔ s.PastOrSelf a y) ∧
      (∀ y, y ∈ popped ↔ s.Past a y ∧ ¬ s.PastOrSelf p y) := by
  -- the seed queues only arena slots, so the search finishes within `bfsFuel`
  have hmeasure := scan_measure (fun y => !pastset y) (Finset.range s.arenaLen)
    (Function.update visited a true) (s.refereesOf a) []
    (fun y hy _ => Finset.mem_range.2 (h.bounded y (h.edge_mem a y (Or.inr hy))))
  obtain ⟨⟨visited', popped⟩, hb⟩ := h.bfs_some (fun y => !pastset y)
    (scan (fun y => !pastset y) (Function.update visited a true) (s.refereesOf a) []).1
    (scan (fun y => !pastset y) (Function.update visited a true) (s.refereesOf a) []).2 []
    (by
      have := EpochShape.card_unseen_le s (Function.update visited a true)
      rw [List.length_nil] at hmeasure
      omega)
  exact ⟨visited', popped, hb, implSearch_marks hps hp hv hb,
    implSearch_popped h hps hp hv hb⟩

end ImplSearch

/-- The loop of `compute_blockset_in_own_view_of_epoch_impl` over the ancestors of `main` from
    `lca` down to `cur`: the walk up from `cur` reaches `lca`, and after it the marks and the
    past set of `lca` cover the past set of `cur`, with the epoch set of `main` untouched. The
    induction is on the fuel of the walk; each ancestor adds its epoch set, or searches when it
    was cleared. -/
theorem implFold_above (h : EpochInv s) (hps : ∀ y, pastset y = true ↔ s.PastOrSelf lca y)
    (main : Nat) (blockset : List Nat) :
    ∀ (fuel cur : Nat), IsAncestor s.parentOf lca cur → s.heightOf cur < fuel →
      s.heightOf cur < s.heightOf main →
      ∃ path visited, s.pathToLca lca fuel cur = some path ∧
        path.reverse.foldl (s.blocksetImplStep pastset main) (some (fun _ => false, blockset)) =
          some (visited, blockset) ∧
        ∀ y, visited y = true ∨ pastset y = true ↔ s.PastOrSelf cur y := by
  intro fuel
  induction fuel with
  | zero => intro _ _ hfuel; omega
  | succ fuel ih =>
    intro cur hanc hfuel hmain
    rcases isAncestor_iff.1 hanc with rfl | ⟨p, hp, hanc'⟩
    · -- the walk stops at `lca`, whose past set is `pastset`
      exact ⟨[], fun _ => false, by simp [pathToLca], rfl, fun y => by simp [hps]⟩
    · have hph := h.height_lt cur p hp
      have hcl : cur ≠ lca := by
        rintro rfl; have := hanc'.rank_le h.height_lt; omega
      have hne : cur ≠ main := by rintro rfl; omega
      obtain ⟨rest, visited, hrest, hfold, hv⟩ := ih p hanc' (by omega) (by omega)
      refine ⟨cur :: rest, ?_⟩
      simp only [pathToLca, hcl, if_false, hp, hrest, Option.bind_eq_bind, Option.bind_some,
        List.reverse_cons, List.foldl_append, hfold, List.foldl_cons, List.foldl_nil]
      cases hc : s.clearedOf cur with
      | false =>
        -- the epoch set of `cur` fills the marks up to its past set
        rw [blocksetImplStep_keep s pastset main visited blockset hne hc]
        refine ⟨_, rfl, rfl, fun y => ?_⟩
        have hr : ∀ y, (visited y || pastset y) = true ↔
            ∃ p', s.parentOf cur = some p' ∧ s.PastOrSelf p' y := by
          intro y; simp [hp, ← hv]
        rw [← h.pastOrSelf_iff_blockset hc hr y]
        by_cases hy : y = cur
        · simp [hy]
        · simp only [Function.update_of_ne hy, Bool.or_eq_true, decide_eq_true_eq, hy, false_or]
          tauto
      | true =>
        obtain ⟨visited', popped, hb, hmarks, -⟩ := h.implSearch_spec hps hp hv
        rw [blocksetImplStep_search s pastset main visited blockset (Or.inr hc), hb]
        exact ⟨visited', rfl, by simp [hne], hmarks⟩

/-- `compute_blockset_in_own_view_of_epoch_impl(lca, main)`, with `lca` an ancestor of the
    parent `p` of `main` whose past set is cached, appends to the epoch set of `main` the past
    of `main` outside the past set of `p`. -/
theorem computeBlocksetInOwnViewOfEpochImpl_spec (h : EpochInv s) {main p : Nat}
    (hp : s.parentOf main = some p) (hlca : IsAncestor s.parentOf lca p)
    (hget : s.pastsetCache.get lca = some pastset) {t : EpochGraph}
    (ht : s.computeBlocksetInOwnViewOfEpochImpl lca main = some t) :
    ∃ popped, t = s.setBlockset main (s.blocksetOf main ++ popped) ∧
      ∀ y, y ∈ popped ↔ s.Past main y ∧ ¬ s.PastOrSelf p y := by
  have hps := (h.cache.get hget).2
  have hph := h.height_lt main p hp
  obtain ⟨rest, visited, hrest, hfold, hv⟩ :=
    h.implFold_above hps main (s.blocksetOf main) _ p hlca hph hph
  have hne : main ≠ lca := by
    rintro rfl; have := hlca.rank_le h.height_lt; omega
  obtain ⟨visited', popped, hb, -, hpopped⟩ := h.implSearch_spec hps hp hv
  refine ⟨popped, ?_, hpopped⟩
  simp only [computeBlocksetInOwnViewOfEpochImpl, hget, pathToLca, hne, if_false, hp, hrest,
    Option.bind_eq_bind, Option.pure_def, Option.bind_some, List.reverse_cons,
    List.foldl_append, hfold, List.foldl_cons, List.foldl_nil,
    blocksetImplStep_search s pastset main visited (s.blocksetOf main) (Or.inl rfl), hb,
    Option.map_some, if_true] at ht
  exact (Option.some.inj ht).symm


/-- The cache lookup of `compute_blockset_in_own_view_of_epoch` changes only the cache, after
    which the past set of `lca` is cached. -/
theorem cachePastset_spec (h : EpochInv s) {lca : Nat} (hlca : (s.arena lca).isSome) :
    ∃ c pastset, s.cachePastset lca = some { s with pastsetCache := c } ∧
      EpochInv { s with pastsetCache := c } ∧ c.get lca = some pastset := by
  unfold cachePastset
  cases hg : s.pastsetCache.get lca with
  | some pastset =>
    -- a hit refreshes the stamp
    refine ⟨_, pastset, by simp [hg], h.withCache (h.cache.getAndUpdateCache lca), ?_⟩
    rw [PastSetCache.get_getAndUpdateCache, hg]
  | none =>
    -- a miss leaves the cache as it was, computes the set and stores it
    have hmiss : s.pastsetCache.getAndUpdateCache lca = (none, s.pastsetCache) := by
      simp [PastSetCache.getAndUpdateCache, hg]
    obtain ⟨f, hf, hfy⟩ := h.computePastsetBrutal_spec hlca
    refine ⟨s.pastsetCache.update lca f, f, ?_, h.withCache (h.cache.update ⟨hlca, hfy⟩),
      PastSetCache.get_update_self _ _⟩
    simp [hmiss, hf]

/-- Marking the epoch set of `main` computed keeps the invariant, when the state before has
    the shape and cache of an invariant one, the epoch sets of the other blocks as they were,
    and the epoch set of `main` is what it should be. -/
theorem setCleared_of_computed (h : EpochInv s) {u : EpochGraph} {main : Nat}
    (hmain : (s.arena main).isSome) (hus : SameShape u s)
    (hcache : u.pastsetCache.Sound fun k pastset =>
      (s.arena k).isSome ∧ ∀ y, pastset y = true ↔ s.PastOrSelf k y)
    (hframe : ∀ i, i ≠ main → u.blocksetOf i = s.blocksetOf i ∧ u.clearedOf i = s.clearedOf i)
    (hb : ∀ y, y ∈ u.blocksetOf main ↔
      s.Past main y ∧ ∀ p, s.parentOf main = some p → ¬ s.PastOrSelf p y) :
    EpochInv (u.setCleared main false) ∧ SameShape (u.setCleared main false) s ∧
      (u.setCleared main false).clearedOf main = false ∧
      ∀ i, i ≠ main → (u.setCleared main false).blocksetOf i = s.blocksetOf i ∧
        (u.setCleared main false).clearedOf i = s.clearedOf i := by
  have hmain' : (u.arena main).isSome := (hus.isSome main).trans hmain
  have hts := (sameShape_setNode u main (keepsShape_cleared false)).trans hus
  have hcl : ∀ i, (u.setCleared main false).clearedOf i =
      if i = main then false else s.clearedOf i := by
    intro i
    rw [clearedOf_setCleared]
    by_cases hi : i = main
    · simp [hi, hmain']
    · simp [hi, (hframe i hi).2]
  have hframe' : ∀ i, i ≠ main → (u.setCleared main false).blocksetOf i = s.blocksetOf i ∧
      (u.setCleared main false).clearedOf i = s.clearedOf i := by
    intro i hi
    rw [blocksetOf_setCleared, hcl, if_neg hi]
    exact ⟨(hframe i hi).1, rfl⟩
  refine ⟨h.of_sameShape hts ?_ ?_ hcache, hts, by simp [hcl], hframe'⟩
  · intro i hi y
    by_cases him : i = main
    · subst him; rw [blocksetOf_setCleared]; exact hb y
    · rw [(hframe' i him).1]
      rw [(hframe' i him).2] at hi
      exact h.blockset i hi y
  · intro i hi
    by_cases him : i = main
    · simp [hcl, him] at hi
    · rw [(hframe' i him).1]
      rw [(hframe' i him).2] at hi
      exact h.cleared i hi

/-- Computing the epoch set of a block of the era keeps the invariant and leaves the set
    computed; no other block's epoch set changes. -/
theorem computeBlocksetInOwnViewOfEpoch_spec (h : EpochInv s) {main last : Nat}
    (hmain : s.inEra main = true) (ht : s.computeBlocksetInOwnViewOfEpoch main last = some t) :
    EpochInv t ∧ SameShape t s ∧ t.clearedOf main = false ∧
      ∀ i, i ≠ main → t.blocksetOf i = s.blocksetOf i ∧ t.clearedOf i = s.clearedOf i := by
  have hmem := isSome_of_inEra hmain
  unfold computeBlocksetInOwnViewOfEpoch at ht
  split at ht
  · -- already computed
    cases ht
    exact ⟨h, SameShape.refl s, ‹_›, fun _ _ => ⟨rfl, rfl⟩⟩
  · rename_i hc
    have hempty : s.blocksetOf main = [] := h.cleared main (by simpa using hc)
    cases hp : s.parentOf main with
    | none =>
      -- the era genesis: its past is empty
      simp only [hp, Option.pure_def, Option.bind_eq_bind, Option.bind_some,
        Option.some.injEq] at ht
      subst ht
      refine h.setCleared_of_computed hmem (SameShape.refl s) h.cache (fun _ _ => ⟨rfl, rfl⟩) ?_
      intro y
      simp [hempty, h.not_past_of_root hmain hp y]
    | some p =>
      simp only [hp, Option.pure_def, Option.bind_eq_bind, Option.bind_eq_some_iff,
        Option.some.injEq] at ht
      obtain ⟨lca, hlca, t1, ht1, u, hu, rfl⟩ := ht
      have hanc := h.lca_isAncestor hlca
      have hlmem := h.isAncestor_mem (h.edge_mem main p (Or.inl hp)) hanc
      obtain ⟨c, pastset, hcp, hinv1, hget⟩ := h.cachePastset_spec hlmem
      rw [hcp, Option.some.injEq] at ht1
      subst ht1
      obtain ⟨popped, rfl, hpopped⟩ :=
        hinv1.computeBlocksetInOwnViewOfEpochImpl_spec hp hanc hget hu
      refine h.setCleared_of_computed hmem
        ((sameShape_setNode _ main (keepsShape_blockset _)).trans (sameShape_withCache s c))
        hinv1.cache (fun i hi => ?_) (fun y => ?_)
      · rw [blocksetOf_setBlockset, clearedOf_setBlockset]
        simp only [hi, false_and, if_false]
        exact ⟨rfl, rfl⟩
      · -- the set of `main` was empty, so it is what the search took off the queue
        have hb1 : y ∉ ({ s with pastsetCache := c } : EpochGraph).blocksetOf main := by
          show y ∉ s.blocksetOf main
          simp [hempty]
        rw [blocksetOf_setBlockset, if_pos ⟨rfl, hmem⟩, List.mem_append, hpopped y]
        simp only [hb1, false_or, hp, Option.some.injEq, forall_eq']
        rfl


end EpochInv

end Mazze.Consensus
