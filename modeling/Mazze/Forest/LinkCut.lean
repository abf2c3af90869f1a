/-
  Link-cut trees through their reference semantics: the brute-force loops that the stress
  tests of the link-cut-tree crate check the splay-tree implementation against. A forest is
  a parent pointer and a value for each node.

  * `make_tree(v)` makes `v` a one-node tree of value 0; `link(v, w)` hangs the root `w`
    under `v`; `split_root(parent, v)` cuts `v` from its parent. None of them changes another
    node's value.
  * `path_apply(v, d)` adds `d` on the path from `v` to its root (`path_apply_brutal`);
    `caterpillar_apply(v, d)` adds `d` on that path and on every child of a node of it
    (`caterpillar_apply_brutal`).

  The walk to the root is `pathFrom` with an explicit fuel. The two updates only shift values
  by an amount that the parent pointers fix, so they are `shift`s: any sequence of them is
  one shift by the sum, which is how an update undone later is seen to leave no trace.

  Main results:
  * `caterpillarDelta_eq`: the root exception of the reference loop only excludes the roots
    of other trees, so a node gains the delta exactly when it or its parent is on the path.
  * `shift_shift`, `pathDelta_neg`, `caterpillarDelta_neg`: shifts compose by addition and a
    negated update shifts by the negated amount.
  * `pathApply_eq_pathApplyAll`, `caterpillarApply_eq_caterpillarApplyAll`: where the walk
    with fuel reaches every ancestor, the bounded updates are the updates on the whole way to
    the root, which is what the splay-tree implementation does.

  The implementation itself is a parameter: `LinkCutTree` names the operations the consensus
  graph calls, and `LinkCutTree.Refines view` says that, read through `view`, each of them is
  the reference operation; `split_root(parent, v)` only where `parent` is the parent of `v`,
  as the crate asserts. The reference meets it (`refines_bruteForce`).
-/
import Mazze.Forest.Path
import Mathlib

namespace Forest

/-- A link-cut forest as its reference implementation holds it. -/
@[ext] structure LinkCut (α : Type) where
  parent : α → Option α
  value : α → Int

namespace LinkCut

variable {α : Type} (t : LinkCut α)

/-- No node has a parent, every value is 0. -/
def empty : LinkCut α := ⟨fun _ => none, fun _ => 0⟩

def get (v : α) : Int := t.value v

/-- Every node `u` gains `c u`. -/
def shift (c : α → Int) : LinkCut α := { t with value := fun u => t.value u + c u }

@[simp] theorem parent_empty : (empty : LinkCut α).parent = fun _ => none := rfl
@[simp] theorem value_empty : (empty : LinkCut α).value = fun _ => 0 := rfl

@[simp] theorem get_eq (v : α) : t.get v = t.value v := rfl

@[simp] theorem parent_shift (c : α → Int) : (t.shift c).parent = t.parent := rfl
@[simp] theorem value_shift (c : α → Int) (u : α) : (t.shift c).value u = t.value u + c u := rfl

theorem shift_shift (c c' : α → Int) : (t.shift c).shift c' = t.shift (c + c') := by
  ext u
  · rfl
  · simp [Int.add_assoc]

@[simp] theorem shift_zero : t.shift (fun _ => 0) = t := by
  ext u <;> simp

/-! ## The updates on the whole way to the root

The reference loops walk `while p != NULL`, which on a forest is every ancestor. These are the
two updates with that walk and no bound; an implementation is held to them, and where the walk
of `fuel` steps is the whole way up they are the bounded updates. -/

/-- `u` is on the caterpillar of `v`: on the path from `v` to its root, or a child of a node
    of that path. -/
def OnCaterpillar (parent : α → Option α) (v u : α) : Prop :=
  IsAncestor parent u v ∨ ∃ p, parent u = some p ∧ IsAncestor parent p v

open Classical in
/-- What `path_apply(v, d)` adds to a node: `d` at `v` and at every ancestor of `v`. -/
noncomputable def pathDeltaAll (parent : α → Option α) (v : α) (d : Int) (u : α) : Int :=
  if IsAncestor parent u v then d else 0

open Classical in
/-- What `caterpillar_apply(v, d)` adds to a node: `d` on the caterpillar of `v`. -/
noncomputable def caterpillarDeltaAll (parent : α → Option α) (v : α) (d : Int) (u : α) : Int :=
  if OnCaterpillar parent v u then d else 0

noncomputable def pathApplyAll (v : α) (d : Int) : LinkCut α :=
  t.shift (pathDeltaAll t.parent v d)

noncomputable def caterpillarApplyAll (v : α) (d : Int) : LinkCut α :=
  t.shift (caterpillarDeltaAll t.parent v d)

@[simp] theorem parent_pathApplyAll (v : α) (d : Int) : (t.pathApplyAll v d).parent = t.parent :=
  rfl
@[simp] theorem parent_caterpillarApplyAll (v : α) (d : Int) :
    (t.caterpillarApplyAll v d).parent = t.parent := rfl

theorem pathDeltaAll_neg (parent : α → Option α) (v : α) (d : Int) :
    pathDeltaAll parent v (-d) = -pathDeltaAll parent v d := by
  funext u
  simp only [pathDeltaAll, Pi.neg_apply]
  split <;> simp

theorem caterpillarDeltaAll_neg (parent : α → Option α) (v : α) (d : Int) :
    caterpillarDeltaAll parent v (-d) = -caterpillarDeltaAll parent v d := by
  funext u
  simp only [caterpillarDeltaAll, Pi.neg_apply]
  split <;> simp

variable [DecidableEq α]

/-- `make_tree(v)`: a fresh one-node tree of value 0. -/
def makeTree (v : α) : LinkCut α :=
  ⟨Function.update t.parent v none, Function.update t.value v 0⟩

/-- `link(v, w)`: the root `w` becomes a child of `v`; nothing happens when `v` is `NULL`. -/
def link (v : Option α) (w : α) : LinkCut α :=
  match v with
  | none => t
  | some v => { t with parent := Function.update t.parent w (some v) }

/-- `split_root(parent, v)`: `v` is cut from its parent. -/
def splitRoot (v : α) : LinkCut α := { t with parent := Function.update t.parent v none }

def set (v : α) (x : Int) : LinkCut α := { t with value := Function.update t.value v x }

/-- What `path_apply(v, d)` adds to a node: `d` on the path from `v` to its root. -/
def pathDelta (fuel : Nat) (v : α) (d : Int) (u : α) : Int :=
  if u ∈ pathFrom t.parent fuel v then d else 0

def pathApply (fuel : Nat) (v : α) (d : Int) : LinkCut α := t.shift (t.pathDelta fuel v d)

/-- What `caterpillar_apply(v, d)` adds to a node: the loop marks the path from `v` to its
    root, then adds `d` at every node that is marked or has a marked parent, unless it is the
    root of another tree. -/
def caterpillarDelta (fuel : Nat) (v : α) (d : Int) (u : α) : Int :=
  let path := pathFrom t.parent fuel v
  let root := path.getLast?.getD v
  if (t.parent u ≠ none ∨ u = root) ∧ (u ∈ path ∨ (t.parent u).any (· ∈ path)) then d else 0

def caterpillarApply (fuel : Nat) (v : α) (d : Int) : LinkCut α :=
  t.shift (t.caterpillarDelta fuel v d)

/-! ## Each operation, field by field -/

section Fields

variable (v w : α) (x : Int) (c : α → Int) (fuel : Nat) (d : Int)

@[simp] theorem parent_makeTree : (t.makeTree v).parent = Function.update t.parent v none := rfl
@[simp] theorem value_makeTree : (t.makeTree v).value = Function.update t.value v 0 := rfl

@[simp] theorem link_none : t.link none w = t := rfl

@[simp] theorem parent_link_some :
    (t.link (some v) w).parent = Function.update t.parent w (some v) := rfl
@[simp] theorem value_link (v : Option α) : (t.link v w).value = t.value := by
  cases v <;> rfl

@[simp] theorem parent_splitRoot : (t.splitRoot v).parent = Function.update t.parent v none :=
  rfl
@[simp] theorem value_splitRoot : (t.splitRoot v).value = t.value := rfl

@[simp] theorem parent_set : (t.set v x).parent = t.parent := rfl
@[simp] theorem value_set : (t.set v x).value = Function.update t.value v x := rfl

@[simp] theorem pathDelta_shift : (t.shift c).pathDelta = t.pathDelta := rfl
@[simp] theorem caterpillarDelta_shift : (t.shift c).caterpillarDelta = t.caterpillarDelta :=
  rfl

@[simp] theorem parent_pathApply : (t.pathApply fuel v d).parent = t.parent := rfl
@[simp] theorem parent_caterpillarApply : (t.caterpillarApply fuel v d).parent = t.parent := rfl

theorem value_pathApply (u : α) :
    (t.pathApply fuel v d).value u =
      t.value u + if u ∈ pathFrom t.parent fuel v then d else 0 := rfl

end Fields

/-! ## The amounts the updates add -/

theorem pathDelta_neg (fuel : Nat) (v : α) (d : Int) :
    t.pathDelta fuel v (-d) = -t.pathDelta fuel v d := by
  funext u
  simp only [pathDelta, Pi.neg_apply]
  split <;> simp

theorem caterpillarDelta_neg (fuel : Nat) (v : α) (d : Int) :
    t.caterpillarDelta fuel v (-d) = -t.caterpillarDelta fuel v d := by
  funext u
  simp only [caterpillarDelta, Pi.neg_apply]
  split <;> simp

/-- The reference loop leaves out the roots of other trees only: a node gains the delta
    exactly when it is on the path or its parent is. A root on the path is the last node of
    the path (`getLast?_pathFrom`), so it passes the root test. -/
theorem caterpillarDelta_eq (fuel : Nat) (v : α) (d : Int) (u : α) :
    t.caterpillarDelta fuel v d u =
      if u ∈ pathFrom t.parent fuel v ∨ ∃ p, t.parent u = some p ∧ p ∈ pathFrom t.parent fuel v
      then d else 0 := by
  unfold caterpillarDelta
  cases hp : t.parent u with
  | some p => simp
  | none =>
    by_cases hu : u ∈ pathFrom t.parent fuel v
    · have hlast := getLast?_pathFrom hu hp
      simp [hu, hlast]
    · simp [hu]

/-! ## Bounded and unbounded walks -/

section Walk

variable {t} {fuel : Nat} {v : α}

/-- Where the walk of `fuel` steps from `v` is the whole way up, the bounded path update adds
    what the unbounded one does. -/
theorem pathDelta_eq_pathDeltaAll (hwalk : ∀ u, u ∈ pathFrom t.parent fuel v ↔ IsAncestor t.parent u v)
    (d : Int) : t.pathDelta fuel v d = pathDeltaAll t.parent v d := by
  funext u
  by_cases hu : IsAncestor t.parent u v
  · simp [pathDelta, pathDeltaAll, hu, (hwalk u).2 hu]
  · simp [pathDelta, pathDeltaAll, hu, mt (hwalk u).1 hu]

theorem caterpillarDelta_eq_caterpillarDeltaAll
    (hwalk : ∀ u, u ∈ pathFrom t.parent fuel v ↔ IsAncestor t.parent u v) (d : Int) :
    t.caterpillarDelta fuel v d = caterpillarDeltaAll t.parent v d := by
  funext u
  rw [caterpillarDelta_eq]
  -- the caterpillar test of the reference loop is `OnCaterpillar` read on the walk
  have hcat : (u ∈ pathFrom t.parent fuel v ∨
      ∃ p, t.parent u = some p ∧ p ∈ pathFrom t.parent fuel v) ↔ OnCaterpillar t.parent v u := by
    simp only [OnCaterpillar, hwalk]
  by_cases hu : OnCaterpillar t.parent v u
  · simp [caterpillarDeltaAll, hu, hcat.2 hu]
  · simp [caterpillarDeltaAll, hu, mt hcat.1 hu]

theorem pathApply_eq_pathApplyAll
    (hwalk : ∀ u, u ∈ pathFrom t.parent fuel v ↔ IsAncestor t.parent u v) (d : Int) :
    t.pathApply fuel v d = t.pathApplyAll v d := by
  rw [pathApply, pathApplyAll, pathDelta_eq_pathDeltaAll hwalk]

theorem caterpillarApply_eq_caterpillarApplyAll
    (hwalk : ∀ u, u ∈ pathFrom t.parent fuel v ↔ IsAncestor t.parent u v) (d : Int) :
    t.caterpillarApply fuel v d = t.caterpillarApplyAll v d := by
  rw [caterpillarApply, caterpillarApplyAll, caterpillarDelta_eq_caterpillarDeltaAll hwalk]

end Walk

end LinkCut

/-! ## Implementations

A link-cut tree implementation holds its forest in splay trees. What the consensus graph needs
of it is that, read through some `view`, each operation does what the reference does. -/

/-- The operations of a link-cut tree that the consensus graph calls
    (`DefaultLinkCutTreeTrait` and `CaterpillarLinkCutTreeTrait`), on trees of type `τ` over
    nodes `α`; `NULL` is `none`. -/
class LinkCutTree (τ : Type) (α : outParam Type) where
  new : τ
  makeTree : τ → α → τ
  /-- `link(v, w)`: `w` becomes a child of `v`. -/
  link : τ → Option α → α → τ
  /-- `split_root(parent, v)`. -/
  splitRoot : τ → α → α → τ
  set : τ → α → Int → τ
  get : τ → α → Int
  pathApply : τ → α → Int → τ
  caterpillarApply : τ → α → Int → τ

/-- An implementation has the semantics of the brute-force reference: read through `view`,
    every operation does what the reference loop does, the two updates on the whole way to the
    root. `split_root(parent, v)` asserts that `parent` is the parent of `v`, and is only held
    to the reference there. -/
structure LinkCutTree.Refines {τ α : Type} [DecidableEq α] [LinkCutTree τ α]
    (view : τ → LinkCut α) : Prop where
  new : view LinkCutTree.new = LinkCut.empty
  makeTree : ∀ t v, view (LinkCutTree.makeTree t v) = (view t).makeTree v
  link : ∀ t v w, view (LinkCutTree.link t v w) = (view t).link v w
  splitRoot : ∀ t p v, (view t).parent v = some p →
    view (LinkCutTree.splitRoot t p v) = (view t).splitRoot v
  set : ∀ t v x, view (LinkCutTree.set t v x) = (view t).set v x
  get : ∀ t v, LinkCutTree.get t v = (view t).get v
  pathApply : ∀ t v d, view (LinkCutTree.pathApply t v d) = (view t).pathApplyAll v d
  caterpillarApply : ∀ t v d,
    view (LinkCutTree.caterpillarApply t v d) = (view t).caterpillarApplyAll v d

/-- The reference loops themselves as an implementation, the forest being its own tree. -/
def BruteForce (α : Type) : Type := LinkCut α

noncomputable instance {α : Type} [DecidableEq α] : LinkCutTree (BruteForce α) α where
  new := LinkCut.empty
  makeTree t v := LinkCut.makeTree t v
  link t v w := LinkCut.link t v w
  splitRoot t _ v := LinkCut.splitRoot t v
  set t v x := LinkCut.set t v x
  get t v := LinkCut.get t v
  pathApply t v d := LinkCut.pathApplyAll t v d
  caterpillarApply t v d := LinkCut.caterpillarApplyAll t v d

/-- The reference meets the hypotheses an implementation is held to. -/
theorem refines_bruteForce {α : Type} [DecidableEq α] :
    LinkCutTree.Refines (τ := BruteForce α) id :=
  ⟨rfl, fun _ _ => rfl, fun _ _ _ => rfl, fun _ _ _ _ => rfl, fun _ _ _ => rfl,
    fun _ _ => rfl, fun _ _ _ => rfl, fun _ _ _ => rfl⟩

end Forest
