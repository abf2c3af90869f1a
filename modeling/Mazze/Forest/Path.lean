/-
  Rooted forests given by a parent function, walked the way the brute-force reference loops
  of a link-cut tree walk them (`while p != NULL { ...; p = parent[p]; }`).

  `pathFrom parent fuel v` is `v` and its ancestors, nearest first, cut off after `fuel`
  nodes; on a forest whose depth is below `fuel` it is the whole path to the root.
  `lca` is the lowest common ancestor found as the reference `lca_brutal` finds it: the first
  node on the path of `v` that lies on the path of `u`.
-/
import Mathlib

namespace Forest

variable {α : Type}

/-- `v` and its ancestors, nearest first, at most `fuel` of them. -/
def pathFrom (parent : α → Option α) : Nat → α → List α
  | 0, _ => []
  | fuel + 1, v => v :: match parent v with
    | none => []
    | some p => pathFrom parent fuel p

@[simp] theorem pathFrom_zero (parent : α → Option α) (v : α) : pathFrom parent 0 v = [] := rfl

theorem pathFrom_succ (parent : α → Option α) (fuel : Nat) (v : α) :
    pathFrom parent (fuel + 1) v =
      v :: match parent v with
        | none => []
        | some p => pathFrom parent fuel p := rfl

/-- The nodes of a walk are the ones the parent function leads to: a walk with more fuel,
    or under a parent function that agrees with this one on the walk, is the same walk. -/
theorem pathFrom_congr {parent parent' : α → Option α} {fuel : Nat} {v : α}
    (h : ∀ u ∈ pathFrom parent fuel v, parent' u = parent u) :
    pathFrom parent' fuel v = pathFrom parent fuel v := by
  induction fuel generalizing v with
  | zero => rfl
  | succ fuel ih =>
    have hv : parent' v = parent v := h v (by simp [pathFrom_succ])
    rw [pathFrom_succ, pathFrom_succ, hv]
    cases hp : parent v with
    | none => rfl
    | some p =>
      -- the rest of the walk starts at the parent, and agrees there as well
      refine congrArg (v :: ·) (ih fun u hu => h u ?_)
      simp [pathFrom_succ, hp, hu]

theorem pathFrom_of_parent_eq_some {parent : α → Option α} {v p : α} (hp : parent v = some p)
    (fuel : Nat) : pathFrom parent (fuel + 1) v = v :: pathFrom parent fuel p := by
  simp [pathFrom_succ, hp]

theorem pathFrom_of_parent_eq_none {parent : α → Option α} {v : α} (hp : parent v = none)
    (fuel : Nat) : pathFrom parent (fuel + 1) v = [v] := by
  simp [pathFrom_succ, hp]

/-- A node without a parent ends every walk it is on. -/
theorem getLast?_pathFrom {parent : α → Option α} {fuel : Nat} {v u : α}
    (hu : u ∈ pathFrom parent fuel v) (hroot : parent u = none) :
    (pathFrom parent fuel v).getLast? = some u := by
  induction fuel generalizing v with
  | zero => simp at hu
  | succ fuel ih =>
    cases hp : parent v with
    | none =>
      rw [pathFrom_of_parent_eq_none hp] at hu ⊢
      simp_all
    | some p =>
      rw [pathFrom_of_parent_eq_some hp] at hu ⊢
      rcases List.mem_cons.1 hu with rfl | hu
      · simp [hp] at hroot
      · rw [List.getLast?_cons, ih hu]
        rfl

/-! ## Walks on a ranked forest

When the rank drops along every edge, a walk with more fuel than the rank of its start goes
all the way to the root, and its nodes are exactly the ancestors of the start: the nodes the
edge relation reaches from it. -/

section Ranked

variable {parent : α → Option α} {rank : α → Nat}

/-- `u` is `v` or an ancestor of `v`. -/
def IsAncestor (parent : α → Option α) (u v : α) : Prop :=
  Relation.ReflTransGen (fun a b => parent a = some b) v u

theorem IsAncestor.refl (v : α) : IsAncestor parent v v := Relation.ReflTransGen.refl

theorem IsAncestor.trans {u v w : α} (huv : IsAncestor parent u v) (hvw : IsAncestor parent v w) :
    IsAncestor parent u w :=
  Relation.ReflTransGen.trans hvw huv

theorem IsAncestor.up {u v p : α} (huv : IsAncestor parent u v) (hp : parent u = some p) :
    IsAncestor parent p v :=
  Relation.ReflTransGen.tail huv hp

theorem IsAncestor.of_parent {v p : α} (hp : parent v = some p) : IsAncestor parent p v :=
  Relation.ReflTransGen.single hp

theorem isAncestor_iff {u v : α} :
    IsAncestor parent u v ↔ v = u ∨ ∃ p, parent v = some p ∧ IsAncestor parent u p :=
  Relation.ReflTransGen.cases_head_iff

/-- A root is its only ancestor, and the walk from it is itself. -/
theorem mem_pathFrom_of_root {v : α} (hv : parent v = none) {fuel : Nat} (hfuel : 0 < fuel)
    (u : α) : u ∈ pathFrom parent fuel v ↔ IsAncestor parent u v := by
  obtain ⟨n, rfl⟩ := Nat.exists_eq_add_one_of_ne_zero (Nat.ne_of_gt hfuel)
  rw [pathFrom_of_parent_eq_none hv, List.mem_singleton, isAncestor_iff]
  simp [hv, eq_comm]

/-- Above a strict descendant of `u`, its parent is `u` or a descendant of `u`. -/
theorem IsAncestor.parent_of_ne {u v p : α} (h : IsAncestor parent u v) (hne : v ≠ u)
    (hp : parent v = some p) : IsAncestor parent u p := by
  rcases isAncestor_iff.1 h with rfl | ⟨q, hq, huq⟩
  · exact absurd rfl hne
  · rw [hp, Option.some.injEq] at hq
    exact hq ▸ huq

/-- Ranks do not rise on the way up. -/
theorem IsAncestor.rank_le (hrank : ∀ a b, parent a = some b → rank b < rank a) {u v : α}
    (h : IsAncestor parent u v) : rank u ≤ rank v := by
  induction h with
  | refl => exact Nat.le_refl _
  | tail _ hstep ih => exact Nat.le_of_lt (Nat.lt_of_lt_of_le (hrank _ _ hstep) ih)

/-- The ancestors of a node are linearly ordered by rank: an ancestor of equal rank is the
    node itself. -/
theorem IsAncestor.eq_of_rank_le (hrank : ∀ a b, parent a = some b → rank b < rank a)
    {u v : α} (h : IsAncestor parent u v) (hle : rank v ≤ rank u) : u = v := by
  rcases isAncestor_iff.1 h with rfl | ⟨p, hp, hup⟩
  · rfl
  · have hlt := Nat.lt_of_le_of_lt (hup.rank_le hrank) (hrank v p hp)
    omega

theorem IsAncestor.antisymm (hrank : ∀ a b, parent a = some b → rank b < rank a) {u v : α}
    (huv : IsAncestor parent u v) (hvu : IsAncestor parent v u) : u = v :=
  huv.eq_of_rank_le hrank (hvu.rank_le hrank)

/-- Cutting the forest above `g`: when the new parent edges are the old edges out of the
    strict descendants of `g`, a descendant of `g` has the same descendants as before. The
    nodes on the way up from a descendant `v` to `u` lie strictly below `u`, so strictly below
    `g`, and keep their edges. -/
theorem isAncestor_cut_iff (hrank : ∀ a b, parent a = some b → rank b < rank a)
    {parent' : α → Option α} {g : α}
    (hcut : ∀ a b, parent' a = some b ↔ parent a = some b ∧ IsAncestor parent g a ∧ a ≠ g)
    {u v : α} (hu : IsAncestor parent g u) :
    IsAncestor parent' u v ↔ IsAncestor parent u v := by
  constructor
  · intro h
    exact Relation.ReflTransGen.mono (fun a b hab => ((hcut a b).1 hab).1) _ _ h
  · intro h
    induction h using Relation.ReflTransGen.head_induction_on with
    | refl => exact IsAncestor.refl _
    | @head a c hstep hrest ih =>
      have hup : IsAncestor parent u a := Relation.ReflTransGen.head hstep hrest
      have hne : a ≠ g := by
        rintro rfl
        have h1 := hu.rank_le hrank
        have h2 := IsAncestor.rank_le hrank hrest
        have h3 := hrank a c hstep
        omega
      exact Relation.ReflTransGen.head ((hcut a c).2 ⟨hstep, hu.trans hup, hne⟩) ih

/-- A walk of `parent'` from a node of `S`, a set `parent'` does not leave, takes the steps of
    `parent` where the two agree on `S`. -/
theorem IsAncestor.of_agree {parent' : α → Option α} {S : α → Prop}
    (hagree : ∀ x, S x → parent' x = parent x) (hclosed : ∀ x p, S x → parent' x = some p → S p)
    {u v : α} (hv : S v) (h : IsAncestor parent' u v) : IsAncestor parent u v := by
  -- the walk stays in `S`, which is carried along it
  suffices IsAncestor parent u v ∧ S u from this.1
  induction h with
  | refl => exact ⟨IsAncestor.refl v, hv⟩
  | @tail b c _ hbc ih =>
    obtain ⟨hanc, hb⟩ := ih
    exact ⟨hanc.up ((hagree b hb).symm.trans hbc), hclosed b c hb hbc⟩

/-- Parent functions that agree on a set closed under taking parents give its nodes the same
    ancestors. -/
theorem isAncestor_congr {parent' : α → Option α} {S : α → Prop}
    (hagree : ∀ x, S x → parent' x = parent x) (hclosed : ∀ x p, S x → parent x = some p → S p)
    {u v : α} (hv : S v) : IsAncestor parent' u v ↔ IsAncestor parent u v :=
  ⟨IsAncestor.of_agree hagree (fun x p hx hp => hclosed x p hx ((hagree x hx).symm.trans hp)) hv,
    IsAncestor.of_agree (fun x hx => (hagree x hx).symm) hclosed hv⟩

theorem mem_pathFrom_iff (hrank : ∀ a b, parent a = some b → rank b < rank a) {fuel : Nat}
    {v : α} (hfuel : rank v < fuel) (u : α) :
    u ∈ pathFrom parent fuel v ↔ IsAncestor parent u v := by
  induction fuel generalizing v with
  | zero => omega
  | succ fuel ih =>
    rw [isAncestor_iff]
    cases hp : parent v with
    | none => simp [pathFrom_of_parent_eq_none hp, eq_comm]
    | some p =>
      have hfuel' : rank p < fuel := by have := hrank v p hp; omega
      simp [pathFrom_of_parent_eq_some hp, ih hfuel', eq_comm]

end Ranked

/-- The lowest common ancestor of `u` and `v` within `fuel` steps, `none` when the two paths
    do not meet (different trees). -/
def lca [DecidableEq α] (parent : α → Option α) (fuel : Nat) (u v : α) : Option α :=
  (pathFrom parent fuel v).find? (· ∈ pathFrom parent fuel u)

/-- The lca lies on both walks. -/
theorem lca_mem [DecidableEq α] {parent : α → Option α} {fuel : Nat} {u v w : α}
    (h : lca parent fuel u v = some w) :
    w ∈ pathFrom parent fuel v ∧ w ∈ pathFrom parent fuel u := by
  unfold lca at h
  exact ⟨List.mem_of_find?_eq_some h, by simpa using List.find?_some h⟩

end Forest
