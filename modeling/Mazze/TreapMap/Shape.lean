/-
  What `update_inner` keeps.

  `update_weight` only rewrites `sum_weight`, so up to it (`SumBlind` readings of a node)
  rotations keep the in-order traversal and `Node::delete` leaves the traversal of the two
  children. The walk to an updater's key splits the traversal into what lies before the slot it
  stops at, the slot, and what lies after (`descend`); `update_inner` changes the slot as
  `updateSlot` does and keeps the rest (`updateInner_toList`). It keeps the heap on priorities
  for an updater that leaves priorities alone (`updateInner_isHeap`), and every `sum_weight`
  for one that also flags each weight it changes (`updateInner_sumOk`).
-/
import Mazze.TreapMap.Node

namespace Mazze.Treap

open BinaryTree

variable {κ σ V W : Type}

section Weight

variable [ConsoliableWeight W]

@[simp] theorem updateWeight_toNodeFields (n : Node κ σ V W) (l r : MaybeNode κ σ V W) :
    (n.updateWeight l r).toNodeFields = n.toNodeFields := rfl

@[simp] theorem updateWeight_priority (n : Node κ σ V W) (l r : MaybeNode κ σ V W) :
    (n.updateWeight l r).priority = n.priority := rfl

@[simp] theorem updateWeight_weight (n : Node κ σ V W) (l r : MaybeNode κ σ V W) :
    (n.updateWeight l r).weight = n.weight := rfl

@[simp] theorem updateWeight_updateWeight (n : Node κ σ V W) (l r l' r' : MaybeNode κ σ V W) :
    (n.updateWeight l r).updateWeight l' r' = n.updateWeight l' r' := rfl

end Weight

/-! ## Readings that do not look at `sum_weight` -/

/-- A reading of a node that does not look at `sum_weight`. -/
def SumBlind {β : Type} (f : Node κ σ V W → β) : Prop :=
  ∀ n w, f { n with sumWeight := w } = f n

theorem sumBlind_toNodeFields : SumBlind (Node.toNodeFields : Node κ σ V W → _) :=
  fun _ _ => rfl

theorem sumBlind_priority : SumBlind (Node.priority : Node κ σ V W → Nat) :=
  fun _ _ => rfl

section Blind

variable [ConsoliableWeight W] {β : Type} {f : Node κ σ V W → β}

theorem SumBlind.updateWeight (hf : SumBlind f) (n : Node κ σ V W) (l r : MaybeNode κ σ V W) :
    f (n.updateWeight l r) = f n :=
  hf n _

theorem map_toList_withWeight (hf : SumBlind f) (n : Node κ σ V W) (l r : MaybeNode κ σ V W) :
    (withWeight n l r).toList.map f = (node n l r).toList.map f := by
  simp [withWeight, hf.updateWeight]

theorem map_toList_reweigh (hf : SumBlind f) (t : MaybeNode κ σ V W) :
    (reweigh t).toList.map f = t.toList.map f := by
  cases t with
  | nil => rfl
  | node n l r => exact map_toList_withWeight hf n l r

theorem map_toList_rightRotate (hf : SumBlind f) (y x : Node κ σ V W) (a b c : MaybeNode κ σ V W) :
    (rightRotate y x a b c).toList.map f = (node y (node x a b) c).toList.map f := by
  simp [rightRotate, withWeight, hf.updateWeight]

theorem map_toList_leftRotate (hf : SumBlind f) (x y : Node κ σ V W) (a b c : MaybeNode κ σ V W) :
    (leftRotate x y a b c).toList.map f = (node x a (node y b c)).toList.map f := by
  simp [leftRotate, withWeight, hf.updateWeight]

/-- Deleting a node leaves the traversal of its two children, and takes out the node itself. -/
theorem map_toList_delete (hf : SumBlind f) (n : Node κ σ V W) (l r : MaybeNode κ σ V W) :
    (delete n l r).1.toList.map f = (l.toList ++ r.toList).map f ∧ f (delete n l r).2 = f n := by
  refine delete.induct
    (fun n l r => (delete n l r).1.toList.map f = (l.toList ++ r.toList).map f ∧
      f (delete n l r).2 = f n)
    (fun n x a b r => (deleteLeft n x a b r).1.toList.map f =
      ((node x a b).toList ++ r.toList).map f ∧ f (deleteLeft n x a b r).2 = f n)
    (fun n l y b c => (deleteRight n l y b c).1.toList.map f =
      (l.toList ++ (node y b c).toList).map f ∧ f (deleteRight n l y b c).2 = f n)
    ?_ ?_ ?_ ?_ ?_ ?_ ?_ n l r
  · intro n
    simp [delete]
  · intro n y b c ih
    rwa [delete.eq_2]
  · intro n x a b ih
    rwa [delete.eq_3]
  · intro n x a b y c d hxy ih
    rwa [delete.eq_4, if_pos hxy]
  · intro n x a b y c d hxy ih
    rwa [delete.eq_4, if_neg hxy]
  · -- `right_rotate`, then the node goes down the new right child
    intro n x a b r n' r' d hd ih
    simp only [n'] at hd ih
    rw [deleteLeft.eq_1, hd]
    rw [hd] at ih
    refine ⟨?_, ih.2.trans (hf.updateWeight n b r)⟩
    simp only [map_toList_withWeight hf, toList_node, List.map_append, List.map_cons,
      hf.updateWeight] at ih ⊢
    rw [ih.1]
    simp
  · intro n l y b c x l' d hd ih
    simp only [x] at hd ih
    rw [deleteRight.eq_1, hd]
    rw [hd] at ih
    refine ⟨?_, ih.2.trans (hf.updateWeight n l b)⟩
    simp only [map_toList_withWeight hf, toList_node, List.map_append, List.map_cons,
      hf.updateWeight] at ih ⊢
    rw [ih.1]
    simp

theorem length_toList_delete (n : Node κ σ V W) (l r : MaybeNode κ σ V W) :
    (delete n l r).1.numNodes = l.numNodes + r.numNodes := by
  have h := congrArg List.length (map_toList_delete sumBlind_toNodeFields n l r).1
  simpa using h

end Blind

/-! ## The heap on priorities -/

/-- The priorities below the root, bounded. -/
def ChildrenBelow (b : Nat) : MaybeNode κ σ V W → Prop
  | nil => True
  | node _ l r => (∀ x ∈ l.toList, x.priority ≤ b) ∧ (∀ x ∈ r.toList, x.priority ≤ b)

theorem childrenBelow_of_forall {b : Nat} {t : MaybeNode κ σ V W}
    (h : ∀ x ∈ t.toList, x.priority ≤ b) : ChildrenBelow b t := by
  cases t with
  | nil => trivial
  | node n l r =>
    simp only [toList_node, List.mem_append, List.mem_cons] at h
    exact ⟨fun x hx => h x (.inl hx), fun x hx => h x (.inr (.inr hx))⟩

/-- The priorities of a tree are those of a list it is a rearrangement of, up to `sum_weight`. -/
theorem forall_priority_of_map_eq {t : MaybeNode κ σ V W} {xs : List (Node κ σ V W)} {p : Nat → Prop}
    (heq : t.toList.map Node.priority = xs.map Node.priority) (h : ∀ x ∈ xs, p x.priority) :
    ∀ x ∈ t.toList, p x.priority := by
  rw [← List.forall_mem_map (P := p), heq, List.forall_mem_map]
  exact h

variable [ConsoliableWeight W]

theorem isHeap_withWeight_iff (n : Node κ σ V W) (l r : MaybeNode κ σ V W) :
    IsHeap Node.priority (withWeight n l r) ↔ IsHeap Node.priority (node n l r) := Iff.rfl

/-- Deleting a node from between two heaps leaves a heap: the child rotated up is the one of
    higher priority. -/
theorem isHeap_delete (n : Node κ σ V W) (l r : MaybeNode κ σ V W) (hl : IsHeap Node.priority l)
    (hr : IsHeap Node.priority r) : IsHeap Node.priority (delete n l r).1 := by
  refine delete.induct
    (fun n l r => IsHeap Node.priority l → IsHeap Node.priority r →
      IsHeap Node.priority (delete n l r).1)
    (fun n x a b r => IsHeap Node.priority (node x a b) → IsHeap Node.priority r →
      (∀ z ∈ r.toList, z.priority ≤ x.priority) → IsHeap Node.priority (deleteLeft n x a b r).1)
    (fun n l y b c => IsHeap Node.priority l → IsHeap Node.priority (node y b c) →
      (∀ z ∈ l.toList, z.priority ≤ y.priority) → IsHeap Node.priority (deleteRight n l y b c).1)
    ?_ ?_ ?_ ?_ ?_ ?_ ?_ n l r hl hr
  · intro n _ _
    simp [delete]
  · intro n y b c ih hl hr
    rw [delete.eq_2]
    exact ih hl hr (by simp)
  · intro n x a b ih hl hr
    rw [delete.eq_3]
    exact ih hl hr (by simp)
  · -- the right child has the higher priority and goes up
    intro n x a b y c d hxy ih hl hr
    rw [delete.eq_4, if_pos hxy]
    exact ih hl hr fun z hz => (hl.le_of_root_le (Nat.le_of_lt hxy)) z hz
  · intro n x a b y c d hxy ih hl hr
    rw [delete.eq_4, if_neg hxy]
    exact ih hl hr fun z hz => (hr.le_of_root_le (Nat.le_of_not_lt hxy)) z hz
  · intro n x a b r n' r' d hd ih hl hr hrx
    simp only [n'] at hd ih
    rw [deleteLeft.eq_1, hd]
    rw [hd] at ih
    obtain ⟨hax, hbx, ha, hb⟩ := hl
    have hr' : ∀ z ∈ r'.toList, z.priority ≤ x.priority := by
      have heq := (map_toList_delete sumBlind_priority (n.updateWeight b r) b r).1
      simp only [hd] at heq
      refine forall_priority_of_map_eq (p := (· ≤ x.priority)) heq fun z hz => ?_
      rcases List.mem_append.mp hz with hz | hz
      · exact hbx z hz
      · exact hrx z hz
    exact ⟨hax, hr', ha, ih hb hr⟩
  · intro n l y b c x l' d hd ih hl hr hly
    simp only [x] at hd ih
    rw [deleteRight.eq_1, hd]
    rw [hd] at ih
    obtain ⟨hby, hcy, hb, hc⟩ := hr
    have hl' : ∀ z ∈ l'.toList, z.priority ≤ y.priority := by
      have heq := (map_toList_delete sumBlind_priority (n.updateWeight l b) l b).1
      simp only [hd] at heq
      refine forall_priority_of_map_eq (p := (· ≤ y.priority)) heq fun z hz => ?_
      rcases List.mem_append.mp hz with hz | hz
      · exact hly z hz
      · exact hby z hz
    exact ⟨hl', hcy, ih hl hb, hc⟩

/-! ## `sum_weight` -/

/-- Every node's `sum_weight` is what `update_weight` would make of it. -/
def SumOk : MaybeNode κ σ V W → Prop
  | nil => True
  | node n l r => n.sumWeight = accureChild (accureChild n.weight l) r ∧ SumOk l ∧ SumOk r

@[simp] theorem sumOk_nil : SumOk (nil : MaybeNode κ σ V W) := trivial

@[simp] theorem sumOk_withWeight (n : Node κ σ V W) (l r : MaybeNode κ σ V W) :
    SumOk (withWeight n l r) ↔ SumOk l ∧ SumOk r := by
  simp [withWeight, SumOk, Node.updateWeight]

theorem SumOk.reweigh {t : MaybeNode κ σ V W} (h : SumOk t) : SumOk (reweigh t) := by
  cases t with
  | nil => trivial
  | node n l r => exact (sumOk_withWeight n l r).mpr ⟨h.2.1, h.2.2⟩

theorem sumOk_delete (n : Node κ σ V W) (l r : MaybeNode κ σ V W) (hl : SumOk l) (hr : SumOk r) :
    SumOk (delete n l r).1 := by
  refine delete.induct
    (fun n l r => SumOk l → SumOk r → SumOk (delete n l r).1)
    (fun n x a b r => SumOk (node x a b) → SumOk r → SumOk (deleteLeft n x a b r).1)
    (fun n l y b c => SumOk l → SumOk (node y b c) → SumOk (deleteRight n l y b c).1)
    ?_ ?_ ?_ ?_ ?_ ?_ ?_ n l r hl hr
  · intro n _ _
    simp [delete]
  · intro n y b c ih hl hr
    rw [delete.eq_2]
    exact ih hl hr
  · intro n x a b ih hl hr
    rw [delete.eq_3]
    exact ih hl hr
  · intro n x a b y c d hxy ih hl hr
    rw [delete.eq_4, if_pos hxy]
    exact ih hl hr
  · intro n x a b y c d hxy ih hl hr
    rw [delete.eq_4, if_neg hxy]
    exact ih hl hr
  · intro n x a b r n' r' d hd ih hl hr
    simp only [n'] at hd ih
    rw [deleteLeft.eq_1, hd]
    rw [hd] at ih
    exact (sumOk_withWeight _ _ _).mpr ⟨hl.2.1, ih hl.2.2 hr⟩
  · intro n l y b c x l' d hd ih hl hr
    simp only [x] at hd ih
    rw [deleteRight.eq_1, hd]
    rw [hd] at ih
    exact (sumOk_withWeight _ _ _).mpr ⟨ih hl hr.2.1, hr.2.2⟩

theorem isHeap_reweigh {t : MaybeNode κ σ V W} :
    IsHeap Node.priority (reweigh t) ↔ IsHeap Node.priority t := by
  cases t with
  | nil => exact Iff.rfl
  | node n l r => exact Iff.rfl

/-! ## One step of `update_inner` at its slot -/

section Slot

variable {ε R DR : Type} {u : TreapNodeUpdate κ σ V W ε R DR}

@[simp] theorem deleteSlot_nil : deleteSlot (nil : MaybeNode κ σ V W) = (nil, none) := rfl

@[simp] theorem deleteSlot_node (n : Node κ σ V W) (l r : MaybeNode κ σ V W) :
    deleteSlot (node n l r) = ((delete n l r).1, some (delete n l r).2) := rfl

/-- What `process_update_result` can do: keep the slot (`Noop`, `Updated`), put a new leaf in it,
    or delete its node. -/
theorem processUpdateResult_eq_some {t t' : MaybeNode κ σ V W} {res : OpResult κ σ V W R DR}
    {ret : R} {uw up : Bool} (h : processUpdateResult u t res = some (t', ret, uw, up)) :
    (t' = t ∧ up = false ∧ (res = .noop ret ∧ uw = false ∨ res = .updated uw ret)) ∨
    (∃ ins, res = .insertOnVacant ins ret ∧ t' = node ins nil nil ∧ uw = true ∧ up = true) ∨
    (∃ dr, res = .delete dr ∧ u.handleDelete (deleteSlot t).2 dr = some ret ∧
      t' = (deleteSlot t).1 ∧ uw = true ∧ up = true) := by
  cases res with
  | noop ret' =>
    simp only [processUpdateResult, Option.some.injEq, Prod.mk.injEq] at h
    obtain ⟨rfl, rfl, rfl, rfl⟩ := h
    exact .inl ⟨rfl, rfl, .inl ⟨rfl, rfl⟩⟩
  | updated uw' ret' =>
    simp only [processUpdateResult, Option.some.injEq, Prod.mk.injEq] at h
    obtain ⟨rfl, rfl, rfl, rfl⟩ := h
    exact .inl ⟨rfl, rfl, .inr rfl⟩
  | insertOnVacant ins ret' =>
    simp only [processUpdateResult, Option.some.injEq, Prod.mk.injEq] at h
    obtain ⟨rfl, rfl, rfl, rfl⟩ := h
    exact .inr (.inl ⟨ins, rfl, rfl, rfl, rfl⟩)
  | delete dr =>
    simp only [processUpdateResult, Option.map_eq_some_iff, Prod.mk.injEq] at h
    obtain ⟨ret', hd, rfl, rfl, rfl, rfl⟩ := h
    exact .inr (.inr ⟨dr, rfl, hd, rfl, rfl, rfl⟩)

theorem updateSlot_eq_some {t t' : MaybeNode κ σ V W} {e e' : ε} {ret : R} {uw up : Bool}
    (h : updateSlot u t e = some (t', e', ret, uw, up)) :
    ∃ t₀ res t₁, updateNodeAt u t e = some (t₀, e', res) ∧
      processUpdateResult u t₀ res = some (t₁, ret, uw, up) ∧
      t' = if uw then reweigh t₁ else t₁ := by
  simp only [updateSlot, Option.bind_eq_bind, Option.bind_eq_some_iff, Option.pure_def,
    Option.some.injEq] at h
  obtain ⟨⟨t₀, e₀, res⟩, h₀, ⟨t₁, ret₁, uw₁, up₁⟩, h₁, heq⟩ := h
  simp only [Prod.mk.injEq] at heq
  obtain ⟨rfl, rfl, rfl, rfl, rfl⟩ := heq
  exact ⟨t₀, res, t₁, h₀, h₁, rfl⟩

omit [ConsoliableWeight W] in
/-- `update_node` on a node leaves its children where they are. -/
theorem updateNodeAt_node {n : Node κ σ V W} {l r t₀ : MaybeNode κ σ V W} {e e' : ε}
    {res : OpResult κ σ V W R DR} (h : updateNodeAt u (node n l r) e = some (t₀, e', res)) :
    ∃ n', u.updateOccupied n e = some (n', e', res) ∧ t₀ = node n' l r := by
  simp only [updateNodeAt, Option.map_eq_some_iff, Prod.mk.injEq] at h
  obtain ⟨⟨n', e₁, res₁⟩, hn, rfl, rfl, rfl⟩ := h
  exact ⟨n', hn, rfl⟩

omit [ConsoliableWeight W] in
theorem updateNodeAt_nil {t₀ : MaybeNode κ σ V W} {e e' : ε} {res : OpResult κ σ V W R DR}
    (h : updateNodeAt u nil e = some (t₀, e', res)) :
    u.updateVacant e = some (e', res) ∧ t₀ = nil := by
  simp only [updateNodeAt, Option.map_eq_some_iff, Prod.mk.injEq] at h
  obtain ⟨⟨e₁, res₁⟩, hv, rfl, rfl, rfl⟩ := h
  exact ⟨hv, rfl⟩

end Slot

/-! ## The walk of `update_inner` -/

/-- The walk of `update_inner` to the key `k`: the nodes of the traversal before the slot it
    stops at, that slot, and the nodes after it. -/
def descend (nextNodeDir : σ × κ → σ × κ → Option Direction) (k : σ × κ) :
    MaybeNode κ σ V W → List (Node κ σ V W) × MaybeNode κ σ V W × List (Node κ σ V W)
  | nil => ([], nil, [])
  | node n l r =>
    match nextNodeDir k n.treapKey with
    | none => ([], node n l r, [])
    | some .left =>
      let (before, slot, after) := descend nextNodeDir k l
      (before, slot, after ++ n :: r.toList)
    | some .right =>
      let (before, slot, after) := descend nextNodeDir k r
      (l.toList ++ n :: before, slot, after)

omit [ConsoliableWeight W] in
theorem toList_descend (nextNodeDir : σ × κ → σ × κ → Option Direction) (k : σ × κ)
    (t : MaybeNode κ σ V W) :
    t.toList = (descend nextNodeDir k t).1 ++ (descend nextNodeDir k t).2.1.toList ++
      (descend nextNodeDir k t).2.2 := by
  induction t with
  | nil => rfl
  | node n l r ihl ihr =>
    simp only [descend]
    split
    · simp
    · rw [toList_node, ihl]
      simp
    · rw [toList_node, ihr]
      simp

section Walk

variable {ε R DR : Type} {nextNodeDir : σ × κ → σ × κ → Option Direction}
  {u : TreapNodeUpdate κ σ V W ε R DR}

theorem updateInner_here {n : Node κ σ V W} {l r : MaybeNode κ σ V W} {e : ε}
    (hd : nextNodeDir u.treapKey n.treapKey = none) :
    updateInner nextNodeDir u (node n l r) e = updateSlot u (node n l r) e := by
  simp [updateInner, hd]

theorem updateInner_left {n : Node κ σ V W} {l r t' : MaybeNode κ σ V W} {e e' : ε} {ret : R}
    {uw up : Bool} (hd : nextNodeDir u.treapKey n.treapKey = some .left)
    (h : updateInner nextNodeDir u (node n l r) e = some (t', e', ret, uw, up)) :
    ∃ l' up₀, updateInner nextNodeDir u l e = some (l', e', ret, uw, up₀) ∧
      (t', up) = rebalanceLeft (if uw then n.updateWeight l' r else n) l' r up₀ := by
  simp only [updateInner, hd, Option.bind_eq_bind, Option.bind_eq_some_iff, Option.pure_def,
    Option.some.injEq] at h
  obtain ⟨⟨l', e₁, ret₁, uw₁, up₁⟩, hl, heq⟩ := h
  simp only [Prod.mk.injEq] at heq
  obtain ⟨ht, rfl, rfl, rfl, hup⟩ := heq
  exact ⟨l', up₁, hl, by rw [← ht, ← hup]⟩

theorem updateInner_right {n : Node κ σ V W} {l r t' : MaybeNode κ σ V W} {e e' : ε} {ret : R}
    {uw up : Bool} (hd : nextNodeDir u.treapKey n.treapKey = some .right)
    (h : updateInner nextNodeDir u (node n l r) e = some (t', e', ret, uw, up)) :
    ∃ r' up₀, updateInner nextNodeDir u r e = some (r', e', ret, uw, up₀) ∧
      (t', up) = rebalanceRight (if uw then n.updateWeight l r' else n) l r' up₀ := by
  simp only [updateInner, hd, Option.bind_eq_bind, Option.bind_eq_some_iff, Option.pure_def,
    Option.some.injEq] at h
  obtain ⟨⟨r', e₁, ret₁, uw₁, up₁⟩, hr, heq⟩ := h
  simp only [Prod.mk.injEq] at heq
  obtain ⟨ht, rfl, rfl, rfl, hup⟩ := heq
  exact ⟨r', up₁, hr, by rw [← ht, ← hup]⟩

theorem map_toList_rebalanceLeft {β : Type} {f : Node κ σ V W → β} (hf : SumBlind f)
    (n : Node κ σ V W) (l r : MaybeNode κ σ V W) (up : Bool) :
    (rebalanceLeft n l r up).1.toList.map f = (node n l r).toList.map f := by
  unfold rebalanceLeft
  split
  · split
    · exact map_toList_rightRotate hf _ _ _ _ _
    · rfl
  · rfl

theorem map_toList_rebalanceRight {β : Type} {f : Node κ σ V W → β} (hf : SumBlind f)
    (n : Node κ σ V W) (l r : MaybeNode κ σ V W) (up : Bool) :
    (rebalanceRight n l r up).1.toList.map f = (node n l r).toList.map f := by
  unfold rebalanceRight
  split
  · split
    · exact map_toList_leftRotate hf _ _ _ _ _
    · rfl
  · rfl

/-- `update_inner` changes the slot its walk stops at as `updateSlot` does, and keeps the rest
    of the traversal: the rotations on the way back move nodes but not their order. -/
theorem updateInner_toList {β : Type} {f : Node κ σ V W → β} (hf : SumBlind f)
    {t t' : MaybeNode κ σ V W} {e e' : ε} {ret : R} {uw up : Bool}
    (h : updateInner nextNodeDir u t e = some (t', e', ret, uw, up)) :
    ∃ s up', updateSlot u (descend nextNodeDir u.treapKey t).2.1 e = some (s, e', ret, uw, up') ∧
      t'.toList.map f = ((descend nextNodeDir u.treapKey t).1 ++ s.toList ++
        (descend nextNodeDir u.treapKey t).2.2).map f := by
  induction t generalizing t' e e' ret uw up with
  | nil => exact ⟨t', up, h, by simp [descend]⟩
  | node n l r ihl ihr =>
    cases hd : nextNodeDir u.treapKey n.treapKey with
    | none =>
      rw [updateInner_here hd] at h
      exact ⟨t', up, by simpa [descend, hd] using h, by simp [descend, hd]⟩
    | some dir =>
      cases dir with
      | left =>
        obtain ⟨l', up₀, hl, ht⟩ := updateInner_left hd h
        obtain ⟨s, up', hs, hls⟩ := ihl hl
        refine ⟨s, up', by simpa [descend, hd] using hs, ?_⟩
        have ht' : t' = (rebalanceLeft (if uw then n.updateWeight l' r else n) l' r up₀).1 := by
          rw [← ht]
        rw [ht', map_toList_rebalanceLeft hf]
        simp only [toList_node, List.map_append, List.map_cons, hls, descend, hd]
        split <;> simp [hf.updateWeight]
      | right =>
        obtain ⟨r', up₀, hr, ht⟩ := updateInner_right hd h
        obtain ⟨s, up', hs, hrs⟩ := ihr hr
        refine ⟨s, up', by simpa [descend, hd] using hs, ?_⟩
        have ht' : t' = (rebalanceRight (if uw then n.updateWeight l r' else n) l r' up₀).1 := by
          rw [← ht]
        rw [ht', map_toList_rebalanceRight hf]
        simp only [toList_node, List.map_append, List.map_cons, hrs, descend, hd]
        split <;> simp [hf.updateWeight]

/-- The walk itself never panics: `update_inner` returns whenever the updater does at the
    slot the walk stops at. -/
theorem updateInner_isSome {t : MaybeNode κ σ V W} {e : ε}
    (h : (updateSlot u (descend nextNodeDir u.treapKey t).2.1 e).isSome) :
    (updateInner nextNodeDir u t e).isSome := by
  induction t generalizing e with
  | nil => simpa [descend, updateInner] using h
  | node n l r ihl ihr =>
    cases hd : nextNodeDir u.treapKey n.treapKey with
    | none =>
      rw [updateInner_here hd]
      simpa [descend, hd] using h
    | some dir =>
      cases dir with
      | left =>
        obtain ⟨⟨l', e', ret, uw, up⟩, hl⟩ :=
          Option.isSome_iff_exists.mp (ihl (by simpa [descend, hd] using h))
        simp [updateInner, hd, hl]
      | right =>
        obtain ⟨⟨r', e', ret, uw, up⟩, hr⟩ :=
          Option.isSome_iff_exists.mp (ihr (by simpa [descend, hd] using h))
        simp [updateInner, hd, hr]

end Walk

/-! ## What `update_inner` keeps -/

/-- What every updater of the crate leaves alone on the node it reaches: the priority and
    `sum_weight` (private to the crate) and, unless it reports `update_weight`, the weight. -/
structure KeepsNode {ε R DR : Type} (u : TreapNodeUpdate κ σ V W ε R DR) : Prop where
  priority : ∀ {n e n' e' res}, u.updateOccupied n e = some (n', e', res) →
    n'.priority = n.priority
  sumWeight : ∀ {n e n' e' res}, u.updateOccupied n e = some (n', e', res) →
    n'.sumWeight = n.sumWeight
  weight : ∀ {n e n' e' ret}, (u.updateOccupied n e = some (n', e', .noop ret) ∨
    u.updateOccupied n e = some (n', e', .updated false ret)) → n'.weight = n.weight

section Keeps

variable {ε R DR : Type} {nextNodeDir : σ × κ → σ × κ → Option Direction}
  {u : TreapNodeUpdate κ σ V W ε R DR}

theorem isHeap_deleteSlot {t : MaybeNode κ σ V W} (h : IsHeap Node.priority t) :
    IsHeap Node.priority (deleteSlot t).1 := by
  cases t with
  | nil => trivial
  | node n l r => exact isHeap_delete n l r h.2.2.1 h.2.2.2

theorem deleteSlot_priority_le {t : MaybeNode κ σ V W} {b : Nat} (h : ∀ x ∈ t.toList, x.priority ≤ b) :
    ∀ x ∈ (deleteSlot t).1.toList, x.priority ≤ b := by
  cases t with
  | nil => simp
  | node n l r =>
    rw [forall_mem_toList_node] at h
    refine forall_priority_of_map_eq (p := (· ≤ b))
      (map_toList_delete sumBlind_priority n l r).1 fun x hx => ?_
    rcases List.mem_append.mp hx with hx | hx
    exacts [h.1 x hx, h.2.2 x hx]

theorem reweigh_priority_le {t : MaybeNode κ σ V W} {b : Nat} (h : ∀ x ∈ t.toList, x.priority ≤ b) :
    ∀ x ∈ (reweigh t).toList, x.priority ≤ b :=
  forall_priority_of_map_eq (p := (· ≤ b)) (map_toList_reweigh sumBlind_priority t) h

/-- At its slot `update_inner` leaves a heap. It passes `update_priority` up only when it put
    a new leaf there or deleted, and then everything below the new root is within the bound
    the old slot was in; otherwise the whole slot still is. -/
theorem updateSlot_isHeap (hu : KeepsNode u) {t t' : MaybeNode κ σ V W} {e e' : ε} {ret : R}
    {uw up : Bool} {b : Nat} (hh : IsHeap Node.priority t) (hb : ∀ x ∈ t.toList, x.priority ≤ b)
    (h : updateSlot u t e = some (t', e', ret, uw, up)) :
    IsHeap Node.priority t' ∧ (up = false → ∀ x ∈ t'.toList, x.priority ≤ b) ∧
      (up = true → ChildrenBelow b t') := by
  obtain ⟨t₀, res, t₁, h₀, h₁, rfl⟩ := updateSlot_eq_some h
  -- the updater leaves the priorities of the slot as they were
  have ht₀ : IsHeap Node.priority t₀ ∧ ∀ x ∈ t₀.toList, x.priority ≤ b := by
    cases t with
    | nil =>
      obtain ⟨-, rfl⟩ := updateNodeAt_nil h₀
      simp
    | node n l r =>
      obtain ⟨n', hn, rfl⟩ := updateNodeAt_node h₀
      have hp := hu.priority hn
      rw [forall_mem_toList_node] at hb ⊢
      simp only [isHeap_node, hp] at hh ⊢
      exact ⟨hh, hb.1, hp ▸ hb.2.1, hb.2.2⟩
  rcases processUpdateResult_eq_some h₁ with ⟨rfl, rfl, -⟩ | ⟨ins, -, rfl, rfl, rfl⟩ |
    ⟨dr, -, -, rfl, rfl, rfl⟩
  · refine ⟨?_, fun _ => ?_, by simp⟩
    · split
      · exact isHeap_reweigh.mpr ht₀.1
      · exact ht₀.1
    · split
      · exact reweigh_priority_le ht₀.2
      · exact ht₀.2
  · exact ⟨by simp [reweigh, withWeight], by simp, fun _ => by simp [reweigh, withWeight, ChildrenBelow]⟩
  · refine ⟨isHeap_reweigh.mpr (isHeap_deleteSlot ht₀.1), by simp, fun _ => ?_⟩
    exact childrenBelow_of_forall (reweigh_priority_le (deleteSlot_priority_le ht₀.2))

/-- The priority step of `update_inner` after going left at `n`: rotating a child of higher
    priority up keeps the heap, and otherwise `n` is above its new child. -/
theorem isHeap_rebalanceLeft {n : Node κ σ V W} {l r : MaybeNode κ σ V W} {up : Bool} {b : Nat}
    (hl : IsHeap Node.priority l) (hr : IsHeap Node.priority r)
    (hrn : ∀ x ∈ r.toList, x.priority ≤ n.priority) (hnb : n.priority ≤ b)
    (hdown : up = false → ∀ x ∈ l.toList, x.priority ≤ n.priority)
    (hup : up = true → ChildrenBelow n.priority l) :
    IsHeap Node.priority (rebalanceLeft n l r up).1 ∧
      ((rebalanceLeft n l r up).2 = false →
        ∀ x ∈ (rebalanceLeft n l r up).1.toList, x.priority ≤ b) ∧
      ((rebalanceLeft n l r up).2 = true → ChildrenBelow b (rebalanceLeft n l r up).1) := by
  have hrb : ∀ x ∈ r.toList, x.priority ≤ b := fun x hx => (hrn x hx).trans hnb
  cases up with
  | false =>
    have hln := hdown rfl
    refine ⟨⟨hln, hrn, hl, hr⟩, fun _ => ?_, by simp [rebalanceLeft]⟩
    exact (forall_mem_toList_node _ _ _).mpr ⟨fun x hx => (hln x hx).trans hnb, hnb, hrb⟩
  | true =>
    cases l with
    | nil =>
      refine ⟨⟨by simp, hrn, trivial, hr⟩, fun _ => ?_, by simp [rebalanceLeft]⟩
      exact (forall_mem_toList_node _ _ _).mpr ⟨by simp, hnb, hrb⟩
    | node x a c =>
      have ⟨hax, hcx, ha, hc⟩ := hl
      obtain ⟨han, hcn⟩ := hup rfl
      by_cases hnx : n.priority < x.priority
      · -- `x` goes above `n`, which takes `x`'s right child
        simp only [rebalanceLeft, hnx, if_true]
        refine ⟨⟨hax, ?_, ha, hcn, hrn, hc, hr⟩, by simp, fun _ => ⟨?_, ?_⟩⟩
        · exact (forall_mem_toList_node _ _ _).mpr ⟨hcx, Nat.le_of_lt hnx,
            fun z hz => ((hrn z hz).trans (Nat.le_of_lt hnx))⟩
        · exact fun z hz => (han z hz).trans hnb
        · exact (forall_mem_toList_node _ _ _).mpr
            ⟨fun z hz => (hcn z hz).trans hnb, hnb, hrb⟩
      · have hxn : x.priority ≤ n.priority := Nat.le_of_not_lt hnx
        have hln : ∀ z ∈ (node x a c).toList, z.priority ≤ n.priority := hl.le_of_root_le hxn
        simp only [rebalanceLeft, hnx, if_false]
        refine ⟨⟨hln, hrn, hl, hr⟩, fun _ => ?_, by simp⟩
        exact (forall_mem_toList_node _ _ _).mpr ⟨fun z hz => (hln z hz).trans hnb, hnb, hrb⟩

theorem isHeap_rebalanceRight {n : Node κ σ V W} {l r : MaybeNode κ σ V W} {up : Bool} {b : Nat}
    (hl : IsHeap Node.priority l) (hr : IsHeap Node.priority r)
    (hln : ∀ x ∈ l.toList, x.priority ≤ n.priority) (hnb : n.priority ≤ b)
    (hdown : up = false → ∀ x ∈ r.toList, x.priority ≤ n.priority)
    (hup : up = true → ChildrenBelow n.priority r) :
    IsHeap Node.priority (rebalanceRight n l r up).1 ∧
      ((rebalanceRight n l r up).2 = false →
        ∀ x ∈ (rebalanceRight n l r up).1.toList, x.priority ≤ b) ∧
      ((rebalanceRight n l r up).2 = true → ChildrenBelow b (rebalanceRight n l r up).1) := by
  have hlb : ∀ x ∈ l.toList, x.priority ≤ b := fun x hx => (hln x hx).trans hnb
  cases up with
  | false =>
    have hrn := hdown rfl
    refine ⟨⟨hln, hrn, hl, hr⟩, fun _ => ?_, by simp [rebalanceRight]⟩
    exact (forall_mem_toList_node _ _ _).mpr ⟨hlb, hnb, fun x hx => (hrn x hx).trans hnb⟩
  | true =>
    cases r with
    | nil =>
      refine ⟨⟨hln, by simp, hl, trivial⟩, fun _ => ?_, by simp [rebalanceRight]⟩
      exact (forall_mem_toList_node _ _ _).mpr ⟨hlb, hnb, by simp⟩
    | node y c d =>
      have ⟨hcy, hdy, hc, hd⟩ := hr
      obtain ⟨hcn, hdn⟩ := hup rfl
      by_cases hny : n.priority < y.priority
      · -- `y` goes above `n`, which takes `y`'s left child
        simp only [rebalanceRight, hny, if_true]
        refine ⟨⟨?_, hdy, ⟨hln, hcn, hl, hc⟩, hd⟩, by simp, fun _ => ⟨?_, ?_⟩⟩
        · exact (forall_mem_toList_node _ _ _).mpr
            ⟨fun z hz => (hln z hz).trans (Nat.le_of_lt hny), Nat.le_of_lt hny, hcy⟩
        · exact (forall_mem_toList_node _ _ _).mpr
            ⟨hlb, hnb, fun z hz => (hcn z hz).trans hnb⟩
        · exact fun z hz => (hdn z hz).trans hnb
      · have hyn : y.priority ≤ n.priority := Nat.le_of_not_lt hny
        have hrn : ∀ z ∈ (node y c d).toList, z.priority ≤ n.priority := hr.le_of_root_le hyn
        simp only [rebalanceRight, hny, if_false]
        refine ⟨⟨hln, hrn, hl, hr⟩, fun _ => ?_, by simp⟩
        exact (forall_mem_toList_node _ _ _).mpr ⟨hlb, hnb, fun z hz => (hrn z hz).trans hnb⟩

/-- `update_inner` keeps the heap on priorities. The induction carries a bound on the slot's
    priorities: what comes back without `update_priority` stays within it, what comes back with
    it may have a new root above it but nothing else. -/
theorem updateInner_isHeap (hu : KeepsNode u) {t t' : MaybeNode κ σ V W} {e e' : ε} {ret : R}
    {uw up : Bool} {b : Nat} (hh : IsHeap Node.priority t) (hb : ∀ x ∈ t.toList, x.priority ≤ b)
    (h : updateInner nextNodeDir u t e = some (t', e', ret, uw, up)) :
    IsHeap Node.priority t' ∧ (up = false → ∀ x ∈ t'.toList, x.priority ≤ b) ∧
      (up = true → ChildrenBelow b t') := by
  induction t generalizing t' e e' ret uw up b with
  | nil => exact updateSlot_isHeap hu hh hb h
  | node n l r ihl ihr =>
    have hnb : n.priority ≤ b := ((forall_mem_toList_node _ _ _).mp hb).2.1
    have ⟨hln, hrn, hl, hr⟩ := hh
    cases hd : nextNodeDir u.treapKey n.treapKey with
    | none =>
      rw [updateInner_here hd] at h
      exact updateSlot_isHeap hu hh hb h
    | some dir =>
      cases dir with
      | left =>
        obtain ⟨l', up₀, hl', ht⟩ := updateInner_left hd h
        obtain ⟨hh', hdown, hup⟩ := ihl hl hln hl'
        have key := isHeap_rebalanceLeft (n := if uw then n.updateWeight l' r else n) (b := b)
          hh' hr (by split <;> exact hrn) (by split <;> exact hnb)
          (by split <;> exact hdown) (by split <;> exact hup)
        rwa [← ht] at key
      | right =>
        obtain ⟨r', up₀, hr', ht⟩ := updateInner_right hd h
        obtain ⟨hh', hdown, hup⟩ := ihr hr hrn hr'
        have key := isHeap_rebalanceRight (n := if uw then n.updateWeight l r' else n) (b := b)
          hl hh' (by split <;> exact hln) (by split <;> exact hnb)
          (by split <;> exact hdown) (by split <;> exact hup)
        rwa [← ht] at key

theorem sumOk_rebalanceLeft {n : Node κ σ V W} {l r : MaybeNode κ σ V W} (up : Bool)
    (h : SumOk (node n l r)) : SumOk (rebalanceLeft n l r up).1 := by
  unfold rebalanceLeft
  split
  · split
    · obtain ⟨-, ⟨-, ha, hc⟩, hr⟩ := h
      simp only [rightRotate, sumOk_withWeight]
      exact ⟨ha, hc, hr⟩
    · exact h
  · exact h

theorem sumOk_rebalanceRight {n : Node κ σ V W} {l r : MaybeNode κ σ V W} (up : Bool)
    (h : SumOk (node n l r)) : SumOk (rebalanceRight n l r up).1 := by
  unfold rebalanceRight
  split
  · split
    · obtain ⟨-, hl, -, hc, hd⟩ := h
      simp only [leftRotate, sumOk_withWeight]
      exact ⟨⟨hl, hc⟩, hd⟩
    · exact h
  · exact h

/-- At its slot `update_inner` leaves every `sum_weight` right. Without `update_weight` the slot
    weighs what it weighed, and `update_priority` is not raised. -/
theorem updateSlot_sumOk (hu : KeepsNode u) {t t' : MaybeNode κ σ V W} {e e' : ε} {ret : R}
    {uw up : Bool} (hs : SumOk t) (h : updateSlot u t e = some (t', e', ret, uw, up)) :
    SumOk t' ∧ (uw = false → up = false ∧ ∀ w, accureChild w t' = accureChild w t) := by
  obtain ⟨t₀, res, t₁, h₀, h₁, rfl⟩ := updateSlot_eq_some h
  rcases processUpdateResult_eq_some h₁ with ⟨rfl, rfl, hres⟩ | ⟨ins, -, rfl, rfl, rfl⟩ |
    ⟨dr, -, -, rfl, rfl, rfl⟩
  · cases t with
    | nil =>
      obtain ⟨-, rfl⟩ := updateNodeAt_nil h₀
      exact ⟨by split <;> trivial, fun _ => ⟨rfl, fun _ => by split <;> rfl⟩⟩
    | node n l r =>
      obtain ⟨n', hn, rfl⟩ := updateNodeAt_node h₀
      obtain ⟨hsum, hl, hr⟩ := hs
      cases uw with
      | true => exact ⟨(sumOk_withWeight n' l r).mpr ⟨hl, hr⟩, by simp⟩
      | false =>
        -- neither the weight nor `sum_weight` moved
        have hw : n'.weight = n.weight := by
          rcases hres with ⟨rfl, -⟩ | rfl
          exacts [hu.weight (.inl hn), hu.weight (.inr hn)]
        have hsw := hu.sumWeight hn
        refine ⟨⟨by rw [hsw, hw, hsum], hl, hr⟩, fun _ => ⟨rfl, fun w => ?_⟩⟩
        simp [accureChild, hsw]
  · exact ⟨by simp [reweigh], by simp⟩
  · refine ⟨SumOk.reweigh ?_, by simp⟩
    cases t with
    | nil =>
      obtain ⟨-, rfl⟩ := updateNodeAt_nil h₀
      trivial
    | node n l r =>
      obtain ⟨n', -, rfl⟩ := updateNodeAt_node h₀
      exact sumOk_delete n' l r hs.2.1 hs.2.2

/-- `update_inner` leaves every `sum_weight` right: each node on the way back is reweighed when
    the updater flagged a change below it, and nothing below it changed weight otherwise. -/
theorem updateInner_sumOk (hu : KeepsNode u) {t t' : MaybeNode κ σ V W} {e e' : ε} {ret : R}
    {uw up : Bool} (hs : SumOk t) (h : updateInner nextNodeDir u t e = some (t', e', ret, uw, up)) :
    SumOk t' ∧ (uw = false → up = false ∧ ∀ w, accureChild w t' = accureChild w t) := by
  induction t generalizing t' e e' ret uw up with
  | nil => exact updateSlot_sumOk hu hs h
  | node n l r ihl ihr =>
    obtain ⟨hsum, hl, hr⟩ := hs
    cases hd : nextNodeDir u.treapKey n.treapKey with
    | none =>
      rw [updateInner_here hd] at h
      exact updateSlot_sumOk hu ⟨hsum, hl, hr⟩ h
    | some dir =>
      cases dir with
      | left =>
        obtain ⟨l', up₀, hl', ht⟩ := updateInner_left hd h
        obtain ⟨hs', hsame⟩ := ihl hl hl'
        have ht' : t' = (rebalanceLeft (if uw then n.updateWeight l' r else n) l' r up₀).1 := by
          rw [← ht]
        cases uw with
        | true =>
          simp only [if_true] at ht'
          exact ⟨ht' ▸ sumOk_rebalanceLeft up₀ ((sumOk_withWeight n l' r).mpr ⟨hs', hr⟩),
            by simp⟩
        | false =>
          -- nothing below changed weight, so `n` keeps its `sum_weight` and stays put
          obtain ⟨rfl, hw⟩ := hsame rfl
          have hup : up = false := by
            have := congrArg Prod.snd ht
            simpa [rebalanceLeft] using this.symm
          simp only [Bool.false_eq_true, if_false, rebalanceLeft] at ht'
          subst ht'
          refine ⟨⟨?_, hs', hr⟩, fun _ => ⟨hup, fun w => rfl⟩⟩
          rw [hsum, hw]
      | right =>
        obtain ⟨r', up₀, hr', ht⟩ := updateInner_right hd h
        obtain ⟨hs', hsame⟩ := ihr hr hr'
        have ht' : t' = (rebalanceRight (if uw then n.updateWeight l r' else n) l r' up₀).1 := by
          rw [← ht]
        cases uw with
        | true =>
          simp only [if_true] at ht'
          exact ⟨ht' ▸ sumOk_rebalanceRight up₀ ((sumOk_withWeight n l r').mpr ⟨hl, hs'⟩),
            by simp⟩
        | false =>
          obtain ⟨rfl, hw⟩ := hsame rfl
          have hup : up = false := by
            have := congrArg Prod.snd ht
            simpa [rebalanceRight] using this.symm
          simp only [Bool.false_eq_true, if_false, rebalanceRight] at ht'
          subst ht'
          refine ⟨⟨?_, hl, hs'⟩, fun _ => ⟨hup, fun w => rfl⟩⟩
          rw [hsum, hw]

end Keeps

end Mazze.Treap
