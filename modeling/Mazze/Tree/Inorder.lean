/-
  Binary trees read through their in-order traversal, the heap shape a treap keeps on its
  priorities, and ordered lists as the finite maps a search tree stands for.

  `toList` is the in-order traversal and `IsHeap prio` says that every value is at least each
  value below it. A list of entries is `KeyList.Sorted cmp key` when the keys of its entries
  strictly increase under the comparator `cmp`; `KeyList.insertWith` is the ordered insertion of
  such a map. Its `_append_` lemmas say what it does on a traversal `L ++ y :: R` split at a root
  `y`: that is how a tree operation that descends from the root is compared with it.
-/
import Mathlib

namespace BinaryTree

variable {α : Type*}

/-- The in-order traversal. -/
def toList : BinaryTree α → List α
  | nil => []
  | node a l r => l.toList ++ a :: r.toList

@[simp] theorem toList_nil : (nil : BinaryTree α).toList = [] := rfl

@[simp] theorem toList_node (a : α) (l r : BinaryTree α) :
    (node a l r).toList = l.toList ++ a :: r.toList := rfl

@[simp] theorem length_toList (t : BinaryTree α) : t.toList.length = t.numNodes := by
  induction t with
  | nil => rfl
  | node a l r ihl ihr =>
    simp only [toList_node, List.length_append, List.length_cons, ihl, ihr, numNodes]
    omega

theorem forall_mem_toList_node {p : α → Prop} (a : α) (l r : BinaryTree α) :
    (∀ x ∈ (node a l r).toList, p x) ↔ (∀ x ∈ l.toList, p x) ∧ p a ∧ ∀ x ∈ r.toList, p x := by
  simp only [toList_node, List.mem_append, List.mem_cons]
  constructor
  · intro h
    exact ⟨fun x hx => h x (.inl hx), h a (.inr (.inl rfl)), fun x hx => h x (.inr (.inr hx))⟩
  · rintro ⟨hl, ha, hr⟩ x (hx | rfl | hx)
    exacts [hl x hx, ha, hr x hx]

section Heap

variable {β : Type*} [Preorder β] (prio : α → β)

/-- Max-heap on `prio`: every value is at least each value below it. -/
def IsHeap : BinaryTree α → Prop
  | nil => True
  | node a l r =>
    (∀ x ∈ l.toList, prio x ≤ prio a) ∧ (∀ x ∈ r.toList, prio x ≤ prio a) ∧
      IsHeap l ∧ IsHeap r

@[simp] theorem isHeap_nil : IsHeap prio (nil : BinaryTree α) := trivial

@[simp] theorem isHeap_node (a : α) (l r : BinaryTree α) :
    IsHeap prio (node a l r) ↔
      (∀ x ∈ l.toList, prio x ≤ prio a) ∧ (∀ x ∈ r.toList, prio x ≤ prio a) ∧
        IsHeap prio l ∧ IsHeap prio r := Iff.rfl

variable {prio}

/-- In a heap everything is bounded by whatever bounds the root. -/
theorem IsHeap.le_of_root_le {a : α} {l r : BinaryTree α} {b : β}
    (h : IsHeap prio (node a l r)) (hb : prio a ≤ b) : ∀ x ∈ (node a l r).toList, prio x ≤ b := by
  intro x hx
  simp only [toList_node, List.mem_append, List.mem_cons] at hx
  rcases hx with hx | rfl | hx
  · exact (h.1 x hx).trans hb
  · exact hb
  · exact (h.2.1 x hx).trans hb

end Heap

end BinaryTree

namespace KeyList

variable {α β : Type*} (cmp : α → α → Ordering) (key : β → α)

/-- The keys of the entries strictly increase. -/
def Sorted (xs : List β) : Prop := xs.Pairwise fun x y => cmp (key x) (key y) = .lt

/-- Ordered insertion: a new key goes in its place, an entry with an equal key is merged with
    the new one. -/
def insertWith (merge : β → β → β) (x : β) : List β → List β
  | [] => [x]
  | y :: ys =>
    match cmp (key x) (key y) with
    | .lt => x :: y :: ys
    | .eq => merge y x :: ys
    | .gt => y :: insertWith merge x ys

variable {cmp key}

@[simp] theorem insertWith_nil (merge : β → β → β) (x : β) :
    insertWith cmp key merge x [] = [x] := rfl

theorem sorted_append_cons {L R : List β} {y : β} :
    Sorted cmp key (L ++ y :: R) ↔
      Sorted cmp key L ∧ Sorted cmp key R ∧ (∀ z ∈ L, cmp (key z) (key y) = .lt) ∧
        (∀ z ∈ R, cmp (key y) (key z) = .lt) ∧
        ∀ z ∈ L, ∀ w ∈ R, cmp (key z) (key w) = .lt := by
  simp only [Sorted, List.pairwise_append, List.pairwise_cons, List.mem_cons,
    forall_eq_or_imp]
  constructor
  · rintro ⟨hL, ⟨hy, hR⟩, hLR⟩
    exact ⟨hL, hR, fun z hz => (hLR z hz).1, hy, fun z hz => (hLR z hz).2⟩
  · rintro ⟨hL, hR, hLy, hy, hLR⟩
    exact ⟨hL, ⟨hy, hR⟩, fun z hz => ⟨hLy z hz, hLR z hz⟩⟩

/-- Inserting a key below the root `y` of a traversal only touches the part left of `y`. -/
theorem insertWith_append_of_lt (merge : β → β → β) {x y : β} (L R : List β)
    (hxy : cmp (key x) (key y) = .lt) :
    insertWith cmp key merge x (L ++ y :: R) = insertWith cmp key merge x L ++ y :: R := by
  induction L with
  | nil => simp [insertWith, hxy]
  | cons z L ih =>
    simp only [List.cons_append, insertWith]
    split <;> simp_all

/-- Inserting a key above the root `y`, and above everything left of it, only touches the part
    right of `y`. -/
theorem insertWith_append_of_gt (merge : β → β → β) {x y : β} {L : List β} (R : List β)
    (hL : ∀ z ∈ L, cmp (key x) (key z) = .gt) (hxy : cmp (key x) (key y) = .gt) :
    insertWith cmp key merge x (L ++ y :: R) = L ++ y :: insertWith cmp key merge x R := by
  induction L with
  | nil => simp [insertWith, hxy]
  | cons z L ih =>
    have hz : cmp (key x) (key z) = .gt := hL z (by simp)
    simp only [List.cons_append, insertWith, hz, List.cons.injEq, true_and]
    exact ih fun w hw => hL w (by simp [hw])

/-- A key equal to the root `y`'s, and above everything left of it, is merged into `y`. -/
theorem insertWith_append_of_eq (merge : β → β → β) {x y : β} {L : List β} (R : List β)
    (hL : ∀ z ∈ L, cmp (key x) (key z) = .gt) (hxy : cmp (key x) (key y) = .eq) :
    insertWith cmp key merge x (L ++ y :: R) = L ++ merge y x :: R := by
  induction L with
  | nil => simp [insertWith, hxy]
  | cons z L ih =>
    have hz : cmp (key x) (key z) = .gt := hL z (by simp)
    simp only [List.cons_append, insertWith, hz, List.cons.injEq, true_and]
    exact ih fun w hw => hL w (by simp [hw])

/-- What `insertWith` puts in a list: the new entry, the old ones, or one merged with it. -/
theorem mem_insertWith {merge : β → β → β} {x z : β} {xs : List β}
    (hz : z ∈ insertWith cmp key merge x xs) : z = x ∨ z ∈ xs ∨ ∃ y ∈ xs, z = merge y x := by
  induction xs with
  | nil => exact .inl (List.mem_singleton.mp hz)
  | cons y ys ih =>
    simp only [insertWith] at hz
    split at hz
    · rcases List.mem_cons.mp hz with rfl | hz
      · exact .inl rfl
      · exact .inr (.inl hz)
    · rcases List.mem_cons.mp hz with rfl | hz
      · exact .inr (.inr ⟨y, List.mem_cons_self, rfl⟩)
      · exact .inr (.inl (List.mem_cons_of_mem _ hz))
    · rcases List.mem_cons.mp hz with rfl | hz
      · exact .inr (.inl List.mem_cons_self)
      · rcases ih hz with h | h | ⟨w, hw, h⟩
        · exact .inl h
        · exact .inr (.inl (List.mem_cons_of_mem _ h))
        · exact .inr (.inr ⟨w, List.mem_cons_of_mem _ hw, h⟩)

/-- Ordered insertion keeps a map sorted when merging keeps the old entry's key. -/
theorem Sorted.insertWith [Std.TransCmp cmp] {merge : β → β → β} {x : β}
    (hmerge : ∀ y, key (merge y x) = key y) {xs : List β} (h : Sorted cmp key xs) :
    Sorted cmp key (KeyList.insertWith cmp key merge x xs) := by
  induction xs with
  | nil => simp [KeyList.insertWith, Sorted]
  | cons y ys ih =>
    have ⟨hy, hys⟩ := List.pairwise_cons.mp h
    simp only [KeyList.insertWith]
    split
    · -- `x` goes first, below `y` and hence below all of `ys`
      next hxy =>
      refine List.Pairwise.cons (fun z hz => ?_) h
      rcases List.mem_cons.mp hz with rfl | hz
      · exact hxy
      · exact Std.TransCmp.lt_trans hxy (hy z hz)
    · refine List.Pairwise.cons (fun z hz => ?_) hys
      rw [hmerge]
      exact hy z hz
    · -- `y` stays first: it is below `x`, below the merged entries and below `ys`
      next hxy =>
      refine List.Pairwise.cons (fun z hz => ?_) (ih hys)
      rcases mem_insertWith hz with rfl | hz | ⟨w, hw, rfl⟩
      · exact Std.OrientedCmp.lt_of_gt hxy
      · exact hy z hz
      · rw [hmerge]
        exact hy w hw

/-- Sortedness only reads the keys. -/
theorem sorted_congr_keys {xs ys : List β} (hk : xs.map key = ys.map key) :
    Sorted cmp key xs ↔ Sorted cmp key ys := by
  have hmap := fun zs : List β => (List.pairwise_map (R := fun a b => cmp a b = .lt) (f := key)
    (l := zs)).symm
  rw [Sorted, Sorted, hmap xs, hmap ys, hk]

theorem Sorted.sublist {xs ys : List β} (hs : ys.Sublist xs) (h : Sorted cmp key xs) :
    Sorted cmp key ys :=
  List.Pairwise.sublist hs h

/-- A key strictly between everything before and everything after goes between them. -/
theorem insertWith_append_of_between (merge : β → β → β) {x : β} {L : List β} (R : List β)
    (hL : ∀ z ∈ L, cmp (key x) (key z) = .gt) (hR : ∀ z ∈ R, cmp (key x) (key z) = .lt) :
    insertWith cmp key merge x (L ++ R) = L ++ x :: R := by
  induction L with
  | nil =>
    cases R with
    | nil => rfl
    | cons z R => simp [insertWith, hR z (by simp)]
  | cons z L ih =>
    have hz : cmp (key x) (key z) = .gt := hL z (by simp)
    simp only [List.cons_append, insertWith, hz, List.cons.injEq, true_and]
    exact ih fun w hw => hL w (by simp [hw])

end KeyList
