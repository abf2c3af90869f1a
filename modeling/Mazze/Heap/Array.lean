/-
  Binary max-heaps laid out in arrays, as lists.

  Position `i > 0` has the parent `(i - 1) / 2`, and the children of `p` are `2p + 1` and
  `2p + 2`. `IsMaxHeap l`: every entry is at most its parent's. A sift moves a hole through the
  list and writes the sifted value `e` where the hole stops. `UpOrder` and `DownOrder` say what
  holds while the hole moves up or down: every parent–child pair off the hole is in order, and
  the hole's neighbours are in the order the direction needs. Each step keeps them (`move`), and
  the value written into the final hole leaves a heap (`finish`). The `IsMaxHeap` start lemmas
  set them up after one entry's value changed (`upOrder`, `downOrder`), after an append
  (`upOrder_append`) and for the root (`downOrder_root`); `le_root` says the root of a heap is a
  largest entry.

  The last part is about the array operations the sifts use: `Vec::swap_remove` and the step
  that moves an entry into the hole, both permutations of the list they start from.
-/
import Mathlib

namespace Mazze.Heap

/-- The parent of position `i > 0`. -/
def parent (i : Nat) : Nat := (i - 1) / 2

theorem parent_lt {i : Nat} (h : 0 < i) : parent i < i := by
  unfold parent
  omega

theorem ne_parent {i : Nat} (h : 0 < i) : i ≠ parent i := by
  have := parent_lt h
  omega

/-- `c` is a child of `p`. -/
def IsChild (c p : Nat) : Prop := 0 < c ∧ parent c = p

theorem IsChild.gt {c p : Nat} (h : IsChild c p) : p < c := h.2 ▸ parent_lt h.1

theorem isChild_iff {c p : Nat} : IsChild c p ↔ c = 2 * p + 1 ∨ c = 2 * p + 2 := by
  unfold IsChild parent
  omega

theorem getElem?_of_append_singleton {α : Type} {l : List α} {e x : α} {i : Nat}
    (hx : (l ++ [e])[i]? = some x) (hi : i ≠ l.length) : l[i]? = some x := by
  have hlen : i < (l ++ [e]).length := (List.getElem?_eq_some_iff.mp hx).1
  rw [List.getElem?_append_left (by simp at hlen; omega)] at hx
  exact hx

section Order

variable {V : Type} [LinearOrder V] {l : List V}

/-- The entry at `i` is at most its parent's (when both exist). -/
def PairOrdered (l : List V) (i : Nat) : Prop :=
  ∀ x y, l[i]? = some x → l[parent i]? = some y → x ≤ y

/-- Every entry is at most its parent's. -/
def IsMaxHeap (l : List V) : Prop := ∀ i, 0 < i → PairOrdered l i

/-- Every parent–child pair that does not touch `hole` is in order. -/
def OrderedExcept (l : List V) (hole : Nat) : Prop :=
  ∀ i, 0 < i → i ≠ hole → parent i ≠ hole → PairOrdered l i

/-- While `e` moves up through `hole`: the pairs off the hole are in order, the hole's children
are at most its parent, and at most `e`. -/
structure UpOrder (l : List V) (hole : Nat) (e : V) : Prop where
  except : OrderedExcept l hole
  grand : 0 < hole → ∀ c, IsChild c hole → ∀ x y, l[c]? = some x → l[parent hole]? = some y →
    x ≤ y
  below : ∀ c, IsChild c hole → ∀ x, l[c]? = some x → x ≤ e

/-- While `e` moves down through `hole`: the pairs off the hole are in order, `e` is at most the
hole's parent, and so are the hole's children. -/
structure DownOrder (l : List V) (hole : Nat) (e : V) : Prop where
  except : OrderedExcept l hole
  above : 0 < hole → ∀ y, l[parent hole]? = some y → e ≤ y
  grand : 0 < hole → ∀ c, IsChild c hole → ∀ x y, l[c]? = some x → l[parent hole]? = some y →
    x ≤ y

/-! ## Sifting up -/

theorem UpOrder.move {hole : Nat} {e y : V} (o : UpOrder l hole e) (h0 : 0 < hole)
    (hlt : hole < l.length) (hy : l[parent hole]? = some y) (hb : y < e) :
    UpOrder (l.set hole y) (parent hole) e := by
  have hq : parent hole < hole := parent_lt h0
  -- the parent that moves down is at most its own parent
  have hq_up : 0 < parent hole → ∀ z, l[parent (parent hole)]? = some z → y ≤ z :=
    fun hq0 z hz => o.except (parent hole) hq0 (by omega)
      (by have := parent_lt hq0; omega) y z hy hz
  -- and every other child of it is at most it
  have hsib : ∀ c, IsChild c (parent hole) → c ≠ hole → ∀ x, l[c]? = some x → x ≤ y :=
    fun c hc hch x hx => o.except c hc.1 hch (by rw [hc.2]; omega) x y hx (by rw [hc.2]; exact hy)
  constructor
  · intro i hi0 _ hpi x z hx hz
    have hih : i ≠ hole := fun h => hpi (h ▸ rfl)
    rw [List.getElem?_set_ne (Ne.symm hih)] at hx
    by_cases hph : parent i = hole
    · rw [hph, List.getElem?_set_self hlt] at hz
      obtain rfl := Option.some.inj hz
      exact o.grand h0 i ⟨hi0, hph⟩ x _ hx hy
    · rw [List.getElem?_set_ne (Ne.symm hph)] at hz
      exact o.except i hi0 hih hph x z hx hz
  · intro hq0 c hc x z hx hz
    have hpq : hole ≠ parent (parent hole) := by have := parent_lt hq0; omega
    rw [List.getElem?_set_ne hpq] at hz
    by_cases hch : c = hole
    · subst hch
      rw [List.getElem?_set_self hlt] at hx
      obtain rfl := Option.some.inj hx
      exact hq_up hq0 z hz
    · rw [List.getElem?_set_ne (Ne.symm hch)] at hx
      exact le_trans (hsib c hc hch x hx) (hq_up hq0 z hz)
  · intro c hc x hx
    by_cases hch : c = hole
    · subst hch
      rw [List.getElem?_set_self hlt] at hx
      obtain rfl := Option.some.inj hx
      exact hb.le
    · rw [List.getElem?_set_ne (Ne.symm hch)] at hx
      exact le_trans (hsib c hc hch x hx) hb.le

theorem UpOrder.finish {hole : Nat} {e : V} (o : UpOrder l hole e) (hlt : hole < l.length)
    (hstop : 0 < hole → ∀ y, l[parent hole]? = some y → e ≤ y) : IsMaxHeap (l.set hole e) := by
  intro i hi0 x z hx hz
  by_cases hih : i = hole
  · subst hih
    rw [List.getElem?_set_self hlt] at hx
    rw [List.getElem?_set_ne (ne_parent hi0)] at hz
    obtain rfl := Option.some.inj hx
    exact hstop hi0 z hz
  · rw [List.getElem?_set_ne (Ne.symm hih)] at hx
    by_cases hph : parent i = hole
    · rw [hph, List.getElem?_set_self hlt] at hz
      obtain rfl := Option.some.inj hz
      exact o.below i ⟨hi0, hph⟩ x hx
    · rw [List.getElem?_set_ne (Ne.symm hph)] at hz
      exact o.except i hi0 hih hph x z hx hz

/-! ## Sifting down -/

theorem DownOrder.move {hole c : Nat} {e x : V} (o : DownOrder l hole e) (hlt : hole < l.length)
    (hc : IsChild c hole) (hx : l[c]? = some x)
    (hmax : ∀ d, IsChild d hole → ∀ y, l[d]? = some y → y ≤ x) (hb : e < x) :
    DownOrder (l.set hole x) c e := by
  have hgt := hc.gt
  constructor
  · intro i hi0 _ _ a b ha hb'
    by_cases hih : i = hole
    · subst hih
      rw [List.getElem?_set_self hlt] at ha
      rw [List.getElem?_set_ne (ne_parent hi0)] at hb'
      obtain rfl := Option.some.inj ha
      exact o.grand hi0 c hc x b hx hb'
    · rw [List.getElem?_set_ne (Ne.symm hih)] at ha
      by_cases hph : parent i = hole
      · rw [hph, List.getElem?_set_self hlt] at hb'
        obtain rfl := Option.some.inj hb'
        exact hmax i ⟨hi0, hph⟩ a ha
      · rw [List.getElem?_set_ne (Ne.symm hph)] at hb'
        exact o.except i hi0 hih hph a b ha hb'
  · intro _ y hy
    rw [hc.2, List.getElem?_set_self hlt] at hy
    obtain rfl := Option.some.inj hy
    exact hb.le
  · intro _ d hd a b ha hb'
    have hdgt := hd.gt
    rw [hc.2, List.getElem?_set_self hlt] at hb'
    obtain rfl := Option.some.inj hb'
    rw [List.getElem?_set_ne (by omega : hole ≠ d)] at ha
    exact o.except d hd.1 (by omega) (by rw [hd.2]; omega) a _ ha (by rw [hd.2]; exact hx)

theorem DownOrder.finish {hole : Nat} {e : V} (o : DownOrder l hole e) (hlt : hole < l.length)
    (hstop : ∀ c, IsChild c hole → ∀ x, l[c]? = some x → x ≤ e) : IsMaxHeap (l.set hole e) := by
  intro i hi0 x z hx hz
  by_cases hih : i = hole
  · subst hih
    rw [List.getElem?_set_self hlt] at hx
    rw [List.getElem?_set_ne (ne_parent hi0)] at hz
    obtain rfl := Option.some.inj hx
    exact o.above hi0 z hz
  · rw [List.getElem?_set_ne (Ne.symm hih)] at hx
    by_cases hph : parent i = hole
    · rw [hph, List.getElem?_set_self hlt] at hz
      obtain rfl := Option.some.inj hz
      exact hstop i ⟨hi0, hph⟩ x hx
    · rw [List.getElem?_set_ne (Ne.symm hph)] at hz
      exact o.except i hi0 hih hph x z hx hz

/-! ## Where a sift starts -/

theorem IsMaxHeap.orderedExcept (h : IsMaxHeap l) (hole : Nat) (e : V) :
    OrderedExcept (l.set hole e) hole := by
  intro i hi0 hih hph x z hx hz
  rw [List.getElem?_set_ne (Ne.symm hih)] at hx
  rw [List.getElem?_set_ne (Ne.symm hph)] at hz
  exact h i hi0 x z hx hz

/-- The children of an entry whose value `r` changes stay at most its parent. -/
theorem IsMaxHeap.grand (h : IsMaxHeap l) {p : Nat} {r : V} (hr : l[p]? = some r) (e : V) :
    0 < p → ∀ c, IsChild c p → ∀ x y, (l.set p e)[c]? = some x →
      (l.set p e)[parent p]? = some y → x ≤ y := by
  intro hp0 c hc x y hx hy
  rw [List.getElem?_set_ne (by have := hc.gt; omega : p ≠ c)] at hx
  rw [List.getElem?_set_ne (ne_parent hp0)] at hy
  exact le_trans (h c hc.1 x r hx (by rw [hc.2]; exact hr)) (h p hp0 r y hr hy)

/-- After the value at `p` grows from `r` to `e`, sifting `e` up from `p` can start. -/
theorem IsMaxHeap.upOrder (h : IsMaxHeap l) {p : Nat} {r e : V} (hr : l[p]? = some r)
    (hlt : r < e) : UpOrder (l.set p e) p e where
  except := h.orderedExcept p e
  grand := h.grand hr e
  below := by
    intro c hc x hx
    rw [List.getElem?_set_ne (by have := hc.gt; omega : p ≠ c)] at hx
    exact le_trans (h c hc.1 x r hx (by rw [hc.2]; exact hr)) hlt.le

/-- After the value at `p` shrinks from `r` to `e`, sifting `e` down from `p` can start. -/
theorem IsMaxHeap.downOrder (h : IsMaxHeap l) {p : Nat} {r e : V} (hr : l[p]? = some r)
    (hle : e ≤ r) : DownOrder (l.set p e) p e where
  except := h.orderedExcept p e
  above := by
    intro hp0 y hy
    rw [List.getElem?_set_ne (ne_parent hp0)] at hy
    exact le_trans hle (h p hp0 r y hr hy)
  grand := h.grand hr e

/-- Any value can be sifted down from the root. -/
theorem IsMaxHeap.downOrder_root (h : IsMaxHeap l) (e : V) : DownOrder (l.set 0 e) 0 e where
  except := h.orderedExcept 0 e
  above := fun h0 => absurd h0 (Nat.lt_irrefl 0)
  grand := fun h0 => absurd h0 (Nat.lt_irrefl 0)

/-- An appended value can be sifted up from the end. -/
theorem IsMaxHeap.upOrder_append (h : IsMaxHeap l) (e : V) : UpOrder (l ++ [e]) l.length e where
  except := by
    intro i hi0 hih hph x z hx hz
    exact h i hi0 x z (getElem?_of_append_singleton hx hih) (getElem?_of_append_singleton hz hph)
  grand := by
    intro _ c hc x _ hx _
    have hlen : c < (l ++ [e]).length := (List.getElem?_eq_some_iff.mp hx).1
    have := hc.gt
    simp at hlen
    omega
  below := by
    intro c hc x hx
    have hlen : c < (l ++ [e]).length := (List.getElem?_eq_some_iff.mp hx).1
    have := hc.gt
    simp at hlen
    omega

theorem IsMaxHeap.dropLast (h : IsMaxHeap l) : IsMaxHeap l.dropLast := by
  intro i hi0 x z hx hz
  rw [List.getElem?_dropLast] at hx hz
  split at hx
  · split at hz
    · exact h i hi0 x z hx hz
    · cases hz
  · cases hx

/-- The root of a heap is a largest entry. -/
theorem IsMaxHeap.le_root (h : IsMaxHeap l) {y : V} (h0 : l[0]? = some y) :
    ∀ (i : Nat) (x : V), l[i]? = some x → x ≤ y := by
  intro i
  induction i using Nat.strongRecOn with
  | ind i ih =>
    intro x hx
    by_cases hi : i = 0
    · subst hi
      rw [h0] at hx
      obtain rfl := Option.some.inj hx
      exact le_refl _
    · have hp := parent_lt (Nat.pos_of_ne_zero hi)
      have hlen : parent i < l.length := by
        have := (List.getElem?_eq_some_iff.mp hx).1
        omega
      have hz : l[parent i]? = some l[parent i] := List.getElem?_eq_getElem hlen
      exact le_trans (h i (Nat.pos_of_ne_zero hi) x _ hx hz) (ih _ hp _ hz)

end Order

/-! ## Array steps -/

section Steps

variable {α : Type}

/-- `Vec::swap_remove`: the element at `i` is taken out and the last element moved into its
place; `none` (a panic) when `i` is out of range. -/
def swapRemove (l : List α) (i : Nat) : Option (α × List α) :=
  if h : i < l.length then some (l[i], (l.set i l[l.length - 1]).dropLast) else none

theorem swapRemove_eq {l : List α} {i : Nat} (h : i < l.length) :
    swapRemove l i = some (l[i], (l.set i l[l.length - 1]).dropLast) := dif_pos h

theorem length_swapRemove {l : List α} {i : Nat} (h : i < l.length) :
    ((l.set i l[l.length - 1]).dropLast).length = l.length - 1 := by
  simp

/-- Writing back the element a position holds changes nothing. -/
theorem set_of_getElem? {l : List α} {i : Nat} {a : α} (h : l[i]? = some a) : l.set i a = l := by
  obtain ⟨hi, rfl⟩ := List.getElem?_eq_some_iff.mp h
  exact List.set_getElem_self hi

/-- A write and dropping the last element commute (a write at the last position is lost either
way). -/
theorem dropLast_set (l : List α) (i : Nat) (a : α) :
    (l.set i a).dropLast = l.dropLast.set i a := by
  apply List.ext_getElem?
  intro j
  simp only [List.getElem?_dropLast, List.getElem?_set, List.length_set, List.length_dropLast]
  split_ifs <;> first | rfl | omega

/-- Below the new end, a write followed by dropping the last element reads as the write. -/
theorem getElem?_set_dropLast {l : List α} {d q : Nat} (v : α) (hq : q < l.length - 1) :
    ((l.set d v).dropLast)[q]? = if d = q then some v else l[q]? := by
  rw [List.getElem?_dropLast, List.length_set, if_pos hq, List.getElem?_set]
  by_cases hdq : d = q
  · rw [if_pos hdq, if_pos hdq, if_pos (by omega)]
  · rw [if_neg hdq, if_neg hdq]

/-- The removed element and what remains are a permutation of the list. -/
theorem perm_swapRemove {l : List α} {i : Nat} (h : i < l.length) :
    (l[i] :: (l.set i l[l.length - 1]).dropLast).Perm l := by
  have hl : l.dropLast ++ [l[l.length - 1]] = l := by
    rw [← List.getLast_eq_getElem (List.ne_nil_of_length_pos (by omega))]
    exact List.dropLast_append_getLast _
  -- the last element moves into the hole of the list without its last element
  have hrest := dropLast_set l i l[l.length - 1]
  have hhead : l[i] = (l.dropLast[i]?).getD l[l.length - 1] := by
    rw [List.getElem?_dropLast]
    split
    · rw [List.getElem?_eq_getElem h]
      rfl
    · have : i = l.length - 1 := by omega
      subst this
      rfl
  rw [hrest, hhead]
  have hlast := (List.perm_append_singleton l[l.length - 1] l.dropLast).symm
  rw [hl] at hlast
  exact (List.getD_set_perm_cons _ _ _).trans hlast

/-- Moving the entry at `src` into the hole at `pos`, and the value `v` meant for the hole to
`src`, permutes the list with `v` in the hole. -/
theorem perm_move_hole {l : List α} {pos src : Nat} (hpos : pos < l.length) (hsrc : src < l.length)
    (hne : src ≠ pos) (v : α) : ((l.set pos l[src]).set src v).Perm (l.set pos v) := by
  have hswap := List.swap_perm (l.set pos v) pos src
  rw [List.swap_eq_of_lt (by simpa using hpos) (by simpa using hsrc)] at hswap
  simpa [List.getElem_set_ne (Ne.symm hne), List.set_set] using hswap

end Steps

end Mazze.Heap
