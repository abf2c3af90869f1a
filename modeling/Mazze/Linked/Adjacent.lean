/-
  Linked lists kept in arrays, against the list of entries they stand for.

  `Adj l a b`: `b` comes right after `a` in `l`. An array of successor pointers, with the
  predecessors kept elsewhere, stands for `l` when each pointer leads to the next entry of `l`
  and each predecessor is the entry before. In a list of distinct entries adjacency is a
  function both ways (`right_unique`, `left_unique`), only the first entry has no predecessor
  and only the last no successor. The `_iff` lemmas say how adjacency changes when an entry is
  put in front (`adj_cons_iff`), taken out (`adj_erase_iff`) and when the last entry is dropped
  (`adj_dropLast_iff`); the lemmas after them say where the first and the last entry go.

  `exists_mem_eq_of_injOn`: positions given injectively to the entries of a list fill any set
  of positions no larger than the list, so every slot below the size holds an entry.

  `follow next p n` follows `next` for `n` positions from `p`; `follow_map` says that when the
  pointers follow `l`, following them from the first entry meets the positions of `l` in order.
-/
import Mathlib

namespace Mazze.Linked

section Adjacent

variable {α : Type} {l : List α} {a b c : α}

/-- In a list of distinct entries an entry stands at one index only. -/
theorem index_unique (hnd : l.Nodup) {i j : Nat} {x : α} (hi : l[i]? = some x)
    (hj : l[j]? = some x) : i = j :=
  (List.getElem?_inj (List.getElem?_eq_some_iff.mp hi).1 hnd).mp (hi.trans hj.symm)

/-- `b` comes right after `a` in `l`. -/
def Adj (l : List α) (a b : α) : Prop := ∃ k, l[k]? = some a ∧ l[k + 1]? = some b

theorem Adj.mem_left (h : Adj l a b) : a ∈ l := by
  obtain ⟨k, hk, -⟩ := h
  exact List.mem_of_getElem? hk

theorem Adj.mem_right (h : Adj l a b) : b ∈ l := by
  obtain ⟨k, -, hk⟩ := h
  exact List.mem_of_getElem? hk

theorem adj_cons_iff {x : α} : Adj (x :: l) a b ↔ (a = x ∧ l.head? = some b) ∨ Adj l a b := by
  rw [List.head?_eq_getElem?]
  constructor
  · rintro ⟨k, hka, hkb⟩
    cases k with
    | zero =>
      -- the new first entry and its successor
      exact Or.inl ⟨(Option.some.inj hka).symm, hkb⟩
    | succ k => exact Or.inr ⟨k, hka, hkb⟩
  · rintro (⟨rfl, hb⟩ | ⟨k, hka, hkb⟩)
    · exact ⟨0, rfl, hb⟩
    · exact ⟨k + 1, hka, hkb⟩

theorem Adj.right_unique (hnd : l.Nodup) (h : Adj l a b) (h' : Adj l a c) : b = c := by
  obtain ⟨k, hka, hkb⟩ := h
  obtain ⟨k', hka', hkc⟩ := h'
  obtain rfl : k = k' := index_unique hnd hka hka'
  exact Option.some.inj (hkb.symm.trans hkc)

theorem Adj.left_unique (hnd : l.Nodup) (h : Adj l a c) (h' : Adj l b c) : a = b := by
  obtain ⟨k, hka, hkc⟩ := h
  obtain ⟨k', hkb, hkc'⟩ := h'
  obtain rfl : k = k' := by
    have := index_unique hnd hkc hkc'
    omega
  exact Option.some.inj (hka.symm.trans hkb)

/-- The first entry has no predecessor. -/
theorem Adj.head?_ne (hnd : l.Nodup) (h : Adj l a b) : l.head? ≠ some b := by
  intro hh
  obtain ⟨k, -, hkb⟩ := h
  rw [List.head?_eq_getElem?] at hh
  have := index_unique hnd hh hkb
  omega

/-- The last entry has no successor. -/
theorem Adj.getLast?_ne (hnd : l.Nodup) (h : Adj l a b) : l.getLast? ≠ some a := by
  intro hl
  obtain ⟨k, hka, hkb⟩ := h
  rw [List.getLast?_eq_getElem?] at hl
  have hk1 : k + 1 < l.length := (List.getElem?_eq_some_iff.mp hkb).1
  have := index_unique hnd hl hka
  omega

/-- No entry comes right after itself. -/
theorem Adj.ne (hnd : l.Nodup) (h : Adj l a b) : a ≠ b := by
  rintro rfl
  obtain ⟨k, hka, hkb⟩ := h
  have := index_unique hnd hka hkb
  omega

/-- Two steps along a list of distinct entries never come back. -/
theorem Adj.ne_of_adj (hnd : l.Nodup) (h : Adj l a b) (h' : Adj l b c) : a ≠ c := by
  rintro rfl
  obtain ⟨k, hka, hkb⟩ := h
  obtain ⟨k', hkb', hkc⟩ := h'
  have h1 := index_unique hnd hkb hkb'
  have h2 := index_unique hnd hka hkc
  omega

theorem exists_adj_right (hm : a ∈ l) (hl : l.getLast? ≠ some a) : ∃ b, Adj l a b := by
  obtain ⟨k, hk⟩ := List.mem_iff_getElem?.mp hm
  have hlt : k < l.length := (List.getElem?_eq_some_iff.mp hk).1
  have hk1 : k + 1 < l.length := by
    by_contra hge
    apply hl
    rw [List.getLast?_eq_getElem?, show l.length - 1 = k by omega]
    exact hk
  exact ⟨l[k + 1], k, hk, List.getElem?_eq_getElem hk1⟩

theorem exists_adj_left (hm : b ∈ l) (hh : l.head? ≠ some b) : ∃ a, Adj l a b := by
  obtain ⟨k, hk⟩ := List.mem_iff_getElem?.mp hm
  cases k with
  | zero => exact absurd (by rw [List.head?_eq_getElem?]; exact hk) hh
  | succ k =>
    have hlt : k + 1 < l.length := (List.getElem?_eq_some_iff.mp hk).1
    exact ⟨l[k], k, List.getElem?_eq_getElem (by omega), hk⟩

/-- In a list of distinct entries, taking out `x` erases it at its position. -/
theorem erase_eq_eraseIdx_of_nodup [DecidableEq α] (hnd : l.Nodup) {x : α} {m : Nat}
    (hm : l[m]? = some x) : l.erase x = l.eraseIdx m := by
  obtain ⟨hlt, hx⟩ := List.getElem?_eq_some_iff.mp hm
  have hidx : l.idxOf? x = some m := by
    refine List.idxOf?_eq_some_iff.mpr ⟨hlt, hx, fun j hj hjx => ?_⟩
    have hjm : l[j]? = some x := by rw [List.getElem?_eq_getElem (by omega), hjx]
    have := index_unique hnd hm hjm
    omega
  rw [List.erase_eq_eraseIdx, hidx]

/-- Taking `x` out joins its neighbours and keeps every other adjacency. -/
theorem adj_erase_iff [DecidableEq α] (hnd : l.Nodup) {x : α} (hx : x ∈ l) :
    Adj (l.erase x) a b ↔ (Adj l a b ∧ a ≠ x ∧ b ≠ x) ∨ (Adj l a x ∧ Adj l x b) := by
  obtain ⟨m, hm⟩ := List.mem_iff_getElem?.mp hx
  -- `x` stands at `m` only
  have honly : ∀ j, l[j]? = some x → j = m := fun j hj => index_unique hnd hj hm
  rw [erase_eq_eraseIdx_of_nodup hnd hm]
  constructor
  · rintro ⟨k, hka, hkb⟩
    rw [List.getElem?_eraseIdx] at hka hkb
    by_cases hk1 : k + 1 < m
    · -- both before `x`
      rw [if_pos (by omega)] at hka
      rw [if_pos hk1] at hkb
      refine Or.inl ⟨⟨k, hka, hkb⟩, fun e => ?_, fun e => ?_⟩
      · have := honly k (e ▸ hka)
        omega
      · have := honly (k + 1) (e ▸ hkb)
        omega
    · by_cases hk : k < m
      · -- the neighbours of `x`
        rw [if_pos hk] at hka
        rw [if_neg hk1] at hkb
        obtain rfl : m = k + 1 := by omega
        exact Or.inr ⟨⟨k, hka, hm⟩, ⟨k + 1, hm, hkb⟩⟩
      · -- both after `x`
        rw [if_neg hk] at hka
        rw [if_neg hk1] at hkb
        refine Or.inl ⟨⟨k + 1, hka, hkb⟩, fun e => ?_, fun e => ?_⟩
        · have := honly (k + 1) (e ▸ hka)
          omega
        · have := honly (k + 1 + 1) (e ▸ hkb)
          omega
  · rintro (⟨⟨k, hka, hkb⟩, hax, hbx⟩ | ⟨⟨k, hka, hkx⟩, ⟨k', hkx', hkb⟩⟩)
    · have hkm : k ≠ m := fun e => hax (Option.some.inj (hka.symm.trans (e ▸ hm)))
      have hk1m : k + 1 ≠ m := fun e => hbx (Option.some.inj (hkb.symm.trans (e ▸ hm)))
      by_cases hk : k < m
      · refine ⟨k, ?_, ?_⟩
        · rw [List.getElem?_eraseIdx, if_pos hk]
          exact hka
        · rw [List.getElem?_eraseIdx, if_pos (by omega)]
          exact hkb
      · obtain ⟨k₀, rfl⟩ : ∃ k₀, k = k₀ + 1 := ⟨k - 1, by omega⟩
        refine ⟨k₀, ?_, ?_⟩
        · rw [List.getElem?_eraseIdx, if_neg (by omega)]
          exact hka
        · rw [List.getElem?_eraseIdx, if_neg (by omega)]
          exact hkb
    · have h1 := honly (k + 1) hkx
      have h2 := honly k' hkx'
      refine ⟨k, ?_, ?_⟩
      · rw [List.getElem?_eraseIdx, if_pos (by omega)]
        exact hka
      · rw [List.getElem?_eraseIdx, if_neg (by omega)]
        rw [show k + 1 + 1 = k' + 1 by omega]
        exact hkb

/-- Dropping the last entry drops its one adjacency. -/
theorem adj_dropLast_iff (hnd : l.Nodup) :
    Adj l.dropLast a b ↔ Adj l a b ∧ l.getLast? ≠ some b := by
  constructor
  · rintro ⟨k, hka, hkb⟩
    rw [List.getElem?_dropLast] at hka hkb
    by_cases hk1 : k + 1 < l.length - 1
    · rw [if_pos (by omega)] at hka
      rw [if_pos hk1] at hkb
      refine ⟨⟨k, hka, hkb⟩, fun hl => ?_⟩
      rw [List.getLast?_eq_getElem?] at hl
      have := index_unique hnd hl hkb
      omega
    · rw [if_neg hk1] at hkb
      cases hkb
  · rintro ⟨⟨k, hka, hkb⟩, hl⟩
    have hk1 : k + 1 < l.length := (List.getElem?_eq_some_iff.mp hkb).1
    have hne : k + 1 ≠ l.length - 1 := by
      intro e
      apply hl
      rw [List.getLast?_eq_getElem?, ← e]
      exact hkb
    refine ⟨k, ?_, ?_⟩
    · rw [List.getElem?_dropLast, if_pos (by omega)]
      exact hka
    · rw [List.getElem?_dropLast, if_pos (by omega)]
      exact hkb

/-- Taking out an entry other than the first keeps the first. -/
theorem head?_erase_of_ne [DecidableEq α] (hnd : l.Nodup) {x : α} (h : l.head? ≠ some x) :
    (l.erase x).head? = l.head? := by
  by_cases hx : x ∈ l
  · obtain ⟨m, hm⟩ := List.mem_iff_getElem?.mp hx
    have hm0 : m ≠ 0 := by
      rintro rfl
      exact h (by rw [List.head?_eq_getElem?]; exact hm)
    rw [erase_eq_eraseIdx_of_nodup hnd hm, List.head?_eq_getElem?, List.head?_eq_getElem?,
      List.getElem?_eraseIdx, if_pos (by omega)]
  · rw [List.erase_of_not_mem hx]

/-- Taking out the first entry makes its successor first. -/
theorem head?_erase_of_adj [DecidableEq α] (hnd : l.Nodup) {x n : α} (hh : l.head? = some x)
    (hxn : Adj l x n) : (l.erase x).head? = some n := by
  rw [List.head?_eq_getElem?] at hh
  obtain ⟨k, hkx, hkn⟩ := hxn
  obtain rfl : 0 = k := index_unique hnd hh hkx
  rw [erase_eq_eraseIdx_of_nodup hnd hh, List.head?_eq_getElem?, List.getElem?_eraseIdx,
    if_neg (by omega)]
  exact hkn

/-- Taking out an entry other than the last keeps the last. -/
theorem getLast?_erase_of_ne [DecidableEq α] (hnd : l.Nodup) {x : α} (h : l.getLast? ≠ some x) :
    (l.erase x).getLast? = l.getLast? := by
  by_cases hx : x ∈ l
  · obtain ⟨m, hm⟩ := List.mem_iff_getElem?.mp hx
    have hmlt : m < l.length := (List.getElem?_eq_some_iff.mp hm).1
    have hml : m ≠ l.length - 1 := by
      intro e
      exact h (by rw [List.getLast?_eq_getElem?, ← e]; exact hm)
    rw [erase_eq_eraseIdx_of_nodup hnd hm, List.getLast?_eq_getElem?, List.getLast?_eq_getElem?,
      List.length_eraseIdx, if_pos hmlt, List.getElem?_eraseIdx, if_neg (by omega)]
    congr 1
    omega
  · rw [List.erase_of_not_mem hx]

/-- The last entry, taken out, leaves the list without its last entry. -/
theorem erase_eq_dropLast [DecidableEq α] (hnd : l.Nodup) {x : α} (hl : l.getLast? = some x) :
    l.erase x = l.dropLast := by
  rw [List.getLast?_eq_getElem?] at hl
  rw [erase_eq_eraseIdx_of_nodup hnd hl, List.eraseIdx_length_sub_one]

/-- Without its last entry, a list of distinct entries holds exactly the others. -/
theorem mem_dropLast_iff (hnd : l.Nodup) {r x : α} (hl : l.getLast? = some r) :
    x ∈ l.dropLast ↔ x ∈ l ∧ x ≠ r := by
  have happ : l.dropLast ++ [r] = l := List.dropLast_append_getLast? r hl
  have hnd' : (l.dropLast ++ [r]).Nodup := by rw [happ]; exact hnd
  have hr : r ∉ l.dropLast := by
    have := List.nodup_append.mp hnd'
    exact fun hm => this.2.2 r hm r (List.mem_singleton_self r) rfl
  constructor
  · intro hx
    exact ⟨List.mem_of_mem_dropLast hx, fun e => hr (e ▸ hx)⟩
  · rintro ⟨hx, hxr⟩
    rw [← happ, List.mem_append, List.mem_singleton] at hx
    exact hx.resolve_right hxr

/-- Putting the first entry back in front of the rest gives the list. -/
theorem cons_erase_of_head? [DecidableEq α] {x : α} (hh : l.head? = some x) :
    x :: l.erase x = l := by
  cases l with
  | nil => cases hh
  | cons y t =>
    obtain rfl : y = x := Option.some.inj hh
    rw [List.erase_cons_head]

/-- Without its last entry, a list ends with the entry before it. -/
theorem getLast?_dropLast_of_adj (hnd : l.Nodup) {x p : α} (hl : l.getLast? = some x)
    (hpx : Adj l p x) : l.dropLast.getLast? = some p := by
  rw [List.getLast?_eq_getElem?] at hl
  obtain ⟨k, hkp, hkx⟩ := hpx
  have hk : k + 1 = l.length - 1 := index_unique hnd hkx hl
  rw [List.getLast?_dropLast, if_neg (by omega), show l.length - 2 = k by omega]
  exact hkp

end Adjacent

/-! ## Positions -/

/-- An injective map from a list of distinct entries into a set no larger than the list meets
every point of the set. -/
theorem exists_mem_eq_of_injOn {α : Type} {l : List α} (hnd : l.Nodup) {f : α → Nat}
    {t : Finset Nat} (hmaps : ∀ x ∈ l, f x ∈ t) (hinj : ∀ x ∈ l, ∀ y ∈ l, f x = f y → x = y)
    (hcard : t.card ≤ l.length) {p : Nat} (hp : p ∈ t) : ∃ x ∈ l, f x = p := by
  classical
  have hsub : l.toFinset.image f ⊆ t := by
    intro q hq
    obtain ⟨x, hx, rfl⟩ := Finset.mem_image.mp hq
    exact hmaps x (List.mem_toFinset.mp hx)
  have himage : (l.toFinset.image f).card = l.length := by
    rw [Finset.card_image_of_injOn, List.toFinset_card_of_nodup hnd]
    intro x hx y hy hxy
    exact hinj x (List.mem_toFinset.mp hx) y (List.mem_toFinset.mp hy) hxy
  -- the image fills `t`
  have heq := Finset.eq_of_subset_of_card_le hsub (by omega)
  rw [← heq] at hp
  obtain ⟨x, hx, hfx⟩ := Finset.mem_image.mp hp
  exact ⟨x, List.mem_toFinset.mp hx, hfx⟩

/-! ## Walking the pointers -/

/-- The positions met following `next`, `n` of them from `p`; `none` where a position met has
no entry. -/
def follow (next : Nat → Option Nat) (p : Nat) : Nat → Option (List Nat)
  | 0 => some []
  | n + 1 => (next p).bind fun q => (follow next q n).map (p :: ·)

/-- Pointers that follow `l` lead from its first entry through the positions of `l`. -/
theorem follow_map {α : Type} {pos : α → Nat} {next : Nat → Option Nat} :
    ∀ {l : List α}, (∀ a b, Adj l a b → next (pos a) = some (pos b)) →
      (∀ r, l.getLast? = some r → (next (pos r)).isSome) →
      ∀ x, l.head? = some x → follow next (pos x) l.length = some (l.map pos)
  | [], _, _, _, hx => by cases hx
  | [y], _, hlast, _, hx => by
    obtain rfl : y = _ := Option.some.inj hx
    obtain ⟨q, hq⟩ := Option.isSome_iff_exists.mp (hlast y rfl)
    simp [follow, hq]
  | y :: z :: t, hnext, hlast, _, hx => by
    obtain rfl : y = _ := Option.some.inj hx
    have hyz : next (pos y) = some (pos z) := hnext y z ⟨0, rfl, rfl⟩
    -- the rest of the list is followed from its own first entry
    have ih := follow_map (l := z :: t)
      (fun a b h => hnext a b (adj_cons_iff.mpr (Or.inr h)))
      (fun r hr => hlast r (by rw [List.getLast?_cons_cons]; exact hr)) z rfl
    simp only [List.length_cons, follow, hyz, Option.bind_some] at ih ⊢
    rw [ih]
    rfl

end Mazze.Linked
