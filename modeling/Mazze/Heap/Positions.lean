/-
  Position tables: a hash map from each key of a list to its index, kept beside an array whose
  entries move.

  `PositionsExcept l t ex`: for every key outside `ex`, `t` maps it to exactly the positions of
  `l` that hold it. With nothing exempt, `t` is the inverse of `l`, and the keys of `l` are
  distinct (`nodup`). While entries move, the keys whose positions are stale are the exempt
  ones: `move` records an entry moved into the hole, `insert` the key written where a hole
  stops, `erase` drops a key the list no longer holds, and `swapRemove` and `append` say which
  keys a removal or a push leaves stale.

  The last part is about lists whose entries have distinct keys under some `f`: what a write at
  the position of a key with the same key, and taking one entry out, leave in them.
-/
import Mazze.Heap.Array
import Mathlib

namespace Mazze.Heap

/-- In a list of distinct keys, the key at `p` is at `p` only. -/
theorem getElem?_eq_some_iff_of_nodup {α : Type} {l : List α} (hnd : l.Nodup) {p i : Nat} {k : α}
    (hp : l[p]? = some k) : l[i]? = some k ↔ p = i := by
  have hlt : p < l.length := (List.getElem?_eq_some_iff.mp hp).1
  constructor
  · intro hi
    exact (List.getElem?_inj hlt hnd).mp (hp.trans hi.symm)
  · rintro rfl
    exact hp

section Table

variable {α : Type} [DecidableEq α] [Hashable α]

/-- `t` maps each key outside `ex` to exactly the positions of `l` that hold it. -/
def PositionsExcept (l : List α) (t : Std.HashMap α Nat) (ex : α → Prop) : Prop :=
  ∀ k, ¬ ex k → ∀ i, t[k]? = some i ↔ l[i]? = some k

variable {l l' : List α} {t : Std.HashMap α Nat} {ex ex' : α → Prop}

/-- A table right outside `ex` for `l` is right outside `ex' ⊇ ex` for any `l'` that holds the
keys outside `ex'` where `l` does. -/
theorem PositionsExcept.congr (h : PositionsExcept l t ex) (hex : ∀ k, ex k → ex' k)
    (hl : ∀ k, ¬ ex' k → ∀ i : Nat, l'[i]? = some k ↔ l[i]? = some k) : PositionsExcept l' t ex' :=
  fun k hk i => (h k (fun hk' => hk (hex k hk')) i).trans (hl k hk i).symm

theorem PositionsExcept.mono (h : PositionsExcept l t ex) (hex : ∀ k, ex k → ex' k) :
    PositionsExcept l t ex' :=
  h.congr hex fun _ _ _ => Iff.rfl

theorem PositionsExcept.eq_of_getElem? (h : PositionsExcept l t ex) {k : α} (hk : ¬ ex k)
    {i j : Nat} (hi : l[i]? = some k) (hj : l[j]? = some k) : i = j :=
  Option.some.inj (((h k hk i).mpr hi).symm.trans ((h k hk j).mpr hj))

/-- A list with a full position table has distinct keys. -/
theorem PositionsExcept.nodup (h : PositionsExcept l t fun _ => False) : l.Nodup := by
  rw [List.nodup_iff_getElem?_ne_getElem?]
  intro i j hij hj heq
  have hjk : l[j]? = some l[j] := List.getElem?_eq_getElem hj
  have := h.eq_of_getElem? (fun hf => hf) (heq.trans hjk) hjk
  omega

/-- Recording where a key stands makes it right. -/
theorem PositionsExcept.insert (h : PositionsExcept l t ex) (hnd : l.Nodup) {k : α} {p : Nat}
    (hp : l[p]? = some k) : PositionsExcept l (t.insert k p) fun k' => ex k' ∧ k' ≠ k := by
  intro k' hk' i
  rw [Std.HashMap.getElem?_insert]
  by_cases hkk : k = k'
  · subst hkk
    rw [if_pos (beq_self_eq_true k), Option.some_inj]
    exact (getElem?_eq_some_iff_of_nodup hnd hp).symm
  · rw [if_neg (by simpa using hkk)]
    exact h k' (fun hex => hk' ⟨hex, Ne.symm hkk⟩) i

/-- Erasing a key the list does not hold makes it right. -/
theorem PositionsExcept.erase (h : PositionsExcept l t ex) {k : α} (hk : k ∉ l) :
    PositionsExcept l (t.erase k) fun k' => ex k' ∧ k' ≠ k := by
  intro k' hk' i
  rw [Std.HashMap.getElem?_erase]
  by_cases hkk : k = k'
  · subst hkk
    rw [if_pos (beq_self_eq_true k)]
    exact ⟨fun hn => absurd hn (Option.some_ne_none i).symm,
      fun hi => absurd (List.mem_of_getElem? hi) hk⟩
  · rw [if_neg (by simpa using hkk)]
    exact h k' (fun hex => hk' ⟨hex, Ne.symm hkk⟩) i

/-- One step of a sift: the entry at `src` moves into the hole at `pos` and its new position is
recorded; `v`, meant for the hole and exempt, is now meant for `src`. -/
theorem PositionsExcept.move {pos src : Nat} {v : α} (h : PositionsExcept (l.set pos v) t ex)
    (hnd : (l.set pos v).Nodup) (hv : ex v) (hpos : pos < l.length) (hsrc : src < l.length)
    (hne : src ≠ pos) :
    PositionsExcept ((l.set pos l[src]).set src v) (t.insert l[src] pos) ex := by
  have hnd' : ((l.set pos l[src]).set src v).Nodup :=
    (perm_move_hole hpos hsrc hne v).nodup_iff.mpr hnd
  -- off `v` and the moved key, both lists hold every key where the other does
  have hsame : PositionsExcept ((l.set pos l[src]).set src v) t fun k => ex k ∨ k = l[src] := by
    refine h.congr (fun k hk => Or.inl hk) ?_
    intro k hk i
    have hkv : v ≠ k := fun e => hk (Or.inl (e ▸ hv))
    have hks : l[src] ≠ k := fun e => hk (Or.inr e.symm)
    simp only [List.getElem?_set, List.length_set, if_pos hpos, if_pos hsrc]
    by_cases hsi : src = i
    · subst hsi
      simp [Ne.symm hne, hkv, hks, List.getElem?_eq_getElem hsrc]
    · by_cases hpi : pos = i <;> simp [hsi, hpi, hkv, hks]
  have hp : ((l.set pos l[src]).set src v)[pos]? = some l[src] := by
    rw [List.getElem?_set_ne hne, List.getElem?_set_self hpos]
  exact (hsame.insert hnd' hp).mono fun k hk => hk.1.resolve_right hk.2

/-- `swap_remove` at `i` leaves the moved last key and the removed key stale. -/
theorem PositionsExcept.swapRemove (h : PositionsExcept l t ex) {i : Nat} (hi : i < l.length)
    {last : α} (hl : l[l.length - 1]? = some last) :
    PositionsExcept ((l.set i last).dropLast) t fun k => ex k ∨ k = last ∨ k = l[i] := by
  refine h.congr (fun k hk => Or.inl hk) ?_
  intro k hk j
  have hlast : last ≠ k := fun e => hk (Or.inr (Or.inl e.symm))
  have hrem : l[i] ≠ k := fun e => hk (Or.inr (Or.inr e.symm))
  simp only [List.getElem?_dropLast, List.getElem?_set, List.length_set, if_pos hi]
  by_cases hj : j < l.length - 1
  · by_cases hij : i = j
    · subst hij
      simp [hj, hlast, hrem, List.getElem?_eq_getElem hi]
    · simp [hj, hij]
  · -- past the new end only the moved last key stood
    rw [if_neg hj]
    by_cases hjl : j = l.length - 1
    · subst hjl
      simp [hlast, hl]
    · rw [List.getElem?_eq_none (by omega)]

/-- A pushed key is stale until its position is recorded. -/
theorem PositionsExcept.append (h : PositionsExcept l t ex) (k : α) :
    PositionsExcept (l ++ [k]) t fun k' => ex k' ∨ k' = k := by
  refine h.congr (fun k' hk' => Or.inl hk') ?_
  intro k' hk' i
  have hkk : k ≠ k' := fun e => hk' (Or.inr e.symm)
  rw [List.getElem?_append]
  split
  · rfl
  · have hnone : l[i]? = none := List.getElem?_eq_none (by omega)
    rw [hnone, List.getElem?_singleton]
    split <;> simp [hkk]

end Table

/-! ## Lists with distinct keys -/

section Keyed

variable {β κ : Type} (f : β → κ) {l r : List β}

/-- Writing `x` at the position of `a`, with `a`'s key, replaces `a` and no other entry. -/
theorem mem_set_of_nodup_map (hnd : (l.map f).Nodup) {p : Nat} {a : β} (hp : l[p]? = some a)
    (x : β) (hx : f x = f a) (y : β) : y ∈ l.set p x ↔ y = x ∨ (y ∈ l ∧ f y ≠ f a) := by
  have hlt : p < l.length := (List.getElem?_eq_some_iff.mp hp).1
  have hfp : (l.map f)[p]? = some (f a) := by rw [List.getElem?_map, hp]; rfl
  -- the only position that holds `a`'s key is `p`
  have honly : ∀ j, (l.map f)[j]? = some (f a) → p = j :=
    fun j hj => (getElem?_eq_some_iff_of_nodup hnd hfp).mp hj
  constructor
  · intro hy
    obtain ⟨j, hj⟩ := List.mem_iff_getElem?.mp hy
    rw [List.getElem?_set] at hj
    by_cases hpj : p = j
    · rw [if_pos hpj, if_pos hlt] at hj
      exact Or.inl (Option.some.inj hj).symm
    · rw [if_neg hpj] at hj
      refine Or.inr ⟨List.mem_of_getElem? hj, fun hfy => hpj (honly j ?_)⟩
      rw [List.getElem?_map, hj, Option.map_some, hfy]
  · rintro (rfl | ⟨hy, hfy⟩)
    · exact List.mem_set hlt _
    · obtain ⟨j, hj⟩ := List.mem_iff_getElem?.mp hy
      have hpj : p ≠ j := by
        rintro rfl
        exact hfy (by rw [hp] at hj; rw [Option.some.inj hj])
      exact List.mem_of_getElem? (by rw [List.getElem?_set_ne hpj]; exact hj)

/-- Taking `a` out of a list with distinct keys leaves exactly the entries of other keys. -/
theorem mem_of_perm_cons_of_nodup_map {a : β} (hp : (a :: r).Perm l) (hnd : (l.map f).Nodup)
    (y : β) : y ∈ r ↔ y ∈ l ∧ f y ≠ f a := by
  have hnd' : ((a :: r).map f).Nodup := (hp.map f).nodup_iff.mpr hnd
  rw [List.map_cons, List.nodup_cons] at hnd'
  constructor
  · intro hy
    exact ⟨hp.subset (List.mem_cons_of_mem a hy),
      fun hfy => hnd'.1 (hfy ▸ List.mem_map_of_mem hy)⟩
  · rintro ⟨hy, hfy⟩
    rcases List.mem_cons.mp (hp.symm.subset hy) with rfl | hr
    · exact absurd rfl hfy
    · exact hr

end Keyed

end Mazze.Heap
