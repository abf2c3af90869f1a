/-
  The delta-MPT `LRU` against a recency list.

  The list model (`listAccess`, `listRun`) is what an LRU cache is for: `access` moves an index
  to the front, evicting the last index when the list is full, and `delete` takes an index out.
  `Linked s store L pos` says that the `LRU` state `s` with the cache store `store` stands for
  the list `L`, the entry of `x` being `recent[pos x]`: the cache indices stand where `pos`
  puts them, each `next` is the position of the following entry, `head` and `rear` are those of
  the first and the last entry, and each handle holds the position of the entry before it,
  `HEAD_POS` for the first and `NULL_POS` for an index not in `L`. `Chain` is the part of it
  that does not fix the length of `recent`; `Unlinked` is the state halfway through `delete`,
  with the deleted entry's node left as a hole.

  Each branch of `access` (`accessHit`, `accessMissInsert`, `accessMissReplaced`) and both parts
  of `delete` (`unlink`, then `moveLast`, through `Unlinked.relocate`) keep the invariant, so
  `Linked.run` holds over every run; `lru_run_refines_list` reads off it that a run from
  `LRU::new` never reads or writes past the end of `recent`, returns what the list returns, and
  that following `next` from `head` meets the list in order, ending at `rear`.
-/
import Mazze.Cache.Lru
import Mazze.Linked.Adjacent
import Mathlib

namespace Mazze.Storage

open Mazze.Linked Mazze.Heap

section ListModel

variable {ι : Type} [DecidableEq ι]

/-! ## The list model -/

/-- `access` on the recency list: `i` moves to the front; an index not in the list evicts the
last one when the list is full. -/
def listAccess (capacity : Nat) (L : List ι) (i : ι) : List ι × CacheAccessResult ι :=
  if i ∈ L then (i :: L.erase i, .hit)
  else if L.length < capacity then (i :: L, .missInsert)
  else (i :: L.dropLast, .missReplaced L.getLast?.toList [])

example : listAccess 2 [1, 2] 3 = ([3, 1], .missReplaced [2] []) := by decide

/-- One operation on the recency list. -/
def listStep (capacity : Nat) (L : List ι) : LRU.Op ι → List ι × LRU.Ret ι
  | .access i => ((listAccess capacity L i).1, .accessed (listAccess capacity L i).2)
  | .delete i => (L.erase i, .deleted)

/-- A sequence of operations on the recency list, with what each returned. -/
def listRun (capacity : Nat) (L : List ι) : List (LRU.Op ι) → List ι × List (LRU.Ret ι)
  | [] => (L, [])
  | op :: ops =>
    let r := listStep capacity L op
    let t := listRun capacity r.1 ops
    (t.1, r.2 :: t.2)

end ListModel

/-! ## The invariant -/

variable {ι : Type}

/-- The pointers of `s` and the handles of `store` follow the list `L`, the entry of `x` being
the node at position `pos x`; `recent` may hold other nodes too. -/
structure Chain (s : LRU ι) (store : ι → LRUHandle) (L : List ι) (pos : ι → Nat) : Prop where
  nodup : L.Nodup
  length_le : s.recent.length ≤ s.capacity
  capacity_lt : s.capacity < headPos
  cacheIndex : ∀ x ∈ L, (s.recent.map (·.cacheIndex))[pos x]? = some x
  next : ∀ a b, Adj L a b → (s.recent.map (·.next))[pos a]? = some (pos b)
  head : ∀ x, L.head? = some x → s.head = pos x
  rear : ∀ x, L.getLast? = some x → s.rear = pos x
  evicted : ∀ x, x ∉ L → store x = ⟨nullPos⟩
  first : ∀ x, L.head? = some x → store x = ⟨headPos⟩
  prev : ∀ a b, Adj L a b → store b = ⟨pos a⟩

/-- The `LRU` state `s` and the store `store` stand for the recency list `L`. -/
structure Linked (s : LRU ι) (store : ι → LRUHandle) (L : List ι) (pos : ι → Nat) : Prop
    extends Chain s store L pos where
  size_eq : s.size = L.length
  length_recent : s.recent.length = L.length

/-- Halfway through `delete`: the entry is unlinked from `L`, and its node, at `hole`, is still
in `recent`; `size` is not yet decremented. -/
structure Unlinked (s : LRU ι) (store : ι → LRUHandle) (L : List ι) (pos : ι → Nat) (hole : Nat) :
    Prop extends Chain s store L pos where
  size_eq : s.size = L.length + 1
  length_recent : s.recent.length = L.length + 1
  hole_lt : hole < L.length + 1
  pos_ne : ∀ x ∈ L, pos x ≠ hole

namespace Chain

variable {s : LRU ι} {store : ι → LRUHandle} {L : List ι} {pos : ι → Nat}

theorem pos_lt (h : Chain s store L pos) {x : ι} (hx : x ∈ L) : pos x < s.recent.length := by
  have hlt := (List.getElem?_eq_some_iff.mp (h.cacheIndex x hx)).1
  simpa using hlt

theorem pos_injective (h : Chain s store L pos) {x y : ι} (hx : x ∈ L) (hy : y ∈ L)
    (hxy : pos x = pos y) : x = y := by
  have hc := h.cacheIndex x hx
  rw [hxy, h.cacheIndex y hy] at hc
  exact (Option.some.inj hc).symm

theorem pos_lt_headPos (h : Chain s store L pos) {x : ι} (hx : x ∈ L) : pos x < headPos := by
  have := h.pos_lt hx
  have := h.length_le
  have := h.capacity_lt
  omega

/-- The node of an entry with a successor. -/
theorem getElem?_of_adj (h : Chain s store L pos) {a b : ι} (hab : Adj L a b) :
    s.recent[pos a]? = some ⟨pos b, a⟩ := by
  have hc := h.cacheIndex a hab.mem_left
  have hn := h.next a b hab
  rw [List.getElem?_map] at hc hn
  cases hq : s.recent[pos a]? with
  | none => simp [hq] at hc
  | some nd =>
    rw [hq] at hc hn
    simp only [Option.map_some, Option.some.injEq] at hc hn
    rw [← hc, ← hn]

/-- The node of any entry. -/
theorem exists_getElem? (h : Chain s store L pos) {x : ι} (hx : x ∈ L) :
    ∃ nx, s.recent[pos x]? = some ⟨nx, x⟩ := by
  have hc := h.cacheIndex x hx
  rw [List.getElem?_map] at hc
  cases hq : s.recent[pos x]? with
  | none => simp [hq] at hc
  | some nd =>
    rw [hq] at hc
    simp only [Option.map_some, Option.some.injEq] at hc
    exact ⟨nd.next, by rw [← hc]⟩

/-- The handle of a cached index: `HEAD_POS` for the first, else the position before. -/
theorem store_of_mem (h : Chain s store L pos) {x : ι} (hx : x ∈ L) :
    (L.head? = some x ∧ store x = ⟨headPos⟩) ∨ ∃ a, Adj L a x ∧ store x = ⟨pos a⟩ := by
  by_cases hh : L.head? = some x
  · exact Or.inl ⟨hh, h.first x hh⟩
  · obtain ⟨a, ha⟩ := exists_adj_left hx hh
    exact Or.inr ⟨a, ha, h.prev a x ha⟩

/-- `is_hit` tells exactly the cached indices. -/
theorem isHit_iff (h : Chain s store L pos) {x : ι} : (store x).isHit = true ↔ x ∈ L := by
  by_cases hx : x ∈ L
  · rcases h.store_of_mem hx with ⟨-, hs⟩ | ⟨a, ha, hs⟩
    · simp [hs, hx, LRUHandle.isHit, headPos, nullPos]
    · have := h.pos_lt_headPos ha.mem_left
      simp only [hs, hx, LRUHandle.isHit, iff_true, bne_iff_ne, ne_eq]
      unfold headPos at this
      unfold nullPos
      omega
  · simp [h.evicted x hx, hx, LRUHandle.isHit]

/-- `is_most_recently_accessed` tells the first entry among the cached ones. -/
theorem isMostRecentlyAccessed_iff (h : Chain s store L pos) {x : ι} (hx : x ∈ L) :
    (store x).isMostRecentlyAccessed = true ↔ L.head? = some x := by
  rcases h.store_of_mem hx with ⟨hh, hs⟩ | ⟨a, ha, hs⟩
  · simp [hs, hh, LRUHandle.isMostRecentlyAccessed]
  · have := h.pos_lt_headPos ha.mem_left
    simp only [hs, LRUHandle.isMostRecentlyAccessed, beq_iff_eq]
    exact ⟨fun e => by omega, fun e => absurd e (ha.head?_ne h.nodup)⟩

end Chain

namespace Linked

variable {s : LRU ι} {store : ι → LRUHandle} {L : List ι} {pos : ι → Nat}

theorem pos_lt (h : Linked s store L pos) {x : ι} (hx : x ∈ L) : pos x < L.length :=
  h.length_recent ▸ h.toChain.pos_lt hx

/-- Every position below the size holds an entry. -/
theorem exists_pos_eq (h : Linked s store L pos) {p : Nat} (hp : p < L.length) :
    ∃ x ∈ L, pos x = p :=
  exists_mem_eq_of_injOn h.nodup (t := Finset.range L.length)
    (fun x hx => Finset.mem_range.mpr (h.pos_lt hx))
    (fun x hx y hy => h.toChain.pos_injective hx hy) (by simp) (Finset.mem_range.mpr hp)

end Linked

namespace Unlinked

variable {s : LRU ι} {store : ι → LRUHandle} {L : List ι} {pos : ι → Nat} {d : Nat}

/-- Every slot but the hole holds an entry. -/
theorem exists_pos_eq (h : Unlinked s store L pos d) {p : Nat} (hp : p < L.length + 1)
    (hpd : p ≠ d) : ∃ x ∈ L, pos x = p := by
  refine exists_mem_eq_of_injOn h.nodup (t := (Finset.range (L.length + 1)).erase d)
    (fun x hx => ?_) (fun x hx y hy => h.toChain.pos_injective hx hy) ?_
    (Finset.mem_erase.mpr ⟨hpd, Finset.mem_range.mpr hp⟩)
  · have := h.toChain.pos_lt hx
    rw [h.length_recent] at this
    exact Finset.mem_erase.mpr ⟨h.pos_ne x hx, Finset.mem_range.mpr this⟩
  · rw [Finset.card_erase_of_mem (Finset.mem_range.mpr h.hole_lt)]
    simp

end Unlinked

/-! ## `access` -/

section Access

variable [DecidableEq ι] {s : LRU ι} {store : ι → LRUHandle} {L : List ι} {pos : ι → Nat}

/-- A miss with room: `i` gets a new node at position `size`, in front. -/
theorem Linked.accessMissInsert (h : Linked s store L pos) {i : ι} (hi : i ∉ L)
    (hlt : L.length < s.capacity) :
    ∃ s' store', s.accessMissInsert store i = some (s', store') ∧ s'.capacity = s.capacity ∧
      Linked s' store' (i :: L) (Function.update pos i L.length) := by
  have hne : ∀ x ∈ L, x ≠ i := fun x hx e => hi (e ▸ hx)
  by_cases hL : L = []
  · -- the first entry: `rear` becomes 0
    subst hL
    have hs0 : s.size = 0 := h.size_eq
    have hr0 : s.recent = [] := List.eq_nil_of_length_eq_zero h.length_recent
    refine ⟨{ s with size := 1, head := 0, rear := 0, recent := [⟨s.head, i⟩] },
      Function.update store i ⟨headPos⟩, by simp [LRU.accessMissInsert, hs0, hr0], rfl, ?_⟩
    refine ⟨⟨by simp, by simp at hlt ⊢; omega, h.capacity_lt, ?_, ?_, ?_, ?_, ?_, ?_, ?_⟩,
      by simp, by simp⟩
    · intro x hx
      obtain rfl := List.mem_singleton.mp hx
      simp
    · intro a b hab
      obtain ⟨k, -, hk⟩ := hab
      simp at hk
    · intro x hx
      obtain rfl := Option.some.inj hx
      simp
    · intro x hx
      obtain rfl := Option.some.inj hx
      simp
    · intro x hx
      rw [Function.update_of_ne (by simpa using hx)]
      exact h.evicted x (List.not_mem_nil)
    · intro x hx
      obtain rfl := Option.some.inj hx
      simp
    · intro a b hab
      obtain ⟨k, -, hk⟩ := hab
      simp at hk
  · obtain ⟨hd, hhd⟩ : ∃ hd, L.head? = some hd := Option.ne_none_iff_exists'.mp (by simpa using hL)
    have hmem : hd ∈ L := List.mem_of_mem_head? hhd
    obtain ⟨nx, hnode⟩ := h.exists_getElem? hmem
    have hsize : s.size ≠ 0 := by
      rw [h.size_eq]
      exact List.length_pos_iff.mpr hL |>.ne'
    have hhlt : pos hd < s.recent.length := (List.getElem?_eq_some_iff.mp hnode).1
    have hhead : s.head = pos hd := h.head hd hhd
    refine ⟨{ s with size := s.size + 1, head := s.size, recent := s.recent ++ [⟨pos hd, i⟩] },
      Function.update (Function.update store i ⟨headPos⟩) hd ⟨s.size⟩, by
        simp [LRU.accessMissInsert, LRU.node, hsize, hhead, List.getElem?_append_left hhlt,
          hnode], rfl, ?_⟩
    -- the entries of `L` keep their positions, below the new one
    have hpos : ∀ x ∈ L, Function.update pos i L.length x = pos x :=
      fun x hx => Function.update_of_ne (hne x hx) _ _
    have hcol : ∀ {β : Type} (f : DoubleLinkListNode ι → β) (x : ι), x ∈ L →
        ((s.recent ++ [(⟨pos hd, i⟩ : DoubleLinkListNode ι)]).map f)[pos x]? =
          (s.recent.map f)[pos x]? := by
      intro β f x hx
      rw [List.map_append, List.getElem?_append_left (by simpa [h.length_recent] using h.pos_lt hx)]
    have hnew : ∀ {β : Type} (f : DoubleLinkListNode ι → β),
        ((s.recent ++ [(⟨pos hd, i⟩ : DoubleLinkListNode ι)]).map f)[L.length]? =
          some (f ⟨pos hd, i⟩) := by
      intro β f
      rw [List.map_append, List.getElem?_append_right (by simp [h.length_recent])]
      simp [h.length_recent]
    refine ⟨⟨List.nodup_cons.mpr ⟨hi, h.nodup⟩, by simpa [h.length_recent] using hlt,
      h.capacity_lt, ?_, ?_, ?_, ?_, ?_, ?_, ?_⟩, by simp [h.size_eq], by simp [h.length_recent]⟩
    · intro x hx
      rcases List.mem_cons.mp hx with rfl | hx
      · simpa using hnew (·.cacheIndex)
      · rw [hpos x hx, hcol _ x hx]
        exact h.cacheIndex x hx
    · intro a b hab
      rcases adj_cons_iff.mp hab with ⟨rfl, hb⟩ | hab
      · -- the new node points to the old head
        obtain rfl : hd = b := Option.some.inj (hhd.symm.trans hb)
        rw [Function.update_self, hpos hd hmem]
        exact hnew (·.next)
      · rw [hpos a hab.mem_left, hpos b hab.mem_right, hcol _ a hab.mem_left]
        exact h.next a b hab
    · intro x hx
      obtain rfl := Option.some.inj hx
      simp [h.size_eq]
    · intro x hx
      rw [List.getLast?_cons_of_ne_nil hL] at hx
      rw [hpos x (List.mem_of_getLast? hx)]
      exact h.rear x hx
    · intro x hx
      have hxi : x ≠ i := fun e => hx (e ▸ List.mem_cons_self)
      have hxL : x ∉ L := fun h' => hx (List.mem_cons_of_mem i h')
      have hxd : x ≠ hd := fun e => hxL (e ▸ hmem)
      rw [Function.update_of_ne hxd, Function.update_of_ne hxi]
      exact h.evicted x hxL
    · intro x hx
      obtain rfl := Option.some.inj hx
      rw [Function.update_of_ne (Ne.symm (hne hd hmem)), Function.update_self]
    · intro a b hab
      rcases adj_cons_iff.mp hab with ⟨rfl, hb⟩ | hab
      · obtain rfl : hd = b := Option.some.inj (hhd.symm.trans hb)
        rw [Function.update_self, Function.update_self, h.size_eq]
      · have hbd : b ≠ hd := fun e => hab.head?_ne h.nodup (e ▸ hhd)
        rw [Function.update_of_ne hbd, Function.update_of_ne (hne b hab.mem_right),
          hpos a hab.mem_left]
        exact h.prev a b hab

/-- A miss in a full cache: the last entry `r` is evicted and its node takes `i`, in front. -/
theorem Linked.accessMissReplaced (h : Linked s store L pos) {i r : ι} (hi : i ∉ L)
    (hr : L.getLast? = some r) :
    ∃ s' store', s.accessMissReplaced store i = some (s', store', .missReplaced [r] []) ∧
      s'.capacity = s.capacity ∧ Linked s' store' (i :: L.dropLast) (Function.update pos i (pos r)) := by
  have hne : ∀ x ∈ L, x ≠ i := fun x hx e => hi (e ▸ hx)
  have hrm : r ∈ L := List.mem_of_getLast? hr
  have hL : L ≠ [] := List.ne_nil_of_mem hrm
  obtain ⟨hd, hhd⟩ : ∃ hd, L.head? = some hd := Option.ne_none_iff_exists'.mp (by simpa using hL)
  have hdm : hd ∈ L := List.mem_of_mem_head? hhd
  obtain ⟨nh, hnh⟩ := h.exists_getElem? hdm
  obtain ⟨nr, hnr⟩ := h.exists_getElem? hrm
  have hrlt : pos r < s.recent.length := (List.getElem?_eq_some_iff.mp hnr).1
  have hdrop : ∀ x, x ∈ L.dropLast ↔ x ∈ L ∧ x ≠ r := fun x => mem_dropLast_iff h.nodup hr
  -- the entries left keep their positions, which differ from the evicted one's
  have hpos : ∀ x ∈ L.dropLast, Function.update pos i (pos r) x = pos x :=
    fun x hx => Function.update_of_ne (hne x ((hdrop x).mp hx).1) _ _
  have hposr : ∀ x ∈ L.dropLast, pos x ≠ pos r := fun x hx e =>
    ((hdrop x).mp hx).2 (h.pos_injective ((hdrop x).mp hx).1 hrm e)
  -- the first entry left, if any, is the old head
  have hhead' : ∀ b, L.dropLast.head? = some b → b = hd ∧ b ∈ L.dropLast := by
    intro b hb
    have hb' := hb
    rw [List.head?_dropLast] at hb
    split at hb
    · exact ⟨Option.some.inj (hb.symm.trans hhd), List.mem_of_mem_head? hb'⟩
    · cases hb
  refine ⟨{ s with
      rear := (Function.update store hd ⟨pos r⟩ r).prevPos, head := pos r,
      recent := (s.recent.modify (pos r) fun n => { n with cacheIndex := i }).modify (pos r)
        fun n => { n with next := pos hd } },
    Function.update (Function.update (Function.update store hd ⟨pos r⟩) r ⟨nullPos⟩) i ⟨headPos⟩,
    by simp [LRU.accessMissReplaced, LRU.node, LRU.setCacheIndex, LRU.setNext, h.head hd hhd,
      h.rear r hr, hnh, (List.getElem?_eq_some_iff.mp hnr).2, hrlt], rfl, ?_⟩
  have hnd' : L.dropLast.Nodup := h.nodup.sublist (List.dropLast_sublist L)
  have hid : i ∉ L.dropLast := fun hm => hi ((hdrop i).mp hm).1
  refine ⟨⟨List.nodup_cons.mpr ⟨hid, hnd'⟩, by simpa using h.length_le, h.capacity_lt, ?_, ?_, ?_,
    ?_, ?_, ?_, ?_⟩, ?_, ?_⟩
  · intro x hx
    rcases List.mem_cons.mp hx with rfl | hx
    · simp [hrlt]
    · simp only [map_cacheIndex_modify_next, map_cacheIndex_modify_cacheIndex, hpos x hx]
      rw [List.getElem?_set_ne (Ne.symm (hposr x hx))]
      exact h.cacheIndex x ((hdrop x).mp hx).1
  · intro a b hab
    rcases adj_cons_iff.mp hab with ⟨rfl, hb⟩ | hab
    · -- the new node points to the old head
      obtain ⟨rfl, hbm⟩ := hhead' b hb
      simp [hpos b hbm, hrlt]
    · obtain ⟨hab, -⟩ := (adj_dropLast_iff h.nodup).mp hab
      have har : pos a ≠ pos r := fun e =>
        hab.getLast?_ne h.nodup (by rw [h.pos_injective hab.mem_left hrm e]; exact hr)
      simp only [map_next_modify_next, map_next_modify_cacheIndex,
        Function.update_of_ne (hne a hab.mem_left), Function.update_of_ne (hne b hab.mem_right)]
      rw [List.getElem?_set_ne (Ne.symm har)]
      exact h.next a b hab
  · intro x hx
    obtain rfl := Option.some.inj hx
    simp
  · intro x hx
    by_cases hdl : L.dropLast = []
    · -- one entry was cached, and it was the head: its handle now points at itself
      rw [hdl] at hx
      obtain rfl := Option.some.inj hx
      have hrd : r = hd := by
        have hlen : L.length = 1 := by
          have := congrArg List.length hdl
          simp at this
          have := List.length_pos_iff.mpr hL
          omega
        obtain ⟨y, rfl⟩ := List.length_eq_one_iff.mp hlen
        exact (Option.some.inj hr).symm.trans (Option.some.inj hhd)
      simp [hrd]
    · rw [List.getLast?_cons_of_ne_nil hdl] at hx
      have hxm : x ∈ L.dropLast := List.mem_of_getLast? hx
      -- the evicted entry had a predecessor, which is now last
      have hrd : L.head? ≠ some r := by
        intro e
        have e0 : L[0]? = some r := by rw [← List.head?_eq_getElem?]; exact e
        have el : L[L.length - 1]? = some r := by rw [← List.getLast?_eq_getElem?]; exact hr
        have := index_unique h.nodup e0 el
        exact hdl (List.eq_nil_of_length_eq_zero (by simp; omega))
      obtain ⟨p, hp⟩ := exists_adj_left hrm hrd
      obtain rfl : p = x := Option.some.inj ((getLast?_dropLast_of_adj h.nodup hr hp).symm.trans hx)
      have hrd' : r ≠ hd := fun e => hrd (e ▸ hhd)
      simp [Function.update_of_ne hrd', h.prev p r hp, hpos p hxm]
  · intro x hx
    have hxi : x ≠ i := fun e => hx (e ▸ List.mem_cons_self)
    have hxd : x ∉ L.dropLast := fun h' => hx (List.mem_cons_of_mem i h')
    by_cases hxr : x = r
    · subst hxr
      rw [Function.update_of_ne hxi, Function.update_self]
    · have hxL : x ∉ L := fun hm => hxd ((hdrop x).mpr ⟨hm, hxr⟩)
      have hxh : x ≠ hd := fun e => hxL (e ▸ hdm)
      rw [Function.update_of_ne hxi, Function.update_of_ne hxr, Function.update_of_ne hxh]
      exact h.evicted x hxL
  · intro x hx
    obtain rfl := Option.some.inj hx
    rw [Function.update_self]
  · intro a b hab
    rcases adj_cons_iff.mp hab with ⟨rfl, hb⟩ | hab
    · obtain ⟨rfl, hbm⟩ := hhead' b hb
      have hbr := ((hdrop b).mp hbm).2
      rw [Function.update_of_ne (hne b hdm), Function.update_of_ne hbr, Function.update_self,
        Function.update_self]
    · obtain ⟨hab, hbl⟩ := (adj_dropLast_iff h.nodup).mp hab
      have hbr : b ≠ r := fun e => hbl (e ▸ hr)
      have hbd : b ≠ hd := fun e => hab.head?_ne h.nodup (e ▸ hhd)
      rw [Function.update_of_ne (hne b hab.mem_right), Function.update_of_ne hbr,
        Function.update_of_ne hbd, Function.update_of_ne (hne a hab.mem_left)]
      exact h.prev a b hab
  · have := List.length_pos_iff.mpr hL
    simp [h.size_eq]
    omega
  · have := List.length_pos_iff.mpr hL
    simp [h.length_recent]
    omega

/-- A hit on `i`, which comes after `p`: `i` is unlinked and put in front. -/
theorem Linked.accessHit (h : Linked s store L pos) {i p : ι} (hpi : Adj L p i) :
    ∃ s' store', s.accessHit store i (pos p) = some (s', store') ∧ s'.capacity = s.capacity ∧
      Linked s' store' (i :: L.erase i) pos := by
  have hnd := h.nodup
  have him : i ∈ L := hpi.mem_right
  have hpm : p ∈ L := hpi.mem_left
  obtain ⟨hd, hhd⟩ : ∃ hd, L.head? = some hd :=
    Option.ne_none_iff_exists'.mp (by simpa using List.ne_nil_of_mem him)
  have hdm : hd ∈ L := List.mem_of_mem_head? hhd
  have hid : i ≠ hd := fun e => hpi.head?_ne hnd (e ▸ hhd)
  have hposid : pos i ≠ pos hd := fun e => hid (h.pos_injective him hdm e)
  have hposip : pos i ≠ pos p := fun e => hpi.ne hnd (h.pos_injective him hpm e).symm
  have hnp : s.recent[pos p]? = some ⟨pos i, p⟩ := h.getElem?_of_adj hpi
  have hilt : pos i < s.recent.length := h.toChain.pos_lt him
  have hplt : pos p < s.recent.length := h.toChain.pos_lt hpm
  have herase : ∀ x, x ∈ L.erase i ↔ x ∈ L ∧ x ≠ i := fun x => by
    rw [hnd.mem_erase_iff]
    exact and_comm
  have hnd' : (i :: L.erase i).Nodup := List.nodup_cons.mpr ⟨hnd.not_mem_erase, hnd.erase i⟩
  have hhead' : (L.erase i).head? = some hd := by
    rw [head?_erase_of_ne hnd (fun e => hid (Option.some.inj (e.symm.trans hhd)))]
    exact hhd
  have hne' : L.erase i ≠ [] := List.ne_nil_of_mem ((herase hd).mpr ⟨hdm, hid.symm⟩)
  have hlen : (i :: L.erase i).length = L.length := by
    have := List.length_pos_iff.mpr (List.ne_nil_of_mem him)
    simp [List.length_erase_of_mem him]
    omega
  -- off the front, the entries of the new list and their handles are those of `L`
  have hfront : ∀ x, x ∉ i :: L.erase i → x ∉ L := fun x hx hxL => by
    by_cases hxi : x = i
    · exact hx (hxi ▸ List.mem_cons_self)
    · exact hx (List.mem_cons_of_mem i ((herase x).mpr ⟨hxL, hxi⟩))
  have hcol : ∀ x ∈ i :: L.erase i, x ∈ L := fun x hx => by
    rcases List.mem_cons.mp hx with rfl | hx
    · exact him
    · exact ((herase x).mp hx).1
  by_cases hlast : L.getLast? = some i
  · -- `i` was last: `rear` moves back to `p`
    have hrear : s.rear = pos i := h.rear i hlast
    obtain ⟨nh, hnh⟩ := h.exists_getElem? hdm
    refine ⟨{ s with
        rear := pos p, head := pos i,
        recent := s.recent.modify (pos i) fun n => { n with next := pos hd } },
      Function.update (Function.update store i ⟨headPos⟩) hd ⟨pos i⟩, by
        simp [LRU.accessHit, LRU.node, LRU.setNext, hnp, hrear, h.head hd hhd, hilt,
          List.getElem?_modify_ne _ _ hposid, hnh], rfl, ?_⟩
    refine ⟨⟨hnd', by simpa using h.length_le, h.capacity_lt, ?_, ?_, ?_, ?_, ?_, ?_, ?_⟩,
      by simp [h.size_eq, hlen], by simp [h.length_recent, hlen]⟩
    · intro x hx
      simpa using h.cacheIndex x (hcol x hx)
    · intro a b hab
      rcases adj_cons_iff.mp hab with ⟨rfl, hb⟩ | hab
      · obtain rfl : hd = b := Option.some.inj (hhead'.symm.trans hb)
        simp [hilt]
      · rcases (adj_erase_iff hnd him).mp hab with ⟨hab, hai, -⟩ | ⟨-, hib⟩
        · have hpa : pos i ≠ pos a := fun e => hai (h.pos_injective hab.mem_left him e.symm)
          simp only [map_next_modify_next]
          rw [List.getElem?_set_ne hpa]
          exact h.next a b hab
        · exact absurd hlast (hib.getLast?_ne hnd)
    · intro x hx
      obtain rfl := Option.some.inj hx
      rfl
    · intro x hx
      rw [List.getLast?_cons_of_ne_nil hne', erase_eq_dropLast hnd hlast,
        getLast?_dropLast_of_adj hnd hlast hpi] at hx
      obtain rfl := Option.some.inj hx
      rfl
    · intro x hx
      have hxL := hfront x hx
      have hxi : x ≠ i := fun e => hxL (e ▸ him)
      have hxd : x ≠ hd := fun e => hxL (e ▸ hdm)
      rw [Function.update_of_ne hxd, Function.update_of_ne hxi]
      exact h.evicted x hxL
    · intro x hx
      obtain rfl := Option.some.inj hx
      rw [Function.update_of_ne hid, Function.update_self]
    · intro a b hab
      rcases adj_cons_iff.mp hab with ⟨rfl, hb⟩ | hab
      · obtain rfl : hd = b := Option.some.inj (hhead'.symm.trans hb)
        rw [Function.update_self]
      · rcases (adj_erase_iff hnd him).mp hab with ⟨hab, -, hbi⟩ | ⟨-, hib⟩
        · have hbd : b ≠ hd := fun e => hab.head?_ne hnd (e ▸ hhd)
          rw [Function.update_of_ne hbd, Function.update_of_ne hbi]
          exact h.prev a b hab
        · exact absurd hlast (hib.getLast?_ne hnd)
  · -- `i` had a successor `n`, which now follows `p`
    obtain ⟨n, hin⟩ := exists_adj_right him hlast
    have hnm : n ∈ L := hin.mem_right
    have hpn : p ≠ n := hpi.ne_of_adj hnd hin
    have hposnp : pos p ≠ pos n := fun e => hpn (h.pos_injective hpm hnm e)
    have hni : s.recent[pos i]? = some ⟨pos n, i⟩ := h.getElem?_of_adj hin
    obtain ⟨r, hr⟩ : ∃ r, L.getLast? = some r :=
      Option.ne_none_iff_exists'.mp (by simpa using List.ne_nil_of_mem him)
    have hrear : s.rear ≠ pos i := by
      rw [h.rear r hr]
      intro e
      exact hlast (h.pos_injective (List.mem_of_getLast? hr) him e ▸ hr)
    obtain ⟨nn, hnn⟩ := h.exists_getElem? hnm
    -- the old head's node, after the write at `p`, still holds `hd`
    obtain ⟨nd, hnd1, hndc⟩ : ∃ nd, (s.recent.modify (pos p)
        fun n' => { n' with next := pos n })[pos hd]? = some nd ∧ nd.cacheIndex = hd := by
      obtain ⟨nh, hnh⟩ := h.exists_getElem? hdm
      rw [List.getElem?_modify, hnh]
      exact ⟨_, rfl, by split <;> rfl⟩
    refine ⟨{ s with
        head := pos i,
        recent := (s.recent.modify (pos p) fun n' => { n' with next := pos n }).modify (pos i)
          fun n' => { n' with next := pos hd } },
      Function.update (Function.update (Function.update store n ⟨pos p⟩) i ⟨headPos⟩) hd ⟨pos i⟩,
      by simp [LRU.accessHit, LRU.node, LRU.setNext, (List.getElem?_eq_some_iff.mp hnp).2,
          Ne.symm hrear, h.head hd hhd, hilt, hplt, (List.getElem?_eq_some_iff.mp hni).2,
          List.getElem?_modify_ne _ _ hposnp, hnn, List.getElem?_modify_ne _ _ hposid, hnd1,
          hndc], rfl, ?_⟩
    refine ⟨⟨hnd', by simpa using h.length_le, h.capacity_lt, ?_, ?_, ?_, ?_, ?_, ?_, ?_⟩,
      by simp [h.size_eq, hlen], by simp [h.length_recent, hlen]⟩
    · intro x hx
      simpa using h.cacheIndex x (hcol x hx)
    · intro a b hab
      simp only [map_next_modify_next]
      rcases adj_cons_iff.mp hab with ⟨rfl, hb⟩ | hab
      · obtain rfl : hd = b := Option.some.inj (hhead'.symm.trans hb)
        simp [hilt]
      · rcases (adj_erase_iff hnd him).mp hab with ⟨hab, hai, hbi⟩ | ⟨hai, hib⟩
        · have hpa : pos i ≠ pos a := fun e => hai (h.pos_injective hab.mem_left him e.symm)
          have hap : a ≠ p := fun e => hbi (hab.right_unique hnd (e ▸ hpi))
          have hpa' : pos p ≠ pos a := fun e => hap (h.pos_injective hab.mem_left hpm e.symm)
          rw [List.getElem?_set_ne hpa, List.getElem?_set_ne hpa']
          exact h.next a b hab
        · -- the predecessor of `i` now points to its successor
          obtain rfl : a = p := hai.left_unique hnd hpi
          obtain rfl : b = n := hib.right_unique hnd hin
          rw [List.getElem?_set_ne hposip, List.getElem?_set_self (by simpa using hplt)]
    · intro x hx
      obtain rfl := Option.some.inj hx
      rfl
    · intro x hx
      rw [List.getLast?_cons_of_ne_nil hne', getLast?_erase_of_ne hnd hlast] at hx
      exact h.rear x hx
    · intro x hx
      have hxL := hfront x hx
      have hxi : x ≠ i := fun e => hxL (e ▸ him)
      have hxd : x ≠ hd := fun e => hxL (e ▸ hdm)
      have hxn : x ≠ n := fun e => hxL (e ▸ hnm)
      rw [Function.update_of_ne hxd, Function.update_of_ne hxi, Function.update_of_ne hxn]
      exact h.evicted x hxL
    · intro x hx
      obtain rfl := Option.some.inj hx
      rw [Function.update_of_ne hid, Function.update_self]
    · intro a b hab
      rcases adj_cons_iff.mp hab with ⟨rfl, hb⟩ | hab
      · obtain rfl : hd = b := Option.some.inj (hhead'.symm.trans hb)
        rw [Function.update_self]
      · have hbd : b ≠ hd := fun e => by
          rcases (adj_erase_iff hnd him).mp hab with ⟨hab, -, -⟩ | ⟨-, hib⟩
          · exact hab.head?_ne hnd (e ▸ hhd)
          · exact hib.head?_ne hnd (e ▸ hhd)
        rcases (adj_erase_iff hnd him).mp hab with ⟨hab, hai, hbi⟩ | ⟨hai, hib⟩
        · have hbn : b ≠ n := fun e => hai (hab.left_unique hnd (e ▸ hin))
          rw [Function.update_of_ne hbd, Function.update_of_ne hbi, Function.update_of_ne hbn]
          exact h.prev a b hab
        · obtain rfl : a = p := hai.left_unique hnd hpi
          obtain rfl : b = n := hib.right_unique hnd hin
          rw [Function.update_of_ne hbd, Function.update_of_ne (hin.ne hnd).symm,
            Function.update_self]

/-- `access` keeps the invariant and returns what the list model returns. -/
theorem Linked.access (h : Linked s store L pos) (hcap : 0 < s.capacity) (i : ι) :
    ∃ s' store' pos', s.access store i = some (s', store', (listAccess s.capacity L i).2) ∧
      s'.capacity = s.capacity ∧ Linked s' store' (listAccess s.capacity L i).1 pos' := by
  by_cases hi : i ∈ L
  · have hhit : (store i).isHit = true := h.isHit_iff.mpr hi
    by_cases hh : L.head? = some i
    · -- the most recently accessed entry: nothing changes
      have hmra : (store i).isMostRecentlyAccessed = true := (h.isMostRecentlyAccessed_iff hi).mpr hh
      refine ⟨s, store, pos, by simp [LRU.access, hhit, hmra, listAccess, hi], rfl, ?_⟩
      simpa [listAccess, hi, cons_erase_of_head? hh] using h
    · obtain ⟨p, hpi⟩ := exists_adj_left hi hh
      have hmra : (store i).isMostRecentlyAccessed = false := by
        simpa using (h.isMostRecentlyAccessed_iff hi).not.mpr hh
      obtain ⟨s', store', heq, hc, h'⟩ := h.accessHit hpi
      have hprev : (store i).prevPos = pos p := by rw [h.prev p i hpi]
      refine ⟨s', store', pos, ?_, hc, by simpa [listAccess, hi] using h'⟩
      simp [LRU.access, hhit, hmra, hprev, heq, listAccess, hi]
  · have hhit : (store i).isHit = false := by simpa using h.isHit_iff.not.mpr hi
    by_cases hlt : L.length < s.capacity
    · obtain ⟨s', store', heq, hc, h'⟩ := h.accessMissInsert hi hlt
      refine ⟨s', store', _, ?_, hc, by simpa [listAccess, hi, hlt] using h'⟩
      simp [LRU.access, hhit, h.size_eq, hlt, heq, listAccess, hi]
    · -- full: the last entry is evicted
      have hL : L ≠ [] := fun e => hlt (by simp [e, hcap])
      obtain ⟨r, hr⟩ : ∃ r, L.getLast? = some r :=
        Option.ne_none_iff_exists'.mp (by simpa using hL)
      obtain ⟨s', store', heq, hc, h'⟩ := h.accessMissReplaced hi hr
      refine ⟨s', store', _, ?_, hc, by simpa [listAccess, hi, hlt] using h'⟩
      simp [LRU.access, hhit, h.size_eq, hlt, heq, listAccess, hi, hr]

end Access

/-! ## `delete` -/

section Delete

variable [DecidableEq ι] {s : LRU ι} {store : ι → LRUHandle} {L : List ι} {pos : ι → Nat}

/-- The first part of `delete` on a cached `i`: `i` is unlinked, and its node stays at `pos i`
as a hole. -/
theorem Linked.unlink (h : Linked s store L pos) {i : ι} (hi : i ∈ L) :
    ∃ s' store', s.unlink (Function.update store i ⟨nullPos⟩) (store i) (pos i) =
        some (s', store') ∧ s'.capacity = s.capacity ∧
      Unlinked s' store' (L.erase i) pos (pos i) := by
  have hnd := h.nodup
  have herase : ∀ x, x ∈ L.erase i ↔ x ∈ L ∧ x ≠ i := fun x => by
    rw [hnd.mem_erase_iff]
    exact and_comm
  have hlen : (L.erase i).length + 1 = L.length := by
    have := List.length_pos_iff.mpr (List.ne_nil_of_mem hi)
    simp [List.length_erase_of_mem hi]
    omega
  have hilt : pos i < L.length := h.pos_lt hi
  have hposne : ∀ x ∈ L.erase i, pos x ≠ pos i := fun x hx e =>
    ((herase x).mp hx).2 (h.pos_injective ((herase x).mp hx).1 hi e)
  have hnd' : (L.erase i).Nodup := hnd.erase i
  -- an index outside the new list is `i` or was not cached
  have hout : ∀ x, x ∉ L.erase i → x = i ∨ x ∉ L := fun x hx => by
    by_cases hxi : x = i
    · exact Or.inl hxi
    · exact Or.inr fun hxL => hx ((herase x).mpr ⟨hxL, hxi⟩)
  have hsize : s.size = (L.erase i).length + 1 := by rw [hlen, h.size_eq]
  have hlenr : s.recent.length = (L.erase i).length + 1 := by rw [hlen, h.length_recent]
  by_cases hlast : L.getLast? = some i
  · have hrear : s.rear = pos i := h.rear i hlast
    have hL' : L.erase i = L.dropLast := erase_eq_dropLast hnd hlast
    by_cases hhd : L.head? = some i
    · -- the only entry: the list becomes empty
      have hhead : s.head = pos i := h.head i hhd
      have he : L.erase i = [] := by
        rw [← List.length_eq_zero_iff]
        have e0 : L[0]? = some i := by rw [← List.head?_eq_getElem?]; exact hhd
        have el : L[L.length - 1]? = some i := by rw [← List.getLast?_eq_getElem?]; exact hlast
        have := index_unique hnd e0 el
        omega
      refine ⟨{ s with rear := (store i).prevPos, head := nullPos },
        Function.update store i ⟨nullPos⟩, by simp [LRU.unlink, hrear, hhead], rfl, ?_⟩
      rw [he] at hsize hlenr ⊢
      refine ⟨⟨List.nodup_nil, h.length_le, h.capacity_lt, ?_, ?_, ?_, ?_, ?_, ?_, ?_⟩,
        hsize, hlenr, by rw [he] at hlen; omega, by simp⟩
      · simp
      · intro a b hab
        exact absurd hab.mem_left (List.not_mem_nil)
      · simp
      · simp
      · intro x _
        rcases eq_or_ne x i with rfl | hxi
        · exact Function.update_self ..
        · rw [Function.update_of_ne hxi]
          exact h.evicted x fun hxL => by simpa [he] using (herase x).mpr ⟨hxL, hxi⟩
      · simp
      · intro a b hab
        exact absurd hab.mem_left (List.not_mem_nil)
    · -- the last entry: `rear` moves back to its predecessor
      obtain ⟨p, hpi⟩ := exists_adj_left hi hhd
      obtain ⟨hd, hhd'⟩ : ∃ hd, L.head? = some hd :=
        Option.ne_none_iff_exists'.mp (by simpa using List.ne_nil_of_mem hi)
      have hid : i ≠ hd := fun e => hhd (e ▸ hhd')
      have hhead : s.head ≠ pos i := by
        rw [h.head hd hhd']
        exact fun e => hid (h.pos_injective hi (List.mem_of_mem_head? hhd') e.symm)
      refine ⟨{ s with rear := pos p }, Function.update store i ⟨nullPos⟩, by
        simp [LRU.unlink, hrear, Ne.symm hhead, h.prev p i hpi], rfl, ?_⟩
      refine ⟨⟨hnd', h.length_le, h.capacity_lt, ?_, ?_, ?_, ?_, ?_, ?_, ?_⟩,
        hsize, hlenr, by omega, hposne⟩
      · intro x hx
        exact h.cacheIndex x ((herase x).mp hx).1
      · intro a b hab
        rcases (adj_erase_iff hnd hi).mp hab with ⟨hab, -, -⟩ | ⟨-, hib⟩
        · exact h.next a b hab
        · exact absurd hlast (hib.getLast?_ne hnd)
      · intro x hx
        rw [head?_erase_of_ne hnd hhd] at hx
        exact h.head x hx
      · intro x hx
        rw [hL', getLast?_dropLast_of_adj hnd hlast hpi] at hx
        obtain rfl := Option.some.inj hx
        rfl
      · intro x hx
        rcases hout x hx with rfl | hxL
        · exact Function.update_self ..
        · rw [Function.update_of_ne (show x ≠ i from fun e => hxL (e ▸ hi))]
          exact h.evicted x hxL
      · intro x hx
        rw [head?_erase_of_ne hnd hhd] at hx
        rw [Function.update_of_ne (show x ≠ i from fun e => hhd (e ▸ hx))]
        exact h.first x hx
      · intro a b hab
        rcases (adj_erase_iff hnd hi).mp hab with ⟨hab, -, hbi⟩ | ⟨-, hib⟩
        · rw [Function.update_of_ne hbi]
          exact h.prev a b hab
        · exact absurd hlast (hib.getLast?_ne hnd)
  · -- `i` has a successor `n`, which takes over the link back
    obtain ⟨n, hin⟩ := exists_adj_right hi hlast
    have hnm : n ∈ L := hin.mem_right
    have hni : n ≠ i := (hin.ne hnd).symm
    have hnode : s.recent[pos i]? = some ⟨pos n, i⟩ := h.getElem?_of_adj hin
    obtain ⟨r, hr⟩ : ∃ r, L.getLast? = some r :=
      Option.ne_none_iff_exists'.mp (by simpa using List.ne_nil_of_mem hi)
    have hrear : s.rear ≠ pos i := by
      rw [h.rear r hr]
      intro e
      exact hlast (h.pos_injective (List.mem_of_getLast? hr) hi e ▸ hr)
    obtain ⟨nn, hnn⟩ := h.exists_getElem? hnm
    have hlast' : (L.erase i).getLast? = L.getLast? := getLast?_erase_of_ne hnd hlast
    by_cases hhd : L.head? = some i
    · -- the first entry: `n` becomes first
      have hhead : s.head = pos i := h.head i hhd
      have hsi : store i = ⟨headPos⟩ := h.first i hhd
      have hhd' : (L.erase i).head? = some n := head?_erase_of_adj hnd hhd hin
      refine ⟨{ s with head := pos n },
        Function.update (Function.update store i ⟨nullPos⟩) n ⟨headPos⟩, by
          simp [LRU.unlink, LRU.node, hrear.symm, hhead, hnode, hnn, hsi], rfl, ?_⟩
      refine ⟨⟨hnd', h.length_le, h.capacity_lt, ?_, ?_, ?_, ?_, ?_, ?_, ?_⟩,
        hsize, hlenr, by omega, hposne⟩
      · intro x hx
        exact h.cacheIndex x ((herase x).mp hx).1
      · intro a b hab
        rcases (adj_erase_iff hnd hi).mp hab with ⟨hab, -, -⟩ | ⟨hai, -⟩
        · exact h.next a b hab
        · exact absurd hhd (hai.head?_ne hnd)
      · intro x hx
        obtain rfl := Option.some.inj (hhd'.symm.trans hx)
        rfl
      · intro x hx
        rw [hlast'] at hx
        exact h.rear x hx
      · intro x hx
        rcases hout x hx with rfl | hxL
        · rw [Function.update_of_ne (Ne.symm hni), Function.update_self]
        · rw [Function.update_of_ne (show x ≠ n from fun e => hxL (e ▸ hnm)),
            Function.update_of_ne (show x ≠ i from fun e => hxL (e ▸ hi))]
          exact h.evicted x hxL
      · intro x hx
        obtain rfl := Option.some.inj (hhd'.symm.trans hx)
        exact Function.update_self ..
      · intro a b hab
        rcases (adj_erase_iff hnd hi).mp hab with ⟨hab, hai, hbi⟩ | ⟨hai, -⟩
        · have hbn : b ≠ n := fun e => hai (hab.left_unique hnd (e ▸ hin))
          rw [Function.update_of_ne hbn, Function.update_of_ne hbi]
          exact h.prev a b hab
        · exact absurd hhd (hai.head?_ne hnd)
    · -- in the middle: the predecessor `p` now points to `n`
      obtain ⟨p, hpi⟩ := exists_adj_left hi hhd
      have hpm : p ∈ L := hpi.mem_left
      obtain ⟨hd, hhd'⟩ : ∃ hd, L.head? = some hd :=
        Option.ne_none_iff_exists'.mp (by simpa using List.ne_nil_of_mem hi)
      have hdm : hd ∈ L := List.mem_of_mem_head? hhd'
      have hid : i ≠ hd := fun e => hhd (e ▸ hhd')
      have hhead : s.head ≠ pos i := by
        rw [h.head hd hhd']
        exact fun e => hid (h.pos_injective hi hdm e.symm)
      have hsi : store i = ⟨pos p⟩ := h.prev p i hpi
      have hplt : pos p < s.recent.length := h.toChain.pos_lt hpm
      have hposnp : pos p ≠ pos n := fun e => hpi.ne_of_adj hnd hin (h.pos_injective hpm hnm e)
      have hposip : pos i ≠ pos p := fun e => hpi.ne hnd (h.pos_injective hi hpm e).symm
      refine ⟨{ s with recent := s.recent.modify (pos p) fun n' => { n' with next := pos n } },
        Function.update (Function.update store i ⟨nullPos⟩) n ⟨pos p⟩, by
          simp [LRU.unlink, LRU.node, LRU.setNext, hrear.symm, hhead.symm, hnode, hsi, hplt,
            List.getElem?_modify_ne _ _ hposnp, hnn], rfl, ?_⟩
      refine ⟨⟨hnd', by simpa using h.length_le, h.capacity_lt, ?_, ?_, ?_, ?_, ?_, ?_, ?_⟩,
        by simpa using hsize, by simpa using hlenr, by omega, hposne⟩
      · intro x hx
        simpa using h.cacheIndex x ((herase x).mp hx).1
      · intro a b hab
        simp only [map_next_modify_next]
        rcases (adj_erase_iff hnd hi).mp hab with ⟨hab, -, hbi⟩ | ⟨hai, hib⟩
        · have hap : a ≠ p := fun e => hbi (hab.right_unique hnd (e ▸ hpi))
          rw [List.getElem?_set_ne (fun e => hap (h.pos_injective hpm hab.mem_left e).symm)]
          exact h.next a b hab
        · obtain rfl : a = p := hai.left_unique hnd hpi
          obtain rfl : b = n := hib.right_unique hnd hin
          rw [List.getElem?_set_self (by simpa using hplt)]
      · intro x hx
        rw [head?_erase_of_ne hnd hhd] at hx
        exact h.head x hx
      · intro x hx
        rw [hlast'] at hx
        exact h.rear x hx
      · intro x hx
        rcases hout x hx with rfl | hxL
        · rw [Function.update_of_ne (Ne.symm hni), Function.update_self]
        · rw [Function.update_of_ne (show x ≠ n from fun e => hxL (e ▸ hnm)),
            Function.update_of_ne (show x ≠ i from fun e => hxL (e ▸ hi))]
          exact h.evicted x hxL
      · intro x hx
        rw [head?_erase_of_ne hnd hhd] at hx
        have hxn : x ≠ n := fun e => hin.head?_ne hnd (e ▸ hx)
        rw [Function.update_of_ne hxn, Function.update_of_ne (show x ≠ i from fun e => hhd (e ▸ hx))]
        exact h.first x hx
      · intro a b hab
        rcases (adj_erase_iff hnd hi).mp hab with ⟨hab, hai, hbi⟩ | ⟨hai, hib⟩
        · have hbn : b ≠ n := fun e => hai (hab.left_unique hnd (e ▸ hin))
          rw [Function.update_of_ne hbn, Function.update_of_ne hbi]
          exact h.prev a b hab
        · obtain rfl : a = p := hai.left_unique hnd hpi
          obtain rfl : b = n := hib.right_unique hnd hin
          exact Function.update_self ..

namespace Unlinked

variable {d : Nat}

/-- The entry `m` whose node ends `recent` moves into the hole: its node `v` stands at `d`, the
pointer to it (the head or its predecessor's `next`) and the link back to it (its successor's
handle or `rear`) say `d`, and `swap_remove` drops the last slot. -/
theorem relocate (h : Unlinked s store L pos d) {m : ι} (hm : m ∈ L) (hpm : pos m = L.length)
    {R : List (DoubleLinkListNode ι)} {v : DoubleLinkListNode ι} {head' rear' : Nat}
    {store' : ι → LRUHandle} (hR : R.length = L.length + 1)
    (hRci : R.map (·.cacheIndex) = s.recent.map (·.cacheIndex)) (hv : v.cacheIndex = m)
    (hvnext : ∀ c, Adj L m c → v.next = pos c)
    (hRnext : ∀ x y, Adj L x y → x ≠ m →
      (R.map (·.next))[pos x]? = some (Function.update pos m d y))
    (hhead : ∀ x, L.head? = some x → head' = Function.update pos m d x)
    (hrear : ∀ x, L.getLast? = some x → rear' = Function.update pos m d x)
    (hsucc : ∀ c, Adj L m c → store' c = ⟨d⟩)
    (hother : ∀ x, (∀ c, Adj L m c → x ≠ c) → store' x = store x) :
    Linked { s with size := L.length, head := head', rear := rear', recent := (R.set d v).dropLast }
      store' L (Function.update pos m d) := by
  have hnd := h.nodup
  have hdlt : d < L.length := by
    have := h.hole_lt
    have := h.pos_ne m hm
    omega
  -- every other entry stays below the new end, off the hole
  have hlt : ∀ x ∈ L, x ≠ m → pos x < L.length ∧ pos x ≠ d := by
    intro x hx hxm
    have h1 := h.toChain.pos_lt hx
    rw [h.length_recent] at h1
    have h2 : pos x ≠ L.length := fun e => hxm (h.toChain.pos_injective hx hm (e.trans hpm.symm))
    exact ⟨by omega, h.pos_ne x hx⟩
  have hread : ∀ {β : Type} (f : DoubleLinkListNode ι → β) (q : Nat), q < L.length →
      (((R.set d v).dropLast).map f)[q]? = if d = q then some (f v) else (R.map f)[q]? := by
    intro β f q hq
    rw [List.map_dropLast, List.map_set, getElem?_set_dropLast _ (by simpa [hR] using hq)]
  have hupd : ∀ x ∈ L, x ≠ m → Function.update pos m d x = pos x :=
    fun x _ hxm => Function.update_of_ne hxm _ _
  refine ⟨⟨hnd, ?_, h.capacity_lt, ?_, ?_, ?_, ?_, ?_, ?_, ?_⟩, rfl, by simp [hR]⟩
  · have := h.length_le
    simp only [List.length_dropLast, List.length_set, hR]
    rw [h.length_recent] at this
    omega
  · intro x hx
    by_cases hxm : x = m
    · subst hxm
      rw [Function.update_self, hread _ _ hdlt, if_pos rfl, hv]
    · rw [hupd x hx hxm, hread _ _ (hlt x hx hxm).1, if_neg (Ne.symm (hlt x hx hxm).2), hRci]
      exact h.cacheIndex x hx
  · intro x y hxy
    by_cases hxm : x = m
    · -- the moved node keeps its successor
      subst hxm
      have hym : y ≠ x := (hxy.ne hnd).symm
      rw [Function.update_self, hread _ _ hdlt, if_pos rfl, hvnext y hxy, hupd y hxy.mem_right hym]
    · rw [hupd x hxy.mem_left hxm, hread _ _ (hlt x hxy.mem_left hxm).1,
        if_neg (Ne.symm (hlt x hxy.mem_left hxm).2)]
      exact hRnext x y hxy hxm
  · exact hhead
  · exact hrear
  · intro x hx
    rw [hother x fun c hc e => hx (e ▸ hc.mem_right)]
    exact h.evicted x hx
  · intro x hx
    rw [hother x fun c hc e => hc.head?_ne hnd (e ▸ hx)]
    exact h.first x hx
  · intro a b hab
    by_cases ham : a = m
    · subst ham
      rw [hsucc b hab, Function.update_self]
    · rw [hother b fun c hc e => ham (hab.left_unique hnd (e ▸ hc)), hupd a hab.mem_left ham]
      exact h.prev a b hab

/-- The second part of `delete`: the node at the end of `recent` moves into the hole, or the
hole, when it is the last node, is dropped. -/
theorem moveLast (h : Unlinked s store L pos d) :
    ∃ s' store' pos', s.moveLast store d = some (s', store') ∧ s'.capacity = s.capacity ∧
      Linked s' store' L pos' := by
  have hnd := h.nodup
  have hsize : s.size ≠ 0 := by
    rw [h.size_eq]
    omega
  have hsub : s.size - 1 = L.length := by
    rw [h.size_eq]
    omega
  have hdlt' : d < s.recent.length := by
    rw [h.length_recent]
    exact h.hole_lt
  by_cases hdl : d = L.length
  · -- the hole is the last node, which `Vec::remove` drops
    subst hdl
    have herase : s.recent.eraseIdx L.length = s.recent.dropLast := by
      rw [show L.length = s.recent.length - 1 by rw [h.length_recent]; omega,
        List.eraseIdx_length_sub_one]
    refine ⟨{ s with size := L.length, recent := s.recent.dropLast }, store, pos, by
      simp [LRU.moveLast, hsize, hsub, hdlt', herase], rfl, ?_⟩
    have hlt : ∀ x ∈ L, pos x < L.length := fun x hx => by
      have h1 := h.toChain.pos_lt hx
      rw [h.length_recent] at h1
      have := h.pos_ne x hx
      omega
    have hread : ∀ {β : Type} (f : DoubleLinkListNode ι → β) (x : ι), x ∈ L →
        (s.recent.dropLast.map f)[pos x]? = (s.recent.map f)[pos x]? := by
      intro β f x hx
      rw [List.map_dropLast, List.getElem?_dropLast,
        if_pos (by simpa [h.length_recent] using hlt x hx)]
    refine ⟨⟨hnd, ?_, h.capacity_lt, ?_, ?_, h.head, h.rear, h.evicted, h.first, h.prev⟩, rfl,
      by simp [h.length_recent]⟩
    · have := h.length_le
      simp only [List.length_dropLast]
      omega
    · intro x hx
      rw [hread _ x hx]
      exact h.cacheIndex x hx
    · intro a b hab
      rw [hread _ a hab.mem_left]
      exact h.next a b hab
  · -- the node of the entry `m` at the end moves into the hole
    obtain ⟨m, hm, hpm⟩ := h.exists_pos_eq (p := L.length) (by omega) (Ne.symm hdl)
    have hmlt : L.length < s.recent.length := by
      rw [h.length_recent]
      omega
    have hupd : ∀ x ∈ L, x ≠ m → Function.update pos m d x = pos x :=
      fun x _ hxm => Function.update_of_ne hxm _ _
    -- no pointer leads to `m` but the head or its predecessor's `next`
    have hnext_of : ∀ x y, Adj L x y → y ≠ m →
        (s.recent.map (·.next))[pos x]? = some (Function.update pos m d y) := by
      intro x y hxy hym
      rw [hupd y hxy.mem_right hym]
      exact h.next x y hxy
    have hrear_of : ∀ x, L.getLast? = some x → x ≠ m → s.rear = Function.update pos m d x :=
      fun x hx hxm => by rw [hupd x (List.mem_of_getLast? hx) hxm]; exact h.rear x hx
    have hhead_of : ∀ x, L.head? = some x → x ≠ m → s.head = Function.update pos m d x :=
      fun x hx hxm => by rw [hupd x (List.mem_of_mem_head? hx) hxm]; exact h.head x hx
    have hlastm : ∀ x, L.getLast? = some x → (s.rear = L.length ↔ x = m) := by
      intro x hx
      rw [h.rear x hx, ← hpm]
      exact ⟨fun e => h.toChain.pos_injective (List.mem_of_getLast? hx) hm e, fun e => e ▸ rfl⟩
    obtain ⟨r, hr⟩ : ∃ r, L.getLast? = some r :=
      Option.ne_none_iff_exists'.mp (by simpa using List.ne_nil_of_mem hm)
    by_cases hH : L.head? = some m
    · have hmra : (store m).isMostRecentlyAccessed = true :=
        (h.isMostRecentlyAccessed_iff hm).mpr hH
      have hnext' : ∀ x y, Adj L x y → x ≠ m →
          (s.recent.map (·.next))[pos x]? = some (Function.update pos m d y) :=
        fun x y hxy _ => hnext_of x y hxy fun e => hxy.head?_ne hnd (e ▸ hH)
      by_cases hT : L.getLast? = some m
      · -- the only entry: head and rear both move
        obtain ⟨nm, hnm⟩ := h.exists_getElem? hm
        rw [hpm] at hnm
        have hrear : s.rear = L.length := (hlastm m hT).mpr rfl
        refine ⟨{ s with
            size := L.length, head := d, rear := d,
            recent := (s.recent.set d ⟨nm, m⟩).dropLast }, store, Function.update pos m d, by
          simp [LRU.moveLast, LRU.node, hsize, hsub, hdl, hmra, hrear,
            swapRemove_eq, h.length_recent, h.hole_lt, (List.getElem?_eq_some_iff.mp hnm).2], rfl, ?_⟩
        refine h.relocate hm hpm h.length_recent rfl rfl
          (fun c hc => absurd hT (hc.getLast?_ne hnd)) hnext' ?_ ?_
          (fun c hc => absurd hT (hc.getLast?_ne hnd)) (fun x _ => rfl)
        · intro x hx
          obtain rfl := Option.some.inj (hH.symm.trans hx)
          rw [Function.update_self]
        · intro x hx
          obtain rfl := Option.some.inj (hT.symm.trans hx)
          rw [Function.update_self]
      · obtain ⟨c, hmc⟩ := exists_adj_right hm hT
        have hnm : s.recent[L.length]? = some ⟨pos c, m⟩ := hpm ▸ h.getElem?_of_adj hmc
        obtain ⟨nc, hnc⟩ := h.exists_getElem? hmc.mem_right
        have hrear : s.rear ≠ L.length := fun e => hT ((hlastm r hr).mp e ▸ hr)
        refine ⟨{ s with
            size := L.length, head := d,
            recent := (s.recent.set d ⟨pos c, m⟩).dropLast },
          Function.update store c ⟨d⟩, Function.update pos m d, by
          simp [LRU.moveLast, LRU.node, hsize, hsub, hdl, hmra, Ne.symm hrear, hnc,
            swapRemove_eq, h.length_recent, h.hole_lt, (List.getElem?_eq_some_iff.mp hnm).2], rfl, ?_⟩
        refine h.relocate hm hpm h.length_recent rfl rfl
          (fun c' hc' => congrArg pos (hmc.right_unique hnd hc')) hnext' ?_
          (fun x hx => hrear_of x hx fun e => hT (e ▸ hx))
          (fun c' hc' => by rw [← hmc.right_unique hnd hc', Function.update_self])
          (fun x hx => Function.update_of_ne (hx c hmc) _ _)
        intro x hx
        obtain rfl := Option.some.inj (hH.symm.trans hx)
        rw [Function.update_self]
    · -- the predecessor `a` of `m` now points to the hole
      obtain ⟨a, ham⟩ := exists_adj_left hm hH
      have hsa : store m = ⟨pos a⟩ := h.prev a m ham
      have hmra : (⟨pos a⟩ : LRUHandle).isMostRecentlyAccessed = false := by
        rw [← hsa]
        simpa using (h.isMostRecentlyAccessed_iff hm).not.mpr hH
      have halt : pos a < s.recent.length := h.toChain.pos_lt ham.mem_left
      have halt' : pos a ≤ L.length := by
        have := h.length_recent
        omega
      have hposam : pos a ≠ L.length := fun e =>
        ham.ne hnd (h.toChain.pos_injective ham.mem_left hm (e.trans hpm.symm))
      have hRci : (s.recent.modify (pos a) fun n' => { n' with next := d }).map (·.cacheIndex) =
          s.recent.map (·.cacheIndex) := map_cacheIndex_modify_next _ _ _
      have hnext' : ∀ x y, Adj L x y → x ≠ m →
          ((s.recent.modify (pos a) fun n' => { n' with next := d }).map (·.next))[pos x]? =
            some (Function.update pos m d y) := by
        intro x y hxy _
        rw [map_next_modify_next]
        by_cases hym : y = m
        · -- the predecessor of `m`
          subst hym
          obtain rfl : x = a := hxy.left_unique hnd ham
          rw [List.getElem?_set_self (by simpa using halt), Function.update_self]
        · have hxa : x ≠ a := fun e => hym (hxy.right_unique hnd (e ▸ ham))
          rw [List.getElem?_set_ne (fun e => hxa (h.toChain.pos_injective hxy.mem_left
            ham.mem_left e.symm))]
          exact hnext_of x y hxy hym
      have hhead' : ∀ x, L.head? = some x → s.head = Function.update pos m d x :=
        fun x hx => hhead_of x hx fun e => hH (e ▸ hx)
      by_cases hT : L.getLast? = some m
      · -- `m` was last: `rear` moves to the hole
        obtain ⟨nm, hnm⟩ := h.exists_getElem? hm
        rw [hpm] at hnm
        have hrear : s.rear = L.length := (hlastm m hT).mpr rfl
        refine ⟨{ s with
            size := L.length, rear := d,
            recent := ((s.recent.modify (pos a) fun n' => { n' with next := d }).set d
              ⟨nm, m⟩).dropLast }, store, Function.update pos m d, by
          simp [LRU.moveLast, LRU.node, LRU.setNext, hsize, hsub, hdl, hmra, hsa,
            halt', hrear, swapRemove_eq, h.length_recent, h.hole_lt,
            List.getElem_modify_ne _ _ hposam, (List.getElem?_eq_some_iff.mp hnm).2], rfl, ?_⟩
        refine h.relocate hm hpm (by simp [h.length_recent]) hRci rfl
          (fun c hc => absurd hT (hc.getLast?_ne hnd)) hnext' hhead' ?_
          (fun c hc => absurd hT (hc.getLast?_ne hnd)) (fun x _ => rfl)
        intro x hx
        obtain rfl := Option.some.inj (hT.symm.trans hx)
        rw [Function.update_self]
      · obtain ⟨c, hmc⟩ := exists_adj_right hm hT
        have hnm : s.recent[L.length]? = some ⟨pos c, m⟩ := hpm ▸ h.getElem?_of_adj hmc
        obtain ⟨nc, hnc⟩ := h.exists_getElem? hmc.mem_right
        have hrear : s.rear ≠ L.length := fun e => hT ((hlastm r hr).mp e ▸ hr)
        obtain ⟨nd, hnd1, hndc⟩ : ∃ nd, (s.recent.modify (pos a)
            fun n' => { n' with next := d })[pos c]? = some nd ∧ nd.cacheIndex = c := by
          rw [List.getElem?_modify, hnc]
          exact ⟨_, rfl, by split <;> rfl⟩
        refine ⟨{ s with
            size := L.length,
            recent := ((s.recent.modify (pos a) fun n' => { n' with next := d }).set d
              ⟨pos c, m⟩).dropLast }, Function.update store c ⟨d⟩, Function.update pos m d, by
          simp [LRU.moveLast, LRU.node, LRU.setNext, hsize, hsub, hdl, hmra, hsa,
            halt', Ne.symm hrear, swapRemove_eq, h.length_recent, h.hole_lt,
            List.getElem_modify_ne _ _ hposam,
            (List.getElem?_eq_some_iff.mp hnm).2, hnd1, hndc], rfl, ?_⟩
        exact h.relocate hm hpm (by simp [h.length_recent]) hRci rfl
          (fun c' hc' => congrArg pos (hmc.right_unique hnd hc')) hnext' hhead'
          (fun x hx => hrear_of x hx fun e => hT (e ▸ hx))
          (fun c' hc' => by rw [← hmc.right_unique hnd hc', Function.update_self])
          (fun x hx => Function.update_of_ne (hx c hmc) _ _)

end Unlinked

omit [DecidableEq ι] in
/-- `get_lru_pos_for_handle` finds the position of a cached index. -/
theorem Linked.getLruPosForHandle (h : Linked s store L pos) {i : ι} (hi : i ∈ L) :
    s.getLruPosForHandle (store i) = some (pos i) := by
  rcases h.store_of_mem hi with ⟨hh, hs⟩ | ⟨p, hpi, hs⟩
  · simp [LRU.getLruPosForHandle, hs, LRUHandle.isMostRecentlyAccessed, h.head i hh]
  · have hmra : (store i).isMostRecentlyAccessed = false := by
      simpa using (h.isMostRecentlyAccessed_iff hi).not.mpr (hpi.head?_ne h.nodup)
    rw [hs] at hmra
    simp [LRU.getLruPosForHandle, LRU.node, hs, hmra, h.getElem?_of_adj hpi]

/-- `delete` keeps the invariant for the list without `i`. -/
theorem Linked.delete (h : Linked s store L pos) (i : ι) :
    ∃ s' store' pos', s.delete store i = some (s', store') ∧ s'.capacity = s.capacity ∧
      Linked s' store' (L.erase i) pos' := by
  by_cases hi : i ∈ L
  · have hhit : (store i).isHit = true := h.isHit_iff.mpr hi
    obtain ⟨s₁, store₁, hu, hc₁, hs₁⟩ := h.unlink hi
    obtain ⟨s', store', pos', hm, hc', h'⟩ := hs₁.moveLast
    refine ⟨s', store', pos', ?_, hc'.trans hc₁, h'⟩
    simp [LRU.delete, hhit, h.getLruPosForHandle hi, hu, hm]
  · have hhit : (store i).isHit = false := by simpa using h.isHit_iff.not.mpr hi
    refine ⟨s, store, pos, by simp [LRU.delete, hhit], rfl, ?_⟩
    rwa [List.erase_of_not_mem hi]

end Delete

/-! ## Runs -/

section Run

variable [DecidableEq ι] {s : LRU ι} {store : ι → LRUHandle} {L : List ι} {pos : ι → Nat}

/-- One operation keeps the invariant and returns what the list model returns. -/
theorem Linked.step (h : Linked s store L pos) (hcap : 0 < s.capacity) (op : LRU.Op ι) :
    ∃ s' store' pos', s.step store op = some (s', store', (listStep s.capacity L op).2) ∧
      s'.capacity = s.capacity ∧ Linked s' store' (listStep s.capacity L op).1 pos' := by
  cases op with
  | access i =>
    obtain ⟨s', store', pos', ha, hc, h'⟩ := h.access hcap i
    exact ⟨s', store', pos', by simp [LRU.step, ha, listStep], hc, h'⟩
  | delete i =>
    obtain ⟨s', store', pos', hd, hc, h'⟩ := h.delete i
    exact ⟨s', store', pos', by simp [LRU.step, hd, listStep], hc, h'⟩

/-- Every run keeps the invariant and returns what the list model returns. -/
theorem Linked.run (h : Linked s store L pos) (hcap : 0 < s.capacity) (ops : List (LRU.Op ι)) :
    ∃ s' store' pos', s.run store ops = some (s', store', (listRun s.capacity L ops).2) ∧
      Linked s' store' (listRun s.capacity L ops).1 pos' := by
  induction ops generalizing s store L pos with
  | nil => exact ⟨s, store, pos, rfl, h⟩
  | cons op ops ih =>
    obtain ⟨s₁, store₁, pos₁, hs, hc, h₁⟩ := h.step hcap op
    obtain ⟨s', store', pos', hr, h'⟩ := ih h₁ (hc ▸ hcap)
    refine ⟨s', store', pos', ?_, by simpa [listRun, hc] using h'⟩
    simp [LRU.run, hs, hr, listRun, hc]

omit [DecidableEq ι] in
/-- `LRU::new` stands for the empty list. -/
theorem new_linked {capacity : Nat} (hcap : capacity < headPos) (pos : ι → Nat) :
    ∃ s, LRU.new capacity = some s ∧ s.capacity = capacity ∧ Linked s (fun _ => default) [] pos := by
  have hne : capacity ≠ nullPos := by
    unfold headPos at hcap
    unfold nullPos
    omega
  refine ⟨⟨0, capacity, nullPos, headPos, []⟩, by simp [LRU.new, hne], rfl, ?_⟩
  refine ⟨⟨List.nodup_nil, by simp, hcap, ?_, ?_, ?_, ?_, fun _ _ => rfl, ?_, ?_⟩, rfl, rfl⟩ <;>
    simp [Adj]

omit [DecidableEq ι] in
/-- Following `next` from `head` meets the list's entries in order and ends at `rear`. -/
theorem Linked.follow_eq (h : Linked s store L pos) :
    follow (fun p => (s.recent.map (·.next))[p]?) s.head s.size = some (L.map pos) := by
  rw [h.size_eq]
  cases hL : L.head? with
  | none =>
    rw [List.head?_eq_none_iff] at hL
    subst hL
    rfl
  | some x =>
    rw [h.head x hL]
    refine follow_map (fun a b hab => h.next a b hab) (fun r hr => ?_) x hL
    have hlt := h.toChain.pos_lt (List.mem_of_getLast? hr)
    simp [hlt]

/-- Over every run from `LRU::new`, with the store at the default handle everywhere: no position
past the end of `recent` is read or written and nothing panics (the run returns), each
operation returns what the recency list returns, following `next` from `head` visits `size`
distinct nodes, ending at `rear`, whose cache indices are the list in order, and `is_hit` holds
of exactly the listed indices. -/
theorem lru_run_refines_list (capacity : Nat) (hpos : 0 < capacity) (hcap : capacity < headPos)
    (ops : List (LRU.Op ι)) :
    ∃ s store rs, ((LRU.new capacity).bind fun s => s.run (fun _ => default) ops) =
        some (s, store, rs) ∧ rs = (listRun capacity [] ops).2 ∧
      (∃ ps, follow (fun p => (s.recent.map (·.next))[p]?) s.head s.size = some ps ∧
        ps.Nodup ∧ (∀ p, ps.getLast? = some p → p = s.rear) ∧
        ps.map (fun p => (s.recent.map (·.cacheIndex))[p]?) =
          (listRun capacity [] ops).1.map some) ∧
      ∀ x, (store x).isHit = true ↔ x ∈ (listRun capacity [] ops).1 := by
  obtain ⟨s₀, hnew, hc₀, h₀⟩ := new_linked hcap (fun _ : ι => 0)
  obtain ⟨s, store, pos, hrun, h⟩ := h₀.run (hc₀ ▸ hpos) ops
  rw [hc₀] at hrun h
  refine ⟨s, store, _, by simp [hnew, hrun], rfl, ⟨_, h.follow_eq, ?_, ?_, ?_⟩,
    fun x => h.isHit_iff⟩
  · exact h.nodup.map_on fun x hx y hy hxy => h.toChain.pos_injective hx hy hxy
  · intro p hp
    rw [List.getLast?_map] at hp
    obtain ⟨r, hr, rfl⟩ := Option.map_eq_some_iff.mp hp
    exact (h.rear r hr).symm
  · rw [List.map_map]
    exact List.map_congr_left fun x hx => h.cacheIndex x hx

/-- Accessing 1, 2, 1 and 3 and deleting 1, in a cache of two entries. -/
def twoEntryOps : List (LRU.Op Nat) := [.access 1, .access 2, .access 1, .access 3, .delete 1]

/-- That run from `LRU::new(2)`: two inserting misses, a hit on 1, a replacing miss on 3 that
evicts 2, the least recently accessed, and the deletion of 1 leave 3 alone in the list, which
following `next` from `head` reads and `is_hit` holds of. -/
theorem lru_run_refines_list_of_two : 0 < 2 ∧ 2 < headPos ∧
    ∃ s store, ((LRU.new 2).bind fun s => s.run (fun _ => default) twoEntryOps) =
        some (s, store, [.accessed .missInsert, .accessed .missInsert, .accessed .hit,
          .accessed (.missReplaced [2] []), .deleted]) ∧
      (∃ ps, follow (fun p => (s.recent.map (·.next))[p]?) s.head s.size = some ps ∧
        ps.map (fun p => (s.recent.map (·.cacheIndex))[p]?) = [some 3]) ∧
      ∀ x, (store x).isHit = true ↔ x = 3 := by
  obtain ⟨s, store, rs, hrun, hrs, ⟨ps, hfollow, -, -, hps⟩, hhit⟩ :=
    lru_run_refines_list 2 (by decide) (by decide) twoEntryOps
  have hlist : listRun 2 [] twoEntryOps = ([3], [.accessed .missInsert, .accessed .missInsert,
      .accessed .hit, .accessed (.missReplaced [2] []), .deleted]) := by decide
  rw [hlist] at hrs hps hhit
  subst hrs
  exact ⟨by decide, by decide, s, store, hrun, ⟨ps, hfollow, hps⟩,
    fun x => (hhit x).trans List.mem_singleton⟩

end Run

end Mazze.Storage
