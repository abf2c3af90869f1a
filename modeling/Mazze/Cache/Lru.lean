/-
  `LRU` of the delta-MPT node cache (`cache/algorithm/lru.rs`): a doubly linked recency list in
  a `Vec` of nodes, the most recently accessed entry first.

  `recent[p]` holds a cache index and the position `next` of the entry accessed before it. The
  link back is the `prev_pos` of the index's `LRUHandle`, which the cache store
  (`CacheStoreUtil`) keeps; the store is a total map from cache index to handle here.
  `HEAD_POS` marks the most recently accessed entry and `NULL_POS` an index that is not cached.
  Positions are `u32`s in the source and `Nat`s here, with `HEAD_POS` and `NULL_POS` at their
  `u32` values: `size += 1` runs only while `size < capacity`, so nothing wraps.

  `get_unchecked_mut(pos)` reads or writes `recent[pos]` with no bounds check. A position past
  the end is `none` here, and so are the panics: `new` with `capacity = NULL_POS`, `size -= 1`
  below zero and `Vec::remove` or `Vec::swap_remove` past the end. A handle setter of
  `CacheAlgoDataAdapter` writes the handle back when it is dropped. That is at the end of its
  statement, except for `rear_handle` in a replacing miss, which is written back at the end of
  its block.

  `step` runs one `access` or `delete`, and `run` a sequence of them. The lemmas beside the
  writes say what they do to the two columns of `recent`, its `next`s and its cache indices.
-/
import Mazze.Heap.Array
import Mathlib

namespace Mazze.Storage

open Mazze.Heap

/-- `LRUHandle::HEAD_POS`, `-2` as a `u32`. -/
def headPos : Nat := 2 ^ 32 - 2

/-- `LRUHandle::NULL_POS`, `-1` as a `u32`. -/
def nullPos : Nat := 2 ^ 32 - 1

/-- `LRUHandle`: what the cache store keeps for a cache index. -/
structure LRUHandle where
  prevPos : Nat
  deriving DecidableEq, Repr

namespace LRUHandle

/-- `Default`: an index not cached. -/
instance : Inhabited LRUHandle := ⟨⟨nullPos⟩⟩

/-- `is_hit`. -/
def isHit (h : LRUHandle) : Bool := h.prevPos != nullPos

/-- `is_most_recently_accessed`. -/
def isMostRecentlyAccessed (h : LRUHandle) : Bool := h.prevPos == headPos

end LRUHandle

/-- `DoubleLinkListNode`: the link back is in the handle of `cacheIndex`. -/
structure DoubleLinkListNode (ι : Type) where
  next : Nat
  cacheIndex : ι
  deriving DecidableEq, Repr

/-- `LRU`. -/
structure LRU (ι : Type) where
  size : Nat
  capacity : Nat
  head : Nat
  rear : Nat
  recent : List (DoubleLinkListNode ι)

/-- `CacheAccessResult`. -/
inductive CacheAccessResult (ι : Type) where
  | hit
  | missInsert
  | missReplaced (evicted : List ι) (evictedKeepCacheAlgoData : List ι)
  deriving DecidableEq, Repr

section Columns

variable {ι : Type} (l : List (DoubleLinkListNode ι)) (p : Nat)

/-- A write to a `next` leaves the cache indices. -/
@[simp] theorem map_cacheIndex_modify_next (v : Nat) :
    (l.modify p fun n => { n with next := v }).map (·.cacheIndex) = l.map (·.cacheIndex) := by
  apply List.ext_getElem?
  intro j
  simp only [List.getElem?_map, List.getElem?_modify]
  cases l[j]? <;> split <;> rfl

@[simp] theorem map_next_modify_next (v : Nat) :
    (l.modify p fun n => { n with next := v }).map (·.next) = (l.map (·.next)).set p v := by
  apply List.ext_getElem?
  intro j
  simp only [List.getElem?_map, List.getElem?_modify, List.getElem?_set, List.length_map]
  by_cases hpj : p = j
  · subst hpj
    by_cases hp : p < l.length <;> simp [hp]
  · simp [hpj]

@[simp] theorem map_next_modify_cacheIndex (c : ι) :
    (l.modify p fun n => { n with cacheIndex := c }).map (·.next) = l.map (·.next) := by
  apply List.ext_getElem?
  intro j
  simp only [List.getElem?_map, List.getElem?_modify]
  cases l[j]? <;> split <;> rfl

@[simp] theorem map_cacheIndex_modify_cacheIndex (c : ι) :
    (l.modify p fun n => { n with cacheIndex := c }).map (·.cacheIndex) =
      (l.map (·.cacheIndex)).set p c := by
  apply List.ext_getElem?
  intro j
  simp only [List.getElem?_map, List.getElem?_modify, List.getElem?_set, List.length_map]
  by_cases hpj : p = j
  · subst hpj
    by_cases hp : p < l.length <;> simp [hp]
  · simp [hpj]

end Columns

namespace LRU

variable {ι : Type} [DecidableEq ι]

/-- `LRU::new`: panics when `capacity` is `NULL_POS`. -/
def new (capacity : Nat) : Option (LRU ι) :=
  if capacity = nullPos then none
  else some ⟨0, capacity, nullPos, headPos, []⟩

/-- `get_unchecked_mut(pos)`, read: `none` past the end of `recent`. -/
def node (s : LRU ι) (pos : Nat) : Option (DoubleLinkListNode ι) := s.recent[pos]?

/-- `get_unchecked_mut(pos).next = next`. -/
def setNext (s : LRU ι) (pos next : Nat) : Option (LRU ι) :=
  if pos < s.recent.length then
    some { s with recent := s.recent.modify pos fun n => { n with next := next } }
  else none

/-- `replace(&mut get_unchecked_mut(pos).cache_index, cacheIndex)`. -/
def setCacheIndex (s : LRU ι) (pos : Nat) (cacheIndex : ι) : Option (LRU ι) :=
  if pos < s.recent.length then
    some { s with recent := s.recent.modify pos fun n => { n with cacheIndex := cacheIndex } }
  else none

/-! ## `access` -/

/-- `access` of a cached index that is not the most recently accessed: its entry, the one after
the entry at the handle's `prevPos`, is unlinked and put in front. -/
def accessHit (s : LRU ι) (store : ι → LRUHandle) (cacheIndex : ι) (prevPos : Nat) :
    Option (LRU ι × (ι → LRUHandle)) := do
  let elementPos := (← s.node prevPos).next
  -- Move the accessed element to head.
  let oldHead := s.head
  let (s, store) ← if elementPos = s.rear then
      -- Update rear.
      pure ({ s with rear := prevPos }, store)
    else do
      -- Update prev_pos. There is no need to update if it's the rear.
      let next := (← s.node elementPos).next
      let s ← s.setNext prevPos next
      pure (s, Function.update store (← s.node next).cacheIndex ⟨prevPos⟩)
  -- Set new head.
  let s ← { s with head := elementPos }.setNext elementPos oldHead
  let store := Function.update store cacheIndex ⟨headPos⟩
  -- Update old head.
  pure (s, Function.update store (← s.node oldHead).cacheIndex ⟨elementPos⟩)

/-- `access` of an index not cached while `size < capacity`: a node is pushed and becomes the
head. -/
def accessMissInsert (s : LRU ι) (store : ι → LRUHandle) (cacheIndex : ι) :
    Option (LRU ι × (ι → LRUHandle)) := do
  let oldHead := s.head
  -- Set new head.
  let newHead := s.size
  let store := Function.update store cacheIndex ⟨headPos⟩
  let s := { s with
    head := newHead, recent := s.recent ++ [(⟨oldHead, cacheIndex⟩ : DoubleLinkListNode ι)] }
  -- Update rear.
  let (s, store) ← if s.size = 0 then pure ({ s with rear := 0 }, store)
    else do
      -- Update old head.
      let oldHeadIndex := (← s.node oldHead).cacheIndex
      pure (s, Function.update store oldHeadIndex ⟨newHead⟩)
  pure ({ s with size := s.size + 1 }, store)

/-- `access` of an index not cached in a full cache: the rear entry is evicted and its node
takes the new index as the head. -/
def accessMissReplaced (s : LRU ι) (store : ι → LRUHandle) (cacheIndex : ι) :
    Option (LRU ι × (ι → LRUHandle) × CacheAccessResult ι) := do
  let newHead := s.rear
  let oldHead := s.head
  -- Update old head.
  let store := Function.update store (← s.node oldHead).cacheIndex ⟨newHead⟩
  -- `rear_handle` is read after that write.
  let evictedCacheIndex := (← s.node newHead).cacheIndex
  let rearHandle := store evictedCacheIndex
  -- Set cache_index for new head.
  let s ← s.setCacheIndex newHead cacheIndex
  -- Update rear.
  let s := { s with rear := rearHandle.prevPos }
  -- Evict least recent used.
  let store := Function.update store evictedCacheIndex ⟨nullPos⟩
  -- Insert new head.
  let s ← { s with head := newHead }.setNext newHead oldHead
  let store := Function.update store cacheIndex ⟨headPos⟩
  pure (s, store, .missReplaced [evictedCacheIndex] [])

/-- `access`. The store's `get_most_recently_accessed` is its `get`. -/
def access (s : LRU ι) (store : ι → LRUHandle) (cacheIndex : ι) :
    Option (LRU ι × (ι → LRUHandle) × CacheAccessResult ι) :=
  let lruHandle := store cacheIndex
  if lruHandle.isHit then
    if lruHandle.isMostRecentlyAccessed then
      -- Nothing to do, access the most recently visited element.
      some (s, store, .hit)
    else (s.accessHit store cacheIndex lruHandle.prevPos).map fun r => (r.1, r.2, .hit)
  else if s.size < s.capacity then
    (s.accessMissInsert store cacheIndex).map fun r => (r.1, r.2, .missInsert)
  else s.accessMissReplaced store cacheIndex

/-! ## `delete` -/

/-- `get_lru_pos_for_handle`. -/
def getLruPosForHandle (s : LRU ι) (handle : LRUHandle) : Option Nat :=
  if handle.isMostRecentlyAccessed then some s.head
  else (s.node handle.prevPos).map (·.next)

/-- The first part of `delete`: the entry at `posToDelete`, whose handle was `lruHandle`, is
unlinked. -/
def unlink (s : LRU ι) (store : ι → LRUHandle) (lruHandle : LRUHandle) (posToDelete : Nat) :
    Option (LRU ι × (ι → LRUHandle)) :=
  if posToDelete = s.rear then
    let s := { s with rear := lruHandle.prevPos }
    some (if posToDelete = s.head then { s with head := nullPos } else s, store)
  else do
    let nextPos := (← s.node posToDelete).next
    let s ← if posToDelete ≠ s.head then s.setNext lruHandle.prevPos nextPos
      else pure { s with head := nextPos }
    pure (s, Function.update store (← s.node nextPos).cacheIndex ⟨lruHandle.prevPos⟩)

/-- The second part of `delete`: move the element at `size` to `posToDelete`. -/
def moveLast (s : LRU ι) (store : ι → LRUHandle) (posToDelete : Nat) :
    Option (LRU ι × (ι → LRUHandle)) :=
  if s.size = 0 then none
  else do
    let s := { s with size := s.size - 1 }
    let posToMove := s.size
    if posToDelete ≠ posToMove then
      let lruHandle := store (← s.node posToMove).cacheIndex
      let s ← if lruHandle.isMostRecentlyAccessed then pure { s with head := posToDelete }
        else s.setNext lruHandle.prevPos posToDelete
      let (s, store) ← if posToMove ≠ s.rear then do
          let next := (← s.node posToMove).next
          pure (s, Function.update store (← s.node next).cacheIndex ⟨posToDelete⟩)
        else pure ({ s with rear := posToDelete }, store)
      let (_, recent) ← swapRemove s.recent posToDelete
      pure ({ s with recent := recent }, store)
    else if posToDelete < s.recent.length then
      pure ({ s with recent := s.recent.eraseIdx posToDelete }, store)
    else none

/-- `delete`: the handle is set evicted on the store's copy, and the first part reads the one
taken before. -/
def delete (s : LRU ι) (store : ι → LRUHandle) (cacheIndex : ι) :
    Option (LRU ι × (ι → LRUHandle)) :=
  let lruHandle := store cacheIndex
  if lruHandle.isHit then do
    -- First delete this entry.
    let posToDelete ← s.getLruPosForHandle lruHandle
    let store := Function.update store cacheIndex ⟨nullPos⟩
    let (s, store) ← s.unlink store lruHandle posToDelete
    s.moveLast store posToDelete
  else some (s, store)

/-! ## Runs -/

/-- The operations of a run. -/
inductive Op (ι : Type) where
  | access (cacheIndex : ι)
  | delete (cacheIndex : ι)

/-- What an operation returns. -/
inductive Ret (ι : Type) where
  | accessed (result : CacheAccessResult ι)
  | deleted
  deriving DecidableEq, Repr

/-- One operation. -/
def step (s : LRU ι) (store : ι → LRUHandle) :
    Op ι → Option (LRU ι × (ι → LRUHandle) × Ret ι)
  | .access i => (s.access store i).map fun r => (r.1, r.2.1, .accessed r.2.2)
  | .delete i => (s.delete store i).map fun r => (r.1, r.2, .deleted)

/-- A sequence of operations, with what each returned. -/
def run (s : LRU ι) (store : ι → LRUHandle) :
    List (Op ι) → Option (LRU ι × (ι → LRUHandle) × List (Ret ι))
  | [] => some (s, store, [])
  | op :: ops => do
    let (s', store', r) ← s.step store op
    let (s'', store'', rs) ← s'.run store' ops
    return (s'', store'', r :: rs)

end LRU

end Mazze.Storage
