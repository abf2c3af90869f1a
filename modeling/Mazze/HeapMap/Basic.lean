/-
  `HeapMap` of the `heap-map` crate (`lib.rs`): a max-heap of key–value nodes in a `Vec`, with a
  `HashMap` from each key to the position of its node.

  `data` is a list and `mapping` a `Std.HashMap`. Nodes compare by their values, which have a
  total order. The sift loops hold the moving node apart (`val`), move each parent (or larger
  child) into the hole and record its new position in `mapping`, and write `val` and its
  position where the hole stops. Each loop carries the bound of its hole, which the caller's
  read of `self.data[index]` establishes. Panics are `none`: the `unwrap` of a missing key in
  `update`, an index out of range, and `Vec::swap_remove` past the end.

  `step` runs one of the operations that change the map (`insert`, `remove`, `update_with`,
  `pop`, `clear`) and `run` a sequence of them; `get`, `top`, `len` and `iter` read the map.
-/
import Mazze.Heap.Array

namespace Mazze.Util

open Mazze.Heap

/-- `Node`: a key and its value; nodes compare by value. -/
structure Node (K V : Type) where
  key : K
  value : V

/-- `HeapMap`. -/
structure HeapMap (K V : Type) [BEq K] [Hashable K] where
  data : List (Node K V)
  mapping : Std.HashMap K Nat

theorem getElem?_map_value {K V : Type} {data : List (Node K V)} {i : Nat} (hi : i < data.length) :
    (data.map Node.value)[i]? = some data[i].value := by
  rw [List.getElem?_map, List.getElem?_eq_getElem hi]
  rfl

/-- Giving the node at `index` a new value keeps the keys where they are. -/
theorem map_key_set {K V : Type} {data : List (Node K V)} {index : Nat} {origin : Node K V}
    (hidx : data[index]? = some origin) (value : V) :
    (data.set index ⟨origin.key, value⟩).map Node.key = data.map Node.key := by
  rw [List.map_set]
  exact set_of_getElem? (by rw [List.getElem?_map, hidx]; rfl)

theorem getElem?_map_value_of_getElem? {K V : Type} {data : List (Node K V)} {index : Nat}
    {n : Node K V}
    (hidx : data[index]? = some n) : (data.map Node.value)[index]? = some n.value := by
  rw [List.getElem?_map, hidx]
  rfl

/-- The values after `swap_remove` at `index`: those of the list without its last entry, with
`x`'s value written at `index`. -/
theorem swapRemove_values {K V : Type} (data : List (Node K V)) (index : Nat) (x : Node K V) :
    ((data.set index x).dropLast).map Node.value =
      ((data.map Node.value).dropLast).set index x.value := by
  rw [dropLast_set, List.map_set, List.map_dropLast]

variable {K V : Type} [LinearOrder V]

/-! ## Sifting -/

/-- The child `sift_down` compares with: the right child `child + 1` when it exists and is
larger (`right < len && self.data[right] > self.data[child]`). -/
def largerChild (data : List (Node K V)) (child : Nat) : Nat :=
  if h : child + 1 < data.length then
    if data[child].value < data[child + 1].value then child + 1 else child
  else child

theorem le_largerChild (data : List (Node K V)) (child : Nat) : child ≤ largerChild data child := by
  unfold largerChild
  split
  · split <;> omega
  · omega

theorem largerChild_lt {data : List (Node K V)} {child : Nat} (h : child < data.length) :
    largerChild data child < data.length := by
  unfold largerChild
  split
  · split <;> omega
  · exact h

theorem largerChild_isChild (data : List (Node K V)) (pos : Nat) :
    IsChild (largerChild data (pos * 2 + 1)) pos := by
  rw [isChild_iff]
  unfold largerChild
  split
  · split <;> omega
  · omega

/-- The larger child is at least as large as every child of `pos`. -/
theorem le_largerChild_value {data : List (Node K V)} {pos d : Nat} {x y : V} (hd : IsChild d pos)
    (hy : (data.map Node.value)[d]? = some y)
    (hx : (data.map Node.value)[largerChild data (pos * 2 + 1)]? = some x) : y ≤ x := by
  have hd' : d = pos * 2 + 1 ∨ d = pos * 2 + 1 + 1 := by
    rw [isChild_iff] at hd
    omega
  have hdl : d < data.length := by simpa using (List.getElem?_eq_some_iff.mp hy).1
  rw [getElem?_map_value hdl, Option.some_inj] at hy
  subst hy
  unfold largerChild at hx
  split at hx
  · split at hx
    · rw [getElem?_map_value (by omega), Option.some_inj] at hx
      subst hx
      rcases hd' with rfl | rfl
      · exact le_of_lt ‹_›
      · exact le_refl _
    · rw [getElem?_map_value (by omega), Option.some_inj] at hx
      subst hx
      rcases hd' with rfl | rfl
      · exact le_refl _
      · exact not_lt.mp ‹_›
  · rw [getElem?_map_value (by omega), Option.some_inj] at hx
    subst hx
    rcases hd' with rfl | rfl
    · exact le_refl _
    · omega

variable [DecidableEq K] [Hashable K]

/-- `HeapMap::new`. -/
def HeapMap.new : HeapMap K V := ⟨[], ∅⟩

/-- The loop of `sift_up`: while the hole at `pos` is below the root and its parent is smaller
than `val`, the parent moves down into the hole; then `val` fills the hole. -/
def siftUpLoop (val : Node K V) (data : List (Node K V)) (mapping : Std.HashMap K Nat)
    (pos : Nat) (hpos : pos < data.length) : List (Node K V) × Std.HashMap K Nat :=
  if pos = 0 then (data.set pos val, mapping.insert val.key pos)
  else
    let parent := (pos - 1) / 2
    -- `if self.data[parent] >= val { break }`
    if val.value ≤ data[parent].value then (data.set pos val, mapping.insert val.key pos)
    else
      siftUpLoop val (data.set pos data[parent]) (mapping.insert data[parent].key pos) parent
        (by simp only [List.length_set]; omega)
termination_by pos
decreasing_by omega

/-- The loop of `sift_down`: while the hole at `pos` has a child and the larger child is larger
than `val`, that child moves up into the hole; then `val` fills the hole. -/
def siftDownLoop (val : Node K V) (data : List (Node K V)) (mapping : Std.HashMap K Nat)
    (pos : Nat) : List (Node K V) × Std.HashMap K Nat :=
  if hc : pos * 2 + 1 < data.length then
    let child := largerChild data (pos * 2 + 1)
    have hchild : child < data.length := largerChild_lt hc
    -- `if val >= self.data[child] { break }`
    if data[child].value ≤ val.value then (data.set pos val, mapping.insert val.key pos)
    else
      siftDownLoop val (data.set pos data[child]) (mapping.insert data[child].key pos) child
  else (data.set pos val, mapping.insert val.key pos)
termination_by data.length - pos
decreasing_by
  have := le_largerChild data (pos * 2 + 1)
  simp only [List.length_set]
  omega

namespace HeapMap

/-- `sift_up`: `self.data[index]` panics past the end. -/
def siftUp (h : HeapMap K V) (index : Nat) : Option (HeapMap K V) :=
  if hi : index < h.data.length then
    let r := siftUpLoop h.data[index] h.data h.mapping index hi
    some ⟨r.1, r.2⟩
  else none

/-- `sift_down`: `self.data[index]` panics past the end. -/
def siftDown (h : HeapMap K V) (index : Nat) : Option (HeapMap K V) :=
  if hi : index < h.data.length then
    let r := siftDownLoop h.data[index] h.data h.mapping index
    some ⟨r.1, r.2⟩
  else none

/-- After the node at `index` changed from the value `origin` to `value`: `sift_down` if it
shrank, `sift_up` if it grew (`self.data[index].cmp(&origin_node)`). -/
def resift (h : HeapMap K V) (index : Nat) (value origin : V) : Option (HeapMap K V) :=
  match compare value origin with
  | .lt => h.siftDown index
  | .gt => h.siftUp index
  | .eq => some h

/-! ## Operations -/

/-- `update`, which `insert` calls for a key already present; it returns the old value. -/
def update (h : HeapMap K V) (key : K) (value : V) : Option (HeapMap K V × V) := do
  -- `*self.mapping.get(key).unwrap()`
  let index ← h.mapping[key]?
  let origin ← h.data[index]?
  let h' ← resift ⟨h.data.set index ⟨key, value⟩, h.mapping⟩ index value origin.value
  return (h', origin.value)

/-- `append`: push the node and sift it up from the end. -/
def append (h : HeapMap K V) (key : K) (value : V) : Option (HeapMap K V) :=
  let data := h.data ++ [⟨key, value⟩]
  siftUp ⟨data, h.mapping⟩ (data.length - 1)

/-- `insert`: returns the old value if `key` was present. -/
def insert (h : HeapMap K V) (key : K) (value : V) : Option (HeapMap K V × Option V) :=
  if h.mapping.contains key then (h.update key value).map fun r => (r.1, some r.2)
  else (h.append key value).map fun h' => (h', none)

/-- `remove`: the last node moves into the removed node's place and is sifted from there, or
only has its position recorded when its value is equal. -/
def remove (h : HeapMap K V) (key : K) : Option (HeapMap K V × Option V) :=
  match h.mapping[key]? with
  | none => some (h, none)
  | some index => do
    let mapping := h.mapping.erase key
    let (removed, data) ← swapRemove h.data index
    if index ≠ data.length then
      let moved ← data[index]?
      let h' ← match compare moved.value removed.value with
        | .lt => siftDown ⟨data, mapping⟩ index
        | .gt => siftUp ⟨data, mapping⟩ index
        | .eq => some ⟨data, mapping.insert moved.key index⟩
      return (h', some removed.value)
    else return (⟨data, mapping⟩, some removed.value)

/-- `update_with`: `f` changes the value of `key`'s node in place. -/
def updateWith (h : HeapMap K V) (key : K) (f : V → V) : Option (HeapMap K V) :=
  match h.mapping[key]? with
  | none => some h
  | some index => do
    let origin ← h.data[index]?
    resift ⟨h.data.set index ⟨origin.key, f origin.value⟩, h.mapping⟩ index (f origin.value)
      origin.value

/-- `top`. -/
def top (h : HeapMap K V) : Option (K × V) := h.data[0]?.map fun n => (n.key, n.value)

/-- `pop`: the last node moves to the root and is sifted down; the popped key leaves `mapping`
last. -/
def pop (h : HeapMap K V) : Option (HeapMap K V × Option (K × V)) :=
  if h.data.isEmpty then some (h, none)
  else do
    let (item, data) ← swapRemove h.data 0
    let h' ← if data.isEmpty then some ⟨data, h.mapping⟩ else siftDown ⟨data, h.mapping⟩ 0
    return (⟨h'.data, h'.mapping.erase item.key⟩, some (item.key, item.value))

/-- `get`. -/
def get (h : HeapMap K V) (key : K) : Option V := do
  let index ← h.mapping[key]?
  (h.data[index]?).map (·.value)

/-- `clear`. -/
def clear (_ : HeapMap K V) : HeapMap K V := ⟨[], ∅⟩

/-- `len`. -/
def len (h : HeapMap K V) : Nat := h.data.length

/-- `iter`: the values, in the order of `data`. -/
def iter (h : HeapMap K V) : List V := h.data.map (·.value)

end HeapMap

/-! ## Runs -/

/-- The operations of a run. -/
inductive Op (K V : Type) where
  | insert (key : K) (value : V)
  | remove (key : K)
  | updateWith (key : K) (f : V → V)
  | pop
  | clear

/-- What an operation returns: an old or removed value, a popped entry, or nothing. -/
inductive Ret (K V : Type) where
  | value (old : Option V)
  | entry (top : Option (K × V))
  | done

namespace HeapMap

/-- One operation. -/
def step (h : HeapMap K V) : Op K V → Option (HeapMap K V × Ret K V)
  | .insert key value => (h.insert key value).map fun r => (r.1, .value r.2)
  | .remove key => (h.remove key).map fun r => (r.1, .value r.2)
  | .updateWith key f => (h.updateWith key f).map fun h' => (h', .done)
  | .pop => h.pop.map fun r => (r.1, .entry r.2)
  | .clear => some (h.clear, .done)

/-- A sequence of operations, with what each returned. -/
def run (h : HeapMap K V) : List (Op K V) → Option (HeapMap K V × List (Ret K V))
  | [] => some (h, [])
  | op :: ops => do
    let (h', r) ← h.step op
    let (h'', rs) ← h'.run ops
    return (h'', r :: rs)

end HeapMap

end Mazze.Util
