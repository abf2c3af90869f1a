/-
  The `HeapMap` against a hash map: its invariant, the sifts, and each operation's refinement.

  `HeapMap.Inv`: `data` is a max-heap on values and `mapping` is the position table of its keys.
  `HeapMap.Models h m`: `h` stores exactly the entries of the `Std.HashMap` `m`. `ModelStep` and
  `ModelRun` are the map that the `HeapMap` stands for: `insert` and `remove` return the old
  value, `update_with` applies its function in place, and `pop` removes and returns an entry of
  largest value, any one of them when several tie.

  A sift holds `Sifting`: with the sifted node written into the hole, `data` is a permutation of
  where it started, and `mapping` is right except for the exempt keys, the sifted one among them.
  `Sifting.move` is one step of either loop and `Sifting.sifted` the last write; with the heap
  order of `Mazze.Heap.Array` they give `siftUpLoop_sifted` and `siftDownLoop_sifted`.
-/
import Mazze.HeapMap.Basic
import Mazze.Heap.Positions

namespace Mazze.Util

open Mazze.Heap

variable {K V : Type} [DecidableEq K] [Hashable K]

/-! ## Sifting -/

/-- What holds while `val` is sifted through the hole at `pos`: with `val` written into the hole,
`data` is a permutation of `start`, whose keys are distinct, and `mapping` is right outside the
exempt keys `ex`, `val`'s among them. -/
structure Sifting (start : List (Node K V)) (ex : K → Prop) (data : List (Node K V))
    (mapping : Std.HashMap K Nat) (pos : Nat) (val : Node K V) : Prop where
  lt : pos < data.length
  perm : (data.set pos val).Perm start
  nodup : (start.map Node.key).Nodup
  exempt : ex val.key
  mapped : PositionsExcept ((data.set pos val).map Node.key) mapping ex

variable {start data : List (Node K V)} {ex : K → Prop} {mapping : Std.HashMap K Nat}
  {pos : Nat} {val : Node K V}

theorem Sifting.nodup_set (s : Sifting start ex data mapping pos val) :
    ((data.set pos val).map Node.key).Nodup :=
  (s.perm.map Node.key).nodup_iff.mpr s.nodup

/-- A sift starts with `val` already in the hole. -/
theorem Sifting.init (hv : data[pos]? = some val) (hnd : (data.map Node.key).Nodup)
    (hex : ex val.key) (hm : PositionsExcept (data.map Node.key) mapping ex) :
    Sifting data ex data mapping pos val := by
  have hset : data.set pos val = data := set_of_getElem? hv
  exact ⟨(List.getElem?_eq_some_iff.mp hv).1, by rw [hset], hnd, hex, by rw [hset]; exact hm⟩

/-- One step of either loop: the node at `src` moves into the hole at `pos`. -/
theorem Sifting.move (s : Sifting start ex data mapping pos val) {src : Nat}
    (hsrc : src < data.length) (hne : src ≠ pos) :
    Sifting start ex (data.set pos data[src]) (mapping.insert data[src].key pos) src val where
  lt := by simpa using hsrc
  perm := (perm_move_hole s.lt hsrc hne val).trans s.perm
  nodup := s.nodup
  exempt := s.exempt
  mapped := by
    have hm := s.mapped
    have hnd := s.nodup_set
    rw [List.map_set] at hm hnd
    have := hm.move hnd s.exempt (by simpa using s.lt) (by simpa using hsrc) hne
    simp only [List.map_set, List.getElem_map] at this ⊢
    exact this

/-! ## The refinement relation -/

/-- `h` stores exactly the entries of the map `m`. -/
def HeapMap.Models (h : HeapMap K V) (m : Std.HashMap K V) : Prop :=
  ∀ k v, (⟨k, v⟩ : Node K V) ∈ h.data ↔ m[k]? = some v

section Model

variable {h : HeapMap K V} {m : Std.HashMap K V}

theorem HeapMap.Models.getElem?_of_mem (hm : h.Models m) {n : Node K V} (hn : n ∈ h.data) :
    m[n.key]? = some n.value :=
  (hm n.key n.value).mp hn

/-- A key no node holds is not in the model. -/
theorem HeapMap.Models.getElem?_eq_none (hm : h.Models m) {k : K}
    (hk : k ∉ h.data.map Node.key) : m[k]? = none := by
  cases hv : m[k]? with
  | none => rfl
  | some v => exact absurd (List.mem_map_of_mem ((hm k v).mpr hv)) hk

/-- Nodes moved around, with the mapping rebuilt, model what they modelled. -/
theorem HeapMap.models_of_perm {h' : HeapMap K V} {data : List (Node K V)}
    {m' : Std.HashMap K V} (hp : h'.data.Perm data)
    (hmem : ∀ k v, (⟨k, v⟩ : Node K V) ∈ data ↔ m'[k]? = some v) : h'.Models m' :=
  fun k v => hp.mem_iff.trans (hmem k v)

end Model

variable [LinearOrder V]

/-- What a sift of `val` leaves: a permutation of `start` that is a heap, with a mapping right
outside the exempt keys other than `val`'s. -/
structure Sifted (start : List (Node K V)) (ex : K → Prop) (val : Node K V)
    (r : List (Node K V) × Std.HashMap K Nat) : Prop where
  perm : r.1.Perm start
  mapped : PositionsExcept (r.1.map Node.key) r.2 fun k => ex k ∧ k ≠ val.key
  heap : IsMaxHeap (r.1.map Node.value)

/-- The last write of either loop: `val` lands in the hole and its position is recorded. -/
theorem Sifting.sifted (s : Sifting start ex data mapping pos val)
    (hheap : IsMaxHeap ((data.set pos val).map Node.value)) :
    Sifted start ex val (data.set pos val, mapping.insert val.key pos) where
  perm := s.perm
  mapped := s.mapped.insert s.nodup_set
    (by rw [List.map_set, List.getElem?_set_self (by simpa using s.lt)])
  heap := hheap

theorem siftUpLoop_sifted (hpos : pos < data.length) (s : Sifting start ex data mapping pos val)
    (o : UpOrder (data.map Node.value) pos val.value) :
    Sifted start ex val (siftUpLoop val data mapping pos hpos) := by
  fun_induction siftUpLoop val data mapping pos hpos with
  | case1 data mapping hpos =>
    -- the hole reached the root
    refine s.sifted ?_
    rw [List.map_set]
    exact o.finish (by simpa using hpos) fun h0 => absurd h0 (Nat.lt_irrefl 0)
  | case2 data mapping pos hpos h0 p hle =>
    -- the parent is at least `val`: `val` stays in the hole
    refine s.sifted ?_
    rw [List.map_set]
    refine o.finish (by simpa using hpos) fun _ y hy => ?_
    rw [show parent pos = p from rfl, getElem?_map_value (by omega), Option.some_inj] at hy
    exact hy ▸ hle
  | case3 data mapping pos hpos h0 p hlt ih =>
    -- the parent moves down into the hole
    have hp : p < data.length := by omega
    apply ih (s.move hp (by omega))
    rw [List.map_set]
    exact o.move (Nat.pos_of_ne_zero h0) (by simpa using hpos) (getElem?_map_value hp)
      (lt_of_not_ge hlt)


theorem siftDownLoop_sifted (s : Sifting start ex data mapping pos val)
    (o : DownOrder (data.map Node.value) pos val.value) :
    Sifted start ex val (siftDownLoop val data mapping pos) := by
  fun_induction siftDownLoop val data mapping pos with
  | case1 data mapping pos hc c hc_lt hle =>
    -- the larger child is at most `val`: `val` stays in the hole
    refine s.sifted ?_
    rw [List.map_set]
    refine o.finish (by simpa using s.lt) fun d hd x hx => ?_
    exact le_trans (le_largerChild_value hd hx (getElem?_map_value hc_lt)) hle
  | case2 data mapping pos hc c hc_lt hlt ih =>
    -- the larger child moves up into the hole
    have hchild : IsChild c pos := largerChild_isChild data pos
    apply ih (s.move hc_lt (Nat.ne_of_gt hchild.gt))
    rw [List.map_set]
    exact o.move (by simpa using s.lt) hchild (getElem?_map_value hc_lt)
      (fun d hd y hy => le_largerChild_value hd hy (getElem?_map_value hc_lt)) (lt_of_not_ge hlt)
  | case3 data mapping pos hc =>
    -- no child: `val` stays in the hole
    refine s.sifted ?_
    rw [List.map_set]
    refine o.finish (by simpa using s.lt) fun d hd x hx => ?_
    have hdl : d < data.length := by simpa using (List.getElem?_eq_some_iff.mp hx).1
    rw [isChild_iff] at hd
    omega

/-! ## The invariant -/

/-- `data` is a max-heap on values, and `mapping` the position table of its keys. -/
structure HeapMap.Inv (h : HeapMap K V) : Prop where
  heap : IsMaxHeap (h.data.map Node.value)
  mapped : PositionsExcept (h.data.map Node.key) h.mapping fun _ => False

theorem HeapMap.Inv.nodup {h : HeapMap K V} (hi : h.Inv) : (h.data.map Node.key).Nodup :=
  hi.mapped.nodup

/-- A key the mapping does not hold no node holds. -/
theorem HeapMap.Inv.not_mem_of_mapping {h : HeapMap K V} (hi : h.Inv) {k : K}
    (hk : h.mapping[k]? = none) :
    k ∉ h.data.map Node.key := by
  intro hmem
  obtain ⟨i, hi'⟩ := List.mem_iff_getElem?.mp hmem
  rw [(hi.mapped k (fun hf => hf) i).mpr hi'] at hk
  cases hk

/-- The node a key's mapping points at. -/
theorem HeapMap.Inv.node_of_mapping {h : HeapMap K V} (hi : h.Inv) {k : K} {i : Nat}
    (hk : h.mapping[k]? = some i) :
    ∃ n, h.data[i]? = some n ∧ n.key = k := by
  have hki := (hi.mapped k (fun hf => hf) i).mp hk
  rw [List.getElem?_map] at hki
  obtain ⟨n, hn, hnk⟩ := Option.map_eq_some_iff.mp hki
  exact ⟨n, hn, hnk⟩


/-- A sift whose only exempt key was the sifted one leaves the invariant. -/
theorem Sifted.inv {r : List (Node K V) × Std.HashMap K Nat} (s : Sifted start ex val r)
    (hex : ∀ k, ex k → k = val.key) : HeapMap.Inv ⟨r.1, r.2⟩ :=
  ⟨s.heap, s.mapped.mono fun k hk => hk.2 (hex k hk.1)⟩

/-- `sift_up` from a position that holds `val`. -/
theorem siftUp_sifted (hv : data[pos]? = some val) (hnd : (data.map Node.key).Nodup)
    (hm : PositionsExcept (data.map Node.key) mapping ex) (hex : ex val.key)
    (o : UpOrder (data.map Node.value) pos val.value) :
    ∃ r, HeapMap.siftUp ⟨data, mapping⟩ pos = some ⟨r.1, r.2⟩ ∧ Sifted data ex val r := by
  obtain ⟨hpos, rfl⟩ := List.getElem?_eq_some_iff.mp hv
  exact ⟨_, by rw [HeapMap.siftUp, dif_pos hpos],
    siftUpLoop_sifted hpos (Sifting.init hv hnd hex hm) o⟩

/-- `sift_down` from a position that holds `val`. -/
theorem siftDown_sifted (hv : data[pos]? = some val) (hnd : (data.map Node.key).Nodup)
    (hm : PositionsExcept (data.map Node.key) mapping ex) (hex : ex val.key)
    (o : DownOrder (data.map Node.value) pos val.value) :
    ∃ r, HeapMap.siftDown ⟨data, mapping⟩ pos = some ⟨r.1, r.2⟩ ∧ Sifted data ex val r := by
  obtain ⟨hpos, rfl⟩ := List.getElem?_eq_some_iff.mp hv
  exact ⟨_, by rw [HeapMap.siftDown, dif_pos hpos],
    siftDownLoop_sifted (Sifting.init hv hnd hex hm) o⟩

/-- A node whose value is at most the value `r` it replaced, in a heap `l`, is sifted down into
place. -/
theorem siftDown_restores {l : List V} (hl : IsMaxHeap l) {index : Nat} {r : V}
    (hr : l[index]? = some r) (hv : data[index]? = some val)
    (hvals : data.map Node.value = l.set index val.value) (hnd : (data.map Node.key).Nodup)
    (hm : PositionsExcept (data.map Node.key) mapping fun k => k = val.key) (hle : val.value ≤ r) :
    ∃ h', HeapMap.siftDown ⟨data, mapping⟩ index = some h' ∧ h'.Inv ∧ h'.data.Perm data := by
  obtain ⟨_, hr', hs⟩ := siftDown_sifted hv hnd hm rfl (by rw [hvals]; exact hl.downOrder hr hle)
  exact ⟨_, hr', hs.inv fun _ hk => hk, hs.perm⟩

/-- A node whose value is larger than the value `r` it replaced, in a heap `l`, is sifted up
into place. -/
theorem siftUp_restores {l : List V} (hl : IsMaxHeap l) {index : Nat} {r : V}
    (hr : l[index]? = some r) (hv : data[index]? = some val)
    (hvals : data.map Node.value = l.set index val.value) (hnd : (data.map Node.key).Nodup)
    (hm : PositionsExcept (data.map Node.key) mapping fun k => k = val.key) (hlt : r < val.value) :
    ∃ h', HeapMap.siftUp ⟨data, mapping⟩ index = some h' ∧ h'.Inv ∧ h'.data.Perm data := by
  obtain ⟨_, hr', hs⟩ := siftUp_sifted hv hnd hm rfl (by rw [hvals]; exact hl.upOrder hr hlt)
  exact ⟨_, hr', hs.inv fun _ hk => hk, hs.perm⟩

/-- `resift` after the node at `index` changed its value from `origin`'s to `value`: the sift
in the direction of the change restores the invariant. -/
theorem resift_spec {h : HeapMap K V} (hi : h.Inv) {index : Nat} {origin : Node K V}
    (hidx : h.data[index]? = some origin) (value : V) :
    ∃ h', HeapMap.resift ⟨h.data.set index ⟨origin.key, value⟩, h.mapping⟩ index value
        origin.value = some h' ∧ h'.Inv ∧ h'.data.Perm (h.data.set index ⟨origin.key, value⟩) := by
  have hkeys := map_key_set hidx value
  have hv : (h.data.set index ⟨origin.key, value⟩)[index]? = some ⟨origin.key, value⟩ :=
    List.getElem?_set_self (List.getElem?_eq_some_iff.mp hidx).1
  have hvals : (h.data.set index ⟨origin.key, value⟩).map Node.value =
      (h.data.map Node.value).set index value := List.map_set
  have hnd : ((h.data.set index ⟨origin.key, value⟩).map Node.key).Nodup := hkeys ▸ hi.nodup
  have hm : PositionsExcept ((h.data.set index ⟨origin.key, value⟩).map Node.key) h.mapping
      fun k => k = origin.key := hkeys ▸ hi.mapped.mono fun _ hf => hf.elim
  have hr := getElem?_map_value_of_getElem? hidx
  unfold HeapMap.resift
  rcases lt_trichotomy value origin.value with hlt | heq | hgt
  · -- the value shrank: sift down
    rw [compare_lt_iff_lt.mpr hlt]
    exact siftDown_restores hi.heap hr hv hvals hnd hm hlt.le
  · -- the same value: nothing moves
    subst heq
    rw [compare_eq_iff_eq.mpr rfl]
    refine ⟨_, rfl, ⟨?_, ?_⟩, List.Perm.refl _⟩
    · rw [hvals, set_of_getElem? hr]
      exact hi.heap
    · rw [hkeys]
      exact hi.mapped
  · -- the value grew: sift up
    rw [compare_gt_iff_gt.mpr hgt]
    exact siftUp_restores hi.heap hr hv hvals hnd hm hgt

/-! ## The hash map model -/

/-- What `top` and `pop` may answer for the map `m`: nothing when it is empty, else an entry of
largest value. -/
def TopEntry (m : Std.HashMap K V) : Option (K × V) → Prop
  | none => m.isEmpty = true
  | some (k, v) => m[k]? = some v ∧ ∀ (k' : K) (v' : V), m[k']? = some v' → v' ≤ v

/-- One operation on the map, and what it returns: `insert` and `remove` the old value,
`pop` any entry of largest value. -/
inductive ModelStep : Std.HashMap K V → Op K V → Std.HashMap K V → Ret K V → Prop
  | insert (m : Std.HashMap K V) (k : K) (v : V) :
      ModelStep m (.insert k v) (m.insert k v) (.value m[k]?)
  | remove (m : Std.HashMap K V) (k : K) : ModelStep m (.remove k) (m.erase k) (.value m[k]?)
  | updateWith (m : Std.HashMap K V) (k : K) (f : V → V) :
      ModelStep m (.updateWith k f) (m.modify k f) .done
  | popEmpty (m : Std.HashMap K V) : TopEntry m none → ModelStep m .pop m (.entry none)
  | pop (m : Std.HashMap K V) (k : K) (v : V) :
      TopEntry m (some (k, v)) → ModelStep m .pop (m.erase k) (.entry (some (k, v)))
  | clear (m : Std.HashMap K V) : ModelStep m .clear ∅ .done

/-- A sequence of operations on the map, with what each returns. -/
inductive ModelRun : Std.HashMap K V → List (Op K V) → Std.HashMap K V → List (Ret K V) → Prop
  | nil (m : Std.HashMap K V) : ModelRun m [] m []
  | cons {m m' m'' : Std.HashMap K V} {op : Op K V} {ops : List (Op K V)} {r : Ret K V}
      {rs : List (Ret K V)} :
      ModelStep m op m' r → ModelRun m' ops m'' rs → ModelRun m (op :: ops) m'' (r :: rs)


/-! ## Operations -/

section Ops

variable {h : HeapMap K V} {m : Std.HashMap K V}

/-- Nodes after `origin`'s value became `value` model inserting `value` at `origin.key`. -/
theorem HeapMap.Models.set (hm : h.Models m) (hi : h.Inv) {index : Nat} {origin : Node K V}
    (hidx : h.data[index]? = some origin) (value : V) (k : K) (v : V) :
    (⟨k, v⟩ : Node K V) ∈ h.data.set index ⟨origin.key, value⟩ ↔
      (m.insert origin.key value)[k]? = some v := by
  rw [mem_set_of_nodup_map Node.key hi.nodup hidx ⟨origin.key, value⟩ rfl,
    Std.HashMap.getElem?_insert]
  by_cases hk : k = origin.key
  · subst hk
    simp [eq_comm]
  · rw [if_neg (by simpa using Ne.symm hk), ← hm k v]
    constructor
    · rintro (heq | ⟨hmem, -⟩)
      · exact absurd (congrArg Node.key heq) hk
      · exact hmem
    · intro hmem
      exact Or.inr ⟨hmem, hk⟩

/-- `update` of a key the mapping holds: the node gets the new value and is sifted into place. -/
theorem update_sim (hi : h.Inv) (hm : h.Models m) {key : K} {index : Nat}
    (hk : h.mapping[key]? = some index) (value : V) :
    ∃ h' old, h.update key value = some (h', old) ∧ m[key]? = some old ∧ h'.Inv ∧
      h'.Models (m.insert key value) := by
  obtain ⟨origin, hidx, rfl⟩ := hi.node_of_mapping hk
  obtain ⟨h', hres, hinv, hperm⟩ := resift_spec hi hidx value
  refine ⟨h', origin.value, ?_, hm.getElem?_of_mem (List.mem_of_getElem? hidx), hinv,
    HeapMap.models_of_perm hperm (hm.set hi hidx value)⟩
  simp only [HeapMap.update, hk, hidx, hres, Option.bind_eq_bind, Option.bind_some]
  rfl

/-- `append` of a key no node holds: the node is pushed and sifted up. -/
theorem append_sim (hi : h.Inv) (hm : h.Models m) {key : K} (hk : h.mapping[key]? = none)
    (value : V) :
    ∃ h', h.append key value = some h' ∧ h'.Inv ∧ h'.Models (m.insert key value) := by
  have habs := hi.not_mem_of_mapping hk
  have hv : (h.data ++ [(⟨key, value⟩ : Node K V)])[
      (h.data ++ [(⟨key, value⟩ : Node K V)]).length - 1]? = some ⟨key, value⟩ := by
    simp
  have hnd : ((h.data ++ [(⟨key, value⟩ : Node K V)]).map Node.key).Nodup := by
    rw [List.map_append, List.nodup_append]
    refine ⟨hi.nodup, List.nodup_singleton _, ?_⟩
    rintro a ha _ hb rfl
    simp only [List.map_cons, List.map_nil, List.mem_singleton] at hb
    subst hb
    exact habs ha
  have hpos : PositionsExcept ((h.data ++ [(⟨key, value⟩ : Node K V)]).map Node.key) h.mapping
      fun k => k = key := by
    simp only [List.map_append, List.map_cons, List.map_nil]
    exact (hi.mapped.append key).mono fun k hk => hk.resolve_left id
  have o : UpOrder ((h.data ++ [(⟨key, value⟩ : Node K V)]).map Node.value)
      ((h.data ++ [(⟨key, value⟩ : Node K V)]).length - 1) value := by
    simpa using hi.heap.upOrder_append value
  obtain ⟨r, hr, hs⟩ := siftUp_sifted hv hnd hpos rfl o
  refine ⟨_, hr, hs.inv fun _ hk => hk, HeapMap.models_of_perm hs.perm fun k v => ?_⟩
  rw [List.mem_append, List.mem_singleton, Std.HashMap.getElem?_insert]
  by_cases hkk : k = key
  · subst hkk
    have hnot : (⟨k, v⟩ : Node K V) ∉ h.data := fun hmem => habs (List.mem_map_of_mem hmem)
    rw [if_pos (beq_self_eq_true k), Option.some_inj]
    constructor
    · rintro (hmem | heq)
      · exact absurd hmem hnot
      · exact (congrArg Node.value heq).symm
    · intro hv
      exact Or.inr (by rw [hv])
  · rw [if_neg (by simpa using Ne.symm hkk), ← hm k v]
    constructor
    · rintro (hmem | heq)
      · exact hmem
      · exact absurd (congrArg Node.key heq) hkk
    · exact Or.inl

/-- `insert` returns the old value and inserts into the model. -/
theorem insert_sim (hi : h.Inv) (hm : h.Models m) (key : K) (value : V) :
    ∃ h', h.insert key value = some (h', m[key]?) ∧ h'.Inv ∧ h'.Models (m.insert key value) := by
  unfold HeapMap.insert
  cases hk : h.mapping[key]? with
  | none =>
    -- a new key is appended
    have hc : h.mapping.contains key = false := by
      rw [Std.HashMap.contains_eq_isSome_getElem?, hk]
      rfl
    obtain ⟨h', happ, hinv, hmod⟩ := append_sim hi hm hk value
    rw [if_neg (by simp [hc]), happ, hm.getElem?_eq_none (hi.not_mem_of_mapping hk)]
    exact ⟨h', rfl, hinv, hmod⟩
  | some index =>
    -- a present key is updated
    have hc : h.mapping.contains key = true := by
      rw [Std.HashMap.contains_eq_isSome_getElem?, hk]
      rfl
    obtain ⟨h', old, hup, hold, hinv, hmod⟩ := update_sim hi hm hk value
    rw [if_pos hc, hup, hold]
    exact ⟨h', rfl, hinv, hmod⟩

/-- `update_with` applies the function to the model's value in place. -/
theorem updateWith_sim (hi : h.Inv) (hm : h.Models m) (key : K) (f : V → V) :
    ∃ h', h.updateWith key f = some h' ∧ h'.Inv ∧ h'.Models (m.modify key f) := by
  unfold HeapMap.updateWith
  cases hk : h.mapping[key]? with
  | none =>
    -- an absent key: neither changes
    have hnone := hm.getElem?_eq_none (hi.not_mem_of_mapping hk)
    refine ⟨h, rfl, hi, fun k v => ?_⟩
    rw [Std.HashMap.getElem?_modify]
    by_cases hkk : key = k
    · subst hkk
      rw [if_pos (beq_self_eq_true key), hnone, hm key v, hnone]
      rfl
    · rw [if_neg (by simpa using hkk)]
      exact hm k v
  | some index =>
    obtain ⟨origin, hidx, rfl⟩ := hi.node_of_mapping hk
    obtain ⟨h', hres, hinv, hperm⟩ := resift_spec hi hidx (f origin.value)
    have hold := hm.getElem?_of_mem (List.mem_of_getElem? hidx)
    refine ⟨h', ?_, hinv, HeapMap.models_of_perm hperm fun k v => ?_⟩
    · simp only [hidx, hres, Option.bind_eq_bind, Option.bind_some]
    · -- modifying a present key is inserting the new value
      rw [hm.set hi hidx (f origin.value) k v, Std.HashMap.getElem?_modify,
        Std.HashMap.getElem?_insert, hold]
      rfl

/-! ### Taking a node out with `swap_remove` -/

/-- What `swap_remove` at `index` leaves: distinct keys without the removed one, and a mapping
right but for the moved last key and the removed one. -/
theorem swapRemove_keys (hi : h.Inv) {index : Nat} (hlt : index < h.data.length) :
    (((h.data.set index h.data[h.data.length - 1]).dropLast).map Node.key).Nodup ∧
      h.data[index].key ∉ ((h.data.set index h.data[h.data.length - 1]).dropLast).map Node.key ∧
      PositionsExcept (((h.data.set index h.data[h.data.length - 1]).dropLast).map Node.key)
        h.mapping fun k => k = h.data[h.data.length - 1].key ∨ k = h.data[index].key := by
  have hnd := ((perm_swapRemove hlt).map Node.key).nodup_iff.mpr hi.nodup
  rw [List.map_cons, List.nodup_cons] at hnd
  have hl : (h.data.map Node.key)[(h.data.map Node.key).length - 1]? =
      some h.data[h.data.length - 1].key := by
    rw [List.length_map, List.getElem?_map, List.getElem?_eq_getElem (by omega)]
    rfl
  have hpos := hi.mapped.swapRemove (by simpa using hlt) hl
  simp only [List.getElem_map, ← List.map_set, ← List.map_dropLast] at hpos
  exact ⟨hnd.2, hnd.1, hpos.mono fun k hk => hk.resolve_left id⟩

/-- The nodes after `swap_remove` at `index` model erasing the removed key. -/
theorem HeapMap.Models.swapRemove (hm : h.Models m) (hi : h.Inv) {index : Nat}
    (hlt : index < h.data.length) (k : K) (v : V) :
    (⟨k, v⟩ : Node K V) ∈ (h.data.set index h.data[h.data.length - 1]).dropLast ↔
      (m.erase h.data[index].key)[k]? = some v := by
  rw [mem_of_perm_cons_of_nodup_map Node.key (perm_swapRemove hlt) hi.nodup,
    Std.HashMap.getElem?_erase, hm k v]
  by_cases hk : k = h.data[index].key
  · rw [if_pos (by simp [hk])]
    simp [hk]
  · rw [if_neg (by simpa using Ne.symm hk)]
    simp [hk]

/-- `remove` returns the removed value and erases the key from the model. -/
theorem remove_sim (hi : h.Inv) (hm : h.Models m) (key : K) :
    ∃ h', h.remove key = some (h', m[key]?) ∧ h'.Inv ∧ h'.Models (m.erase key) := by
  unfold HeapMap.remove
  cases hk : h.mapping[key]? with
  | none =>
    -- an absent key: nothing changes
    have habs := hi.not_mem_of_mapping hk
    refine ⟨h, by rw [hm.getElem?_eq_none habs], hi, fun k v => ?_⟩
    rw [Std.HashMap.getElem?_erase]
    by_cases hkk : key = k
    · subst hkk
      rw [if_pos (beq_self_eq_true key)]
      exact ⟨fun hmem => absurd (List.mem_map_of_mem hmem) habs, fun hn => absurd hn nofun⟩
    · rw [if_neg (by simpa using hkk)]
      exact hm k v
  | some index =>
    obtain ⟨origin, hidx, rfl⟩ := hi.node_of_mapping hk
    obtain ⟨hlt, rfl⟩ := List.getElem?_eq_some_iff.mp hidx
    obtain ⟨hnd, habs, hpos⟩ := swapRemove_keys hi hlt
    -- the removed key leaves the mapping first
    replace hpos := hpos.erase habs
    have hmod := hm.swapRemove hi hlt
    rw [hm.getElem?_of_mem (List.getElem_mem hlt)]
    simp only [swapRemove_eq hlt, Option.bind_eq_bind, Option.bind_some]
    by_cases hne : index < h.data.length - 1
    · -- the last node moved into the hole: it is sifted the way its value differs
      have hne' : index ≠ ((h.data.set index h.data[h.data.length - 1]).dropLast).length := by
        simp only [List.length_dropLast, List.length_set]
        omega
      have hmoved : ((h.data.set index h.data[h.data.length - 1]).dropLast)[index]? =
          some h.data[h.data.length - 1] := by
        rw [List.getElem?_dropLast, if_pos (by simpa using hne), List.getElem?_set_self hlt]
      have hr : ((h.data.map Node.value).dropLast)[index]? = some h.data[index].value := by
        rw [List.getElem?_dropLast, if_pos (by simpa using hne), getElem?_map_value hlt]
      have hvals := swapRemove_values h.data index h.data[h.data.length - 1]
      have hpos' := hpos.mono fun k hk => hk.1.resolve_right hk.2
      rw [if_pos hne', hmoved, Option.bind_some]
      rcases lt_trichotomy h.data[h.data.length - 1].value h.data[index].value with
        hlt' | heq | hgt
      · obtain ⟨h', hs, hinv, hperm⟩ :=
          siftDown_restores hi.heap.dropLast hr hmoved hvals hnd hpos' hlt'.le
        rw [compare_lt_iff_lt.mpr hlt', hs]
        exact ⟨h', rfl, hinv, HeapMap.models_of_perm hperm hmod⟩
      · -- equal values: only the moved node's position is recorded
        rw [compare_eq_iff_eq.mpr heq]
        refine ⟨_, rfl, ⟨?_, ?_⟩, HeapMap.models_of_perm (List.Perm.refl _) hmod⟩
        · rw [hvals, heq, set_of_getElem? hr]
          exact hi.heap.dropLast
        · have hkey :
              (((h.data.set index h.data[h.data.length - 1]).dropLast).map Node.key)[index]? =
                some h.data[h.data.length - 1].key := by
            rw [List.getElem?_map, hmoved]
            rfl
          exact (hpos.insert hnd hkey).mono fun k hk => hk.2 (hk.1.1.resolve_right hk.1.2)
      · obtain ⟨h', hs, hinv, hperm⟩ :=
          siftUp_restores hi.heap.dropLast hr hmoved hvals hnd hpos' hgt
        rw [compare_gt_iff_gt.mpr hgt, hs]
        exact ⟨h', rfl, hinv, HeapMap.models_of_perm hperm hmod⟩
    · -- the removed node was the last one
      have hlast : h.data.length - 1 = index := by omega
      have heq : ¬index ≠ ((h.data.set index h.data[h.data.length - 1]).dropLast).length := by
        simp only [List.length_dropLast, List.length_set]
        omega
      rw [if_neg heq]
      refine ⟨_, rfl, ⟨?_, ?_⟩, HeapMap.models_of_perm (List.Perm.refl _) hmod⟩
      · have hlen : ((h.data.map Node.value).dropLast).length ≤ index := by
          simp only [List.length_dropLast, List.length_map]
          omega
        rw [swapRemove_values, List.set_eq_of_length_le hlen]
        exact hi.heap.dropLast
      · have hkey : h.data[h.data.length - 1].key = h.data[index].key := by simp only [hlast]
        exact hpos.mono fun k hk => hk.2 (hk.1.elim (fun e => e.trans hkey) id)

/-- The root is a largest node. -/
theorem HeapMap.Inv.le_root (hi : h.Inv) {n : Node K V} (h0 : h.data[0]? = some n)
    {x : Node K V} (hx : x ∈ h.data) : x.value ≤ n.value := by
  obtain ⟨i, hxi⟩ := List.mem_iff_getElem?.mp hx
  exact hi.heap.le_root (getElem?_map_value_of_getElem? h0) i x.value
    (getElem?_map_value_of_getElem? hxi)

/-- `top` answers what the model allows `pop` to answer. -/
theorem top_spec (hi : h.Inv) (hm : h.Models m) : TopEntry m h.top := by
  unfold HeapMap.top
  cases h0 : h.data[0]? with
  | none =>
    -- no root: no node, and the model is empty
    have hnil : h.data = [] := List.eq_nil_of_length_eq_zero (by
      have := List.getElem?_eq_none_iff.mp h0
      omega)
    show m.isEmpty = true
    rw [Std.HashMap.isEmpty_iff_forall_not_mem]
    intro k hk
    rw [Std.HashMap.mem_iff_isSome_getElem?, Option.isSome_iff_exists] at hk
    obtain ⟨v, hv⟩ := hk
    have hmem := (hm k v).mpr hv
    rw [hnil] at hmem
    cases hmem
  | some n =>
    exact ⟨hm.getElem?_of_mem (List.mem_of_getElem? h0),
      fun k v hv => hi.le_root h0 ((hm k v).mpr hv)⟩

/-- `pop` answers what `top` answers. -/
theorem pop_answer_eq_top {r : HeapMap K V × Option (K × V)} (hp : h.pop = some r) :
    r.2 = h.top := by
  unfold HeapMap.pop at hp
  split at hp
  next he =>
    obtain rfl := Option.some.inj hp
    rw [HeapMap.top, List.isEmpty_iff.mp he]
    rfl
  next he =>
    have hlt : 0 < h.data.length := List.length_pos_iff.mpr (by simpa using he)
    rw [swapRemove_eq hlt] at hp
    simp only [Option.bind_eq_bind, Option.bind_some] at hp
    rw [HeapMap.top, List.getElem?_eq_getElem hlt]
    -- both branches answer the root
    split at hp
    · obtain rfl := Option.some.inj hp
      rfl
    · obtain ⟨h', -, hr⟩ := Option.bind_eq_some_iff.mp hp
      obtain rfl := Option.some.inj hr
      rfl

/-- `pop` removes and answers a largest entry. -/
theorem pop_sim (hi : h.Inv) (hm : h.Models m) :
    ∃ h' e m', h.pop = some (h', e) ∧ ModelStep m .pop m' (.entry e) ∧ h'.Inv ∧ h'.Models m' := by
  by_cases he : h.data.isEmpty
  · -- nothing to pop
    have htop : h.top = none := by
      rw [HeapMap.top, List.isEmpty_iff.mp he]
      rfl
    exact ⟨h, none, m, by rw [HeapMap.pop, if_pos he], .popEmpty m (htop ▸ top_spec hi hm), hi,
      hm⟩
  · have hlt : 0 < h.data.length := List.length_pos_iff.mpr (by simpa using he)
    have htop : TopEntry m (some (h.data[0].key, h.data[0].value)) := by
      have := top_spec hi hm
      rwa [HeapMap.top, List.getElem?_eq_getElem hlt] at this
    obtain ⟨hnd, habs, hpos⟩ := swapRemove_keys hi hlt
    have hmod := hm.swapRemove hi hlt
    unfold HeapMap.pop
    rw [if_neg he, swapRemove_eq hlt]
    simp only [Option.bind_eq_bind, Option.bind_some]
    split
    next hrest =>
      -- a single node: the heap is left empty
      have hlen : h.data.length - 1 = 0 := by
        simpa using congrArg List.length (List.isEmpty_iff.mp hrest)
      have hkey : h.data[h.data.length - 1].key = h.data[0].key := by simp only [hlen]
      refine ⟨_, _, _, rfl, .pop m _ _ htop, ⟨?_, ?_⟩,
        HeapMap.models_of_perm (List.Perm.refl _) hmod⟩
      · rw [List.isEmpty_iff.mp hrest]
        intro i _ x _ hx
        simp at hx
      · exact (hpos.erase habs).mono fun k hk => hk.2 (hk.1.elim (fun e => e.trans hkey) id)
    next hrest =>
      -- the last node is sifted down from the root
      have hlen : 0 < h.data.length - 1 := by
        have hne : (h.data.set 0 h.data[h.data.length - 1]).dropLast ≠ [] := by simpa using hrest
        simpa using List.length_pos_iff.mpr hne
      have hv : ((h.data.set 0 h.data[h.data.length - 1]).dropLast)[0]? =
          some h.data[h.data.length - 1] := by
        rw [List.getElem?_dropLast, if_pos (by simpa using hlen), List.getElem?_set_self hlt]
      have o : DownOrder (((h.data.set 0 h.data[h.data.length - 1]).dropLast).map Node.value) 0
          h.data[h.data.length - 1].value := by
        rw [swapRemove_values]
        exact hi.heap.dropLast.downOrder_root _
      obtain ⟨r, hs, hsifted⟩ := siftDown_sifted hv hnd hpos (Or.inl rfl) o
      rw [hs, Option.bind_some]
      -- the popped key leaves the mapping last
      have habs' : h.data[0].key ∉ r.1.map Node.key :=
        fun hmem => habs ((hsifted.perm.map Node.key).mem_iff.mp hmem)
      have hmapped :=
        (hsifted.mapped.erase habs').mono fun k hk => hk.2 (hk.1.1.resolve_left hk.1.2)
      exact ⟨_, _, _, rfl, .pop m _ _ htop, ⟨hsifted.heap, hmapped⟩,
        HeapMap.models_of_perm hsifted.perm hmod⟩

/-- An empty heap map keeps the invariant and models the empty map. -/
theorem empty_inv_models : HeapMap.Inv (⟨[], ∅⟩ : HeapMap K V) ∧
    (⟨[], ∅⟩ : HeapMap K V).Models (∅ : Std.HashMap K V) := by
  refine ⟨⟨fun i _ x _ hx => by simp at hx, fun k _ i => ?_⟩, fun k v => ?_⟩
  · simp
  · simp only [List.not_mem_nil, Std.HashMap.getElem?_empty, false_iff]
    exact nofun

/-- Each operation refines its step of the model. -/
theorem step_sim (hi : h.Inv) (hm : h.Models m) (op : Op K V) :
    ∃ h' r m', h.step op = some (h', r) ∧ ModelStep m op m' r ∧ h'.Inv ∧ h'.Models m' := by
  cases op with
  | insert key value =>
    obtain ⟨h', hop, hinv, hmod⟩ := insert_sim hi hm key value
    exact ⟨h', _, _, by rw [HeapMap.step, hop]; rfl, .insert m key value, hinv, hmod⟩
  | remove key =>
    obtain ⟨h', hop, hinv, hmod⟩ := remove_sim hi hm key
    exact ⟨h', _, _, by rw [HeapMap.step, hop]; rfl, .remove m key, hinv, hmod⟩
  | updateWith key f =>
    obtain ⟨h', hop, hinv, hmod⟩ := updateWith_sim hi hm key f
    exact ⟨h', _, _, by rw [HeapMap.step, hop]; rfl, .updateWith m key f, hinv, hmod⟩
  | pop =>
    obtain ⟨h', e, m', hop, hstep, hinv, hmod⟩ := pop_sim hi hm
    exact ⟨h', _, m', by rw [HeapMap.step, hop]; rfl, hstep, hinv, hmod⟩
  | clear =>
    exact ⟨_, _, _, rfl, .clear m, empty_inv_models.1, empty_inv_models.2⟩

/-- Every sequence of operations refines a run of the model. -/
theorem run_sim (hi : h.Inv) (hm : h.Models m) (ops : List (Op K V)) :
    ∃ h' rs m', h.run ops = some (h', rs) ∧ ModelRun m ops m' rs ∧ h'.Inv ∧ h'.Models m' := by
  induction ops generalizing h m with
  | nil => exact ⟨h, [], m, rfl, .nil m, hi, hm⟩
  | cons op ops ih =>
    obtain ⟨h₁, r, m₁, hstep, hms, hi₁, hm₁⟩ := step_sim hi hm op
    obtain ⟨h₂, rs, m₂, hrun, hmr, hi₂, hm₂⟩ := ih hi₁ hm₁
    refine ⟨h₂, r :: rs, m₂, ?_, .cons hms hmr, hi₂, hm₂⟩
    simp only [HeapMap.run, hstep, hrun, Option.bind_eq_bind, Option.bind_some]
    rfl

/-! ### What the model says of the reads -/

/-- The mapping sends each stored key to the position of its node. -/
theorem HeapMap.Inv.mapping_iff (hi : h.Inv) (k : K) (i : Nat) :
    h.mapping[k]? = some i ↔ ∃ hlt : i < h.data.length, h.data[i].key = k := by
  rw [hi.mapped k (fun hf => hf) i, List.getElem?_eq_some_iff]
  simp

/-- `get` reads the model. -/
theorem get_eq (hi : h.Inv) (hm : h.Models m) (k : K) : h.get k = m[k]? := by
  unfold HeapMap.get
  cases hk : h.mapping[k]? with
  | none =>
    rw [hm.getElem?_eq_none (hi.not_mem_of_mapping hk)]
    rfl
  | some i =>
    obtain ⟨n, hn, rfl⟩ := hi.node_of_mapping hk
    simp only [Option.bind_eq_bind, Option.bind_some, hn, Option.map_some]
    exact (hm.getElem?_of_mem (List.mem_of_getElem? hn)).symm

/-- The entries of the nodes are those of the model, in some order. -/
theorem entries_perm_toList (hi : h.Inv) (hm : h.Models m) :
    (h.data.map fun n => (n.key, n.value)).Perm m.toList := by
  have hkeys : (h.data.map fun n => (n.key, n.value)).map Prod.fst = h.data.map Node.key := by
    rw [List.map_map]
    rfl
  have hnd : (h.data.map fun n => (n.key, n.value)).Nodup :=
    List.Nodup.of_map Prod.fst (hkeys ▸ hi.nodup)
  have hnd' : m.toList.Nodup := Std.HashMap.distinct_keys_toList.imp fun hab heq => by
    rw [heq, beq_self_eq_true] at hab
    cases hab
  rw [List.perm_ext_iff_of_nodup hnd hnd']
  rintro ⟨k, v⟩
  rw [Std.HashMap.mem_toList_iff_getElem?_eq_some, ← hm k v, List.mem_map]
  constructor
  · rintro ⟨n, hn, heq⟩
    cases heq
    exact hn
  · intro hmem
    exact ⟨_, hmem, rfl⟩

theorem len_eq_size (hi : h.Inv) (hm : h.Models m) : h.len = m.size := by
  rw [HeapMap.len, ← Std.HashMap.length_toList, ← (entries_perm_toList hi hm).length_eq,
    List.length_map]

theorem iter_perm_values (hi : h.Inv) (hm : h.Models m) :
    h.iter.Perm (m.toList.map Prod.snd) := by
  have := (entries_perm_toList hi hm).map Prod.snd
  rw [List.map_map] at this
  exact this

end Ops

/-- `HeapMap` refines a hash map with extraction of a largest entry. From `HeapMap::new()`, every
sequence of `insert`, `remove`, `update_with`, `pop` and `clear` runs without a panic and returns
what a run of the hash map model returns; after it `data` is a max-heap on values, `mapping` sends
exactly the stored keys to the positions of their nodes, `len`, `get` and `iter` (as a multiset)
read the model, and `top` answers an entry `pop` may remove, the one `pop` does remove. -/
theorem heapMap_refines_hashMap (ops : List (Op K V)) :
    ∃ h rs m, HeapMap.new.run ops = some (h, rs) ∧ ModelRun ∅ ops m rs ∧
      IsMaxHeap (h.data.map Node.value) ∧
      (∀ k i, h.mapping[k]? = some i ↔ ∃ hlt : i < h.data.length, h.data[i].key = k) ∧
      h.len = m.size ∧ (∀ k, h.get k = m[k]?) ∧ h.iter.Perm (m.toList.map Prod.snd) ∧
      TopEntry m h.top ∧ ∀ r, h.pop = some r → r.2 = h.top := by
  obtain ⟨h, rs, m, hrun, hmr, hi, hm⟩ :=
    run_sim empty_inv_models.1 empty_inv_models.2 ops
  exact ⟨h, rs, m, hrun, hmr, hi.heap, hi.mapping_iff, len_eq_size hi hm, get_eq hi hm,
    iter_perm_values hi hm, top_spec hi hm, fun _ hp => pop_answer_eq_top hp⟩

end Mazze.Util
