/-
  The treap map over whole runs of `insert`, `remove` and `update`.

  Each of the three is first inverted into the `update_inner` run it makes (`insert_eq_some`,
  `remove_eq_some`, `update_eq_some`). With `Counter` as key manager, `insert` and `remove` keep
  the difference between the count and the number of nodes: a key is counted when and only when
  a node is added, and uncounted when and only when one is deleted. The re-key path of `update`
  does not: `ApplyOp` reports the key as kept (`view_update(Some, Some)`) but deletes its node,
  and the re-insertion by `TreapMap::update` then counts the node it adds (or merges), so the
  count ends one above the number of nodes (`update_rekey_miscounts`).
-/
import Mazze.TreapMap.Refine

namespace Mazze.Treap

open BinaryTree

variable {κ σ V W ε ρ : Type}

/-! ## What the updaters keep -/

section Keeps

variable [ConsoliableWeight W] (C : TreapMapConfig κ σ V ε)

omit [ConsoliableWeight W] in
theorem keepsNode_insertOp [DecidableEq W] (x : Node κ σ V W) : KeepsNode (insertOp C x) where
  priority h := by
    simp only [insertOp, Option.some.injEq, Prod.mk.injEq] at h
    rw [← h.1]
  sumWeight h := by
    simp only [insertOp, Option.some.injEq, Prod.mk.injEq] at h
    rw [← h.1]
  weight h := by
    -- `InsertOp` reports no change of weight only when the new weight is the old one
    rcases h with h | h <;> simp only [insertOp, Option.some.injEq, Prod.mk.injEq,
      reduceCtorEq, OpResult.updated.injEq, and_false] at h
    obtain ⟨rfl, -, hw, -⟩ := h
    simp only [bne_eq_false_iff_eq] at hw
    exact hw.symm

omit [ConsoliableWeight W] in
theorem keepsNode_removeOp (k : σ × κ) : KeepsNode (removeOp (W := W) C k) where
  priority h := by
    simp only [removeOp, Option.some.injEq, Prod.mk.injEq] at h
    rw [← h.1]
  sumWeight h := by
    simp only [removeOp, Option.some.injEq, Prod.mk.injEq] at h
    rw [← h.1]
  weight h := by
    rcases h with h | h <;> simp [removeOp] at h

omit [ConsoliableWeight W] in
/-- An honest closure makes `ApplyOp` an updater that keeps what the others keep. -/
theorem keepsNode_applyOp {E T ρ : Type} (k : σ × κ) {update : UpdateFn κ σ V W E T}
    (insert : InsertFn κ σ V W E T ρ) (hu : HonestUpdate update) :
    KeepsNode (applyOp C k update insert) := by
  -- the closure's node is `{ n with toNodeFields := f }` on every path, `f` what it wrote
  have hnode : ∀ {n e n' e' res}, (applyOp C k update insert).updateOccupied n e =
      some (n', e', res) → ∃ f out, update n = some (f, out) ∧
        n' = { n with toNodeFields := f } := by
    intro n e n' e' res h
    simp only [applyOp, Option.bind_eq_bind, Option.bind_eq_some_iff] at h
    obtain ⟨⟨f, out⟩, hf, h⟩ := h
    refine ⟨f, out, hf, ?_⟩
    split at h
    · simp only [Option.some.injEq, Prod.mk.injEq] at h
      exact h.1.symm
    · split at h <;> simp only [Option.some.injEq, Prod.mk.injEq] at h <;> exact h.1.symm
  refine ⟨fun h => ?_, fun h => ?_, fun {n e n' e' ret} h => ?_⟩
  · obtain ⟨f, out, -, rfl⟩ := hnode h
    rfl
  · obtain ⟨f, out, -, rfl⟩ := hnode h
    rfl
  · obtain ⟨f, out, hf, rfl⟩ : ∃ f out, update n = some (f, out) ∧
        n' = { n with toNodeFields := f } := by
      rcases h with h | h <;> exact hnode h
    show f.weight = n.weight
    rcases out with err | o
    · rw [hu.error n f err hf]
    · -- only a node that stays and asks for no new weight reports no change
      have hkd : o.updateKey = false ∧ o.deleteItem = false ∧ o.updateWeight = false := by
        rcases h with h | h <;>
          simp only [applyOp, Option.bind_eq_bind, hf, Option.bind_some] at h <;>
          split at h <;> simp_all
      exact hu.weight n f o hf hkd.2.2 hkd.1 hkd.2.1

end Keeps

/-! ## The map operations as `update_inner` runs -/

section Inversion

variable [ConsoliableWeight W] [DecidableEq W] {C : TreapMapConfig κ σ V ε}
  {nextU64 : ρ → Nat × ρ}

theorem insert_eq_some {m m' : TreapMap κ σ V W ε ρ} {key : κ} {value : V} {weight : W}
    {ret : Option V} (h : TreapMap.insert C nextU64 m key value weight = some (m', ret)) :
    ∃ uw up, updateInner C.nextNodeDir
        (insertOp C (Node.new key value (C.extMap.makeSortKey m.extMap key value) weight
          (nextU64 m.rng).1)) m.root m.extMap = some (m'.root, m'.extMap, ret, uw, up) ∧
      m'.rng = (nextU64 m.rng).2 := by
  simp only [TreapMap.insert, Option.bind_eq_bind, Option.bind_eq_some_iff, Option.pure_def,
    Option.some.injEq] at h
  obtain ⟨⟨root, extMap, ret₁, uw, up⟩, hu, heq⟩ := h
  simp only [Prod.mk.injEq] at heq
  obtain ⟨rfl, rfl⟩ := heq
  exact ⟨uw, up, hu, rfl⟩

/-- `InsertOp` returns at every slot. -/
theorem updateSlot_insertOp_isSome (x : Node κ σ V W) (s : MaybeNode κ σ V W) (e : ε) :
    (updateSlot (insertOp C x) s e).isSome := by
  cases s <;> simp [updateSlot, updateNodeAt, insertOp, processUpdateResult]

/-- `TreapMap::insert` never panics. -/
theorem insert_isSome (m : TreapMap κ σ V W ε ρ) (key : κ) (value : V) (weight : W) :
    (TreapMap.insert C nextU64 m key value weight).isSome := by
  have hsome : (updateInner C.nextNodeDir (insertOp C (Node.new key value
      (C.extMap.makeSortKey m.extMap key value) weight (nextU64 m.rng).1)) m.root
      m.extMap).isSome :=
    updateInner_isSome (updateSlot_insertOp_isSome _ _ _)
  obtain ⟨⟨root, extMap, ret, uw, up⟩, hu⟩ := Option.isSome_iff_exists.mp hsome
  simp [TreapMap.insert, hu]

omit [DecidableEq W] in
theorem remove_eq_some {m m' : TreapMap κ σ V W ε ρ} {key : κ} {ret : Option V}
    (h : TreapMap.remove C m key = some (m', ret)) :
    (C.extMap.getSortKey m.extMap key = none ∧ m' = m ∧ ret = none) ∨
    ∃ sk uw up, C.extMap.getSortKey m.extMap key = some sk ∧
      updateInner C.nextNodeDir (removeOp C (sk, key)) m.root m.extMap =
        some (m'.root, m'.extMap, ret, uw, up) ∧ m'.rng = m.rng := by
  unfold TreapMap.remove at h
  split at h
  · next hk =>
    simp only [Option.some.injEq, Prod.mk.injEq] at h
    exact .inl ⟨hk, h.1.symm, h.2.symm⟩
  · next sk hk =>
    simp only [Option.bind_eq_bind, Option.bind_eq_some_iff, Option.pure_def,
      Option.some.injEq] at h
    obtain ⟨⟨root, extMap, ret₁, uw, up⟩, hu, heq⟩ := h
    simp only [Prod.mk.injEq] at heq
    obtain ⟨rfl, rfl⟩ := heq
    exact .inr ⟨sk, uw, up, hk, hu, rfl⟩

/-- `TreapMap::update`, by the path it takes: a key the manager does not know goes to the insert
    closure and then `insert`; otherwise `ApplyOp` runs, and its result is returned, or the node
    it took out is inserted again. -/
theorem update_eq_some {E T : Type} {m m' : TreapMap κ σ V W ε ρ} {key : κ}
    {update : UpdateFn κ σ V W E T} {insert : InsertFn κ σ V W E T ρ} {res : Except E T}
    (h : TreapMap.update C nextU64 m key update insert = some (m', res)) :
    (C.extMap.getSortKey m.extMap key = none ∧
      ((∃ err g, insert m.rng = some (.error err, g) ∧ m' = { m with rng := g } ∧
          res = .error err) ∨
        (∃ f p ret g r, insert m.rng = some (.ok ((f, p), ret), g) ∧
          TreapMap.insert C nextU64 { m with rng := g } f.key f.value f.weight = some (m', r) ∧
          res = .ok ret))) ∨
    ∃ sk root e g out uw up, C.extMap.getSortKey m.extMap key = some sk ∧
      updateInner C.nextNodeDir (applyOp C (sk, key) update insert) m.root (m.extMap, m.rng) =
        some (root, (e, g), out, uw, up) ∧
      ((∃ err, out = .error err ∧ m' = ⟨root, e, g⟩ ∧ res = .error err) ∨
        (∃ ret, out = .ok (ret, none) ∧ m' = ⟨root, e, g⟩ ∧ res = .ok ret) ∨
        (∃ ret d r, out = .ok (ret, some d) ∧
          TreapMap.insert C nextU64 ⟨root, e, g⟩ d.key d.value d.weight = some (m', r) ∧
          res = .ok ret)) := by
  unfold TreapMap.update at h
  split at h
  · next hk =>
    refine .inl ⟨hk, ?_⟩
    rcases hi : insert m.rng with _ | ⟨_ | ⟨⟨f, p⟩, ret⟩, g⟩ <;>
      simp only [hi, Option.bind_eq_bind, Option.bind_none, Option.bind_some, reduceCtorEq] at h
    · simp only [Option.some.injEq, Prod.mk.injEq] at h
      exact .inl ⟨_, g, rfl, h.1.symm, h.2.symm⟩
    · simp only [Option.bind_eq_some_iff, Option.pure_def, Option.some.injEq,
        Prod.mk.injEq] at h
      obtain ⟨⟨m₁, r⟩, hm, rfl, rfl⟩ := h
      exact .inr ⟨f, p, ret, g, r, rfl, hm, rfl⟩
  · next sk hk =>
    simp only [Option.bind_eq_bind, Option.bind_eq_some_iff] at h
    obtain ⟨⟨root, ⟨e, g⟩, out, uw, up⟩, hu, h⟩ := h
    refine .inr ⟨sk, root, e, g, out, uw, up, hk, hu, ?_⟩
    rcases out with err | ⟨ret, _ | d⟩
    · simp only [Option.pure_def, Option.some.injEq, Prod.mk.injEq] at h
      exact .inl ⟨err, rfl, h.1.symm, h.2.symm⟩
    · simp only [Option.pure_def, Option.some.injEq, Prod.mk.injEq] at h
      exact .inr (.inl ⟨ret, rfl, h.1.symm, h.2.symm⟩)
    · simp only [Option.bind_eq_some_iff, Option.pure_def, Option.some.injEq,
        Prod.mk.injEq] at h
      obtain ⟨⟨m₁, r⟩, hm, rfl, rfl⟩ := h
      exact .inr (.inr ⟨ret, d, r, rfl, hm, rfl⟩)

/-- The re-key path of `TreapMap::update` run forward: `ApplyOp` took the node out and `insert`
    put it back. -/
theorem update_of_reinsert {E T : Type} {m m' : TreapMap κ σ V W ε ρ} {key : κ} {sk : σ}
    {update : UpdateFn κ σ V W E T} {insert : InsertFn κ σ V W E T ρ} {root : MaybeNode κ σ V W}
    {e : ε} {g : ρ} {ret : T} {d : Node κ σ V W} {uw up : Bool} {r : Option V}
    (hk : C.extMap.getSortKey m.extMap key = some sk)
    (hu : updateInner C.nextNodeDir (applyOp C (sk, key) update insert) m.root (m.extMap, m.rng) =
      some (root, (e, g), .ok (ret, some d), uw, up))
    (hm : TreapMap.insert C nextU64 ⟨root, e, g⟩ d.key d.value d.weight = some (m', r)) :
    TreapMap.update C nextU64 m key update insert = some (m', .ok ret) := by
  simp only [TreapMap.update, hk, Option.bind_eq_bind, hu, Option.bind_some, hm, Option.pure_def]

end Inversion

/-! ## The representation invariant -/

/-- The representation invariant of a treap: a search tree on `(sort_key, key)`, a max-heap on
    the priorities, and every `sum_weight` the node's weight accumulated with its children's. -/
structure TreapInv [ConsoliableWeight W] (d : σ × κ → σ × κ → Option Direction)
    (t : MaybeNode κ σ V W) : Prop where
  sorted : Sorted d t
  heap : IsHeap Node.priority t
  sums : SumOk t

section Inv

variable [ConsoliableWeight W]

theorem treapInv_nil (d : σ × κ → σ × κ → Option Direction) :
    TreapInv d (nil : MaybeNode κ σ V W) :=
  ⟨List.Pairwise.nil, trivial, trivial⟩

omit [ConsoliableWeight W] in
/-- A heap's priorities are bounded by its root's. -/
theorem exists_priority_bound {t : MaybeNode κ σ V W} (h : IsHeap Node.priority t) :
    ∃ b, ∀ x ∈ t.toList, x.priority ≤ b := by
  cases t with
  | nil => exact ⟨0, by simp⟩
  | node n l r => exact ⟨n.priority, h.le_of_root_le le_rfl⟩

/-- An updater that keeps its node's priority and sums keeps the heap and the sums, so the
    invariant holds after it as soon as the tree is still a search tree. -/
theorem TreapInv.updateInner {R DR : Type} {d : σ × κ → σ × κ → Option Direction}
    {u : TreapNodeUpdate κ σ V W ε R DR} {t t' : MaybeNode κ σ V W} {e e' : ε} {ret : R}
    {uw up : Bool} (hu : KeepsNode u) (hi : TreapInv d t)
    (h : Mazze.Treap.updateInner d u t e = some (t', e', ret, uw, up)) (hs : Sorted d t') :
    TreapInv d t' := by
  obtain ⟨b, hb⟩ := exists_priority_bound hi.heap
  exact ⟨hs, (updateInner_isHeap hu hi.heap hb h).1, (updateInner_sumOk hu hi.sums h).1⟩

end Inv

/-! ## The map operations on the ordered map -/

section Map

variable [ConsoliableWeight W] [DecidableEq W] {C : TreapMapConfig κ σ V ε}
  [Std.TransCmp (dirCmp C.nextNodeDir)] [Std.LawfulEqCmp (dirCmp C.nextNodeDir)]
  {nextU64 : ρ → Nat × ρ}

/-- `TreapMap::insert` keeps the invariant and is the model's insertion of the entry, returning
    the old value of the key and reporting the change to the key manager. -/
theorem insert_spec {m m' : TreapMap κ σ V W ε ρ} {key : κ} {value : V} {weight : W}
    {ret : Option V} (hi : TreapInv C.nextNodeDir m.root)
    (h : TreapMap.insert C nextU64 m key value weight = some (m', ret)) :
    TreapInv C.nextNodeDir m'.root ∧
    entries m'.root = KeyList.insertWith (dirCmp C.nextNodeDir) NodeFields.treapKey insertMerge
      ⟨key, value, C.extMap.makeSortKey m.extMap key value, weight⟩ (entries m.root) ∧
    ret = (lookup C.nextNodeDir (C.extMap.makeSortKey m.extMap key value, key)
      (entries m.root)).map NodeFields.value ∧
    m'.extMap = C.extMap.viewUpdate m.extMap key (some value) ret := by
  obtain ⟨uw, up, hu, -⟩ := insert_eq_some h
  obtain ⟨hent, hret, he⟩ := entries_insertOp hi.sorted hu
  exact ⟨hi.updateInner (keepsNode_insertOp C _) hu (sorted_insertOp hi.sorted hu), hent, hret, he⟩

/-- After `TreapMap::insert` the map holds a node of the key, value and weight given, at the sort
    key the manager makes for them. -/
theorem insert_mem {m m' : TreapMap κ σ V W ε ρ} {key : κ} {value : V} {weight : W}
    {ret : Option V} (hs : Sorted C.nextNodeDir m.root)
    (h : TreapMap.insert C nextU64 m key value weight = some (m', ret)) :
    ∃ n ∈ m'.root.toList,
      n.toNodeFields = ⟨key, value, C.extMap.makeSortKey m.extMap key value, weight⟩ := by
  obtain ⟨uw, up, hu, -⟩ := insert_eq_some h
  have hmem := mem_insertWith_insertMerge (d := C.nextNodeDir)
    (Node.new key value (C.extMap.makeSortKey m.extMap key value) weight
      (nextU64 m.rng).1).toNodeFields (entries m.root)
  rw [← (entries_insertOp hs hu).1] at hmem
  exact List.mem_map.mp hmem

omit [DecidableEq W] in
/-- `TreapMap::remove` keeps the invariant and is the model's removal of the key at the sort
    key the manager gives; a key the manager does not know changes nothing. -/
theorem remove_spec {m m' : TreapMap κ σ V W ε ρ} {key : κ} {ret : Option V}
    (hi : TreapInv C.nextNodeDir m.root) (h : TreapMap.remove C m key = some (m', ret)) :
    TreapInv C.nextNodeDir m'.root ∧
    ((C.extMap.getSortKey m.extMap key = none ∧ m' = m ∧ ret = none) ∨
      ∃ sk, C.extMap.getSortKey m.extMap key = some sk ∧
        entries m'.root = eraseKey C.nextNodeDir (sk, key) (entries m.root) ∧
        ret = (lookup C.nextNodeDir (sk, key) (entries m.root)).map NodeFields.value ∧
        m'.extMap = C.extMap.viewUpdate m.extMap key none ret) := by
  rcases remove_eq_some h with ⟨hk, rfl, rfl⟩ | ⟨sk, uw, up, hk, hu, -⟩
  · exact ⟨hi, .inl ⟨hk, rfl, rfl⟩⟩
  · obtain ⟨hent, hret, he⟩ := entries_removeOp hi.sorted hu
    exact ⟨hi.updateInner (keepsNode_removeOp C _) hu (sorted_removeOp hi.sorted hu),
      .inr ⟨sk, hk, hent, hret, he⟩⟩

section Update

variable {E T : Type} {update : UpdateFn κ σ V W E T} {insert : InsertFn κ σ V W E T ρ}

/-- With an honest closure `TreapMap::update` keeps the invariant: `ApplyOp` does, and so does
    the re-insertion of a node it took out. -/
theorem update_inv {m m' : TreapMap κ σ V W ε ρ} {key : κ} {res : Except E T}
    (hu : HonestUpdate update) (hi : TreapInv C.nextNodeDir m.root)
    (h : TreapMap.update C nextU64 m key update insert = some (m', res)) :
    TreapInv C.nextNodeDir m'.root := by
  rcases update_eq_some h with ⟨-, ⟨err, g, -, rfl, -⟩ | ⟨f, p, ret, g, r, -, hm, -⟩⟩ |
    ⟨sk, root, e, g, out, uw, up, -, hap, hcase⟩
  · exact hi
  · exact (insert_spec (m := { m with rng := g }) hi hm).1
  · -- `ApplyOp` first, then possibly `insert`
    have hroot : TreapInv C.nextNodeDir root :=
      hi.updateInner (keepsNode_applyOp C _ insert hu) hap (sorted_applyOp hu hi.sorted hap)
    rcases hcase with ⟨err, -, rfl, -⟩ | ⟨ret, -, rfl, -⟩ | ⟨ret, d, r, -, hm, -⟩
    · exact hroot
    · exact hroot
    · exact (insert_spec (m := ⟨root, e, g⟩) hroot hm).1

/-- With an honest closure an error of either closure leaves the entries and the key manager
    as they were; only the generator may have moved. -/
theorem update_error {m m' : TreapMap κ σ V W ε ρ} {key : κ} {err : E}
    (hu : HonestUpdate update) (hi : TreapInv C.nextNodeDir m.root)
    (h : TreapMap.update C nextU64 m key update insert = some (m', .error err)) :
    entries m'.root = entries m.root ∧ m'.extMap = m.extMap := by
  rcases update_eq_some h with ⟨-, ⟨err', g, -, rfl, -⟩ | ⟨f, p, ret, g, r, -, -, hres⟩⟩ |
    ⟨sk, root, e, g, out, uw, up, -, hap, hcase⟩
  · exact ⟨rfl, rfl⟩
  · cases hres
  · rcases hcase with ⟨err', rfl, rfl, -⟩ | ⟨ret, -, -, hres⟩ | ⟨ret, d, r, -, -, hres⟩
    · -- `ApplyOp` returned the error: the insert closure failed, or the update closure did
      -- without writing the node
      rcases entries_applyOp hi.sorted hap with
        ⟨-, ⟨err'', -, ht, -, he⟩ | ⟨f, p, ret, -, -, -, hres, -⟩⟩ |
        ⟨n, hlook, -, f, out, hf, ⟨err'', rfl, ht, -, he⟩ | ⟨o, -, -, -, hres, -⟩ |
          ⟨o, d, -, -, -, -, -, hres, -⟩ | ⟨o, -, -, -, -, hres, -⟩⟩
      · exact ⟨ht, he⟩
      · cases hres
      · rw [hu.error n f err'' hf] at ht
        exact ⟨ht.trans (replaceKey_of_lookup hi.sorted hlook), he⟩
      · cases hres
      · cases hres
      · cases hres
    · cases hres
    · cases hres

variable (nextU64 insert) in
/-- A closure that asks to move the node of a key makes `TreapMap::update` return, and the node
    put back holds what the closure wrote, at the sort key the manager makes for it. -/
theorem update_moves_node {m : TreapMap κ σ V W ε ρ} {key : κ} {sk : σ}
    (hu : HonestUpdate update) (hs : Sorted C.nextNodeDir m.root)
    (hk : C.extMap.getSortKey m.extMap key = some sk) {n : Node κ σ V W}
    (hn : n ∈ m.root.toList) (hkey : n.treapKey = (sk, key)) {f : NodeFields κ σ V W}
    {o : ApplyOpOutcome T}
    (hf : ∀ n' : Node κ σ V W, n'.toNodeFields = n.toNodeFields → update n' = some (f, .ok o))
    (hmove : o.updateKey = true) (hdel : o.deleteItem = false) :
    ∃ m', TreapMap.update C nextU64 m key update insert = some (m', .ok o.out) ∧
      ∃ n' ∈ m'.root.toList, ∃ e,
        n'.toNodeFields = ⟨f.key, f.value, C.extMap.makeSortKey e f.key f.value, f.weight⟩ := by
  -- `ApplyOp` walks to the node of the key, where the closure returns
  obtain ⟨n₀, l, r, hslot, hn₀⟩ := descend_of_mem hs hn
  rw [hkey] at hslot
  have hsome : (updateInner C.nextNodeDir (applyOp C (sk, key) update insert) m.root
      (m.extMap, m.rng)).isSome := by
    refine updateInner_isSome ?_
    rw [applyOp_treapKey, hslot]
    exact updateSlot_applyOp_node_isSome C l r _ (by rw [hf n₀ hn₀]; rfl)
  obtain ⟨⟨root, ⟨e, g⟩, res, uw, up⟩, happ⟩ := Option.isSome_iff_exists.mp hsome
  have hlook : lookup C.nextNodeDir (sk, key) (entries m.root) = some n.toNodeFields := by
    rw [← hkey, ← Node.treapKey_toNodeFields]
    exact lookup_of_mem hs (List.mem_map_of_mem hn)
  rcases entries_applyOp hs happ with ⟨hnone, -⟩ | ⟨n₁, hlook₁, -, f', out, hf', hcase⟩
  · rw [hlook] at hnone
    cases hnone
  rw [hlook, Option.some.injEq] at hlook₁
  rw [hf n₁ hlook₁.symm, Option.some.injEq, Prod.mk.injEq] at hf'
  obtain ⟨rfl, rfl⟩ := hf'
  -- the closure asked for a new place, so `ApplyOp` took the node out
  rcases hcase with ⟨err, herr, -⟩ | ⟨o', ho, hdi, -⟩ | ⟨o', d, ho, -, -, -, hd, hres, -⟩ |
    ⟨o', ho, -, hk', -⟩
  · cases herr
  · cases ho
    rw [hdel] at hdi
    cases hdi
  · -- and `TreapMap::update` inserts it again
    cases ho
    have hins : (TreapMap.insert C nextU64 ⟨root, e, g⟩ d.key d.value d.weight).isSome :=
      insert_isSome _ _ _ _
    obtain ⟨⟨m', r'⟩, hm'⟩ := Option.isSome_iff_exists.mp hins
    rw [hres] at happ
    obtain ⟨n', hn', hfields⟩ := insert_mem (sorted_applyOp hu hs happ) hm'
    rw [hd] at hfields
    exact ⟨m', update_of_reinsert hk happ hm', n', hn', e, hfields⟩
  · cases ho
    rw [hmove] at hk'
    cases hk'

end Update

/-! ### What the entries hold after an update -/

section Fields

variable {E T : Type} {update : UpdateFn κ σ V W E T} {insert : InsertFn κ σ V W E T ρ}
  (Q : V → W → Prop)

omit [ConsoliableWeight W] [DecidableEq W] [Std.TransCmp (dirCmp C.nextNodeDir)]
  [Std.LawfulEqCmp (dirCmp C.nextNodeDir)] in
theorem mem_replaceKey {d : σ × κ → σ × κ → Option Direction} {k : σ × κ}
    {f x : NodeFields κ σ V W} {xs : List (NodeFields κ σ V W)} (hx : x ∈ replaceKey d k f xs) :
    x = f ∨ x ∈ xs := by
  obtain ⟨y, hy, rfl⟩ := List.mem_map.mp hx
  split
  · exact .inl rfl
  · exact .inr hy

/-- After `TreapMap::insert` every entry is an old one or holds the value and weight inserted. -/
theorem insert_fields {m m' : TreapMap κ σ V W ε ρ} {key : κ} {value : V} {weight : W}
    {ret : Option V} (hi : TreapInv C.nextNodeDir m.root)
    (h : TreapMap.insert C nextU64 m key value weight = some (m', ret))
    (hm : ∀ x ∈ entries m.root, Q x.value x.weight) (hnew : Q value weight) :
    ∀ x ∈ entries m'.root, Q x.value x.weight := by
  intro x hx
  rw [(insert_spec hi h).2.1] at hx
  -- the new entry, an old one, or an old one overwritten with the new value and weight
  rcases KeyList.mem_insertWith hx with rfl | hx | ⟨y, -, rfl⟩
  · exact hnew
  · exact hm x hx
  · exact hnew

/-- A property of an entry's value and weight that the closures of `TreapMap::update` give every
    entry they leave in the map holds of every entry after it. -/
theorem update_fields {m m' : TreapMap κ σ V W ε ρ} {key : κ} {res : Except E T}
    (hu : HonestUpdate update) (hi : TreapInv C.nextNodeDir m.root)
    (hm : ∀ x ∈ entries m.root, Q x.value x.weight)
    (hupd : ∀ n f o, Q n.value n.weight → update n = some (f, .ok o) → o.deleteItem = false →
      Q f.value f.weight)
    (hins : ∀ g f p ret g', insert g = some (.ok ((f, p), ret), g') → Q f.value f.weight)
    (h : TreapMap.update C nextU64 m key update insert = some (m', res)) :
    ∀ x ∈ entries m'.root, Q x.value x.weight := by
  rcases update_eq_some h with ⟨-, ⟨err, g, -, rfl, -⟩ | ⟨f, p, ret, g, r, hf, hm', -⟩⟩ |
    ⟨sk, root, e, g, out, uw, up, -, hap, hcase⟩
  · exact hm
  · exact insert_fields Q (m := { m with rng := g }) hi hm' hm (hins _ _ _ _ _ hf)
  · have hroot : TreapInv C.nextNodeDir root :=
      hi.updateInner (keepsNode_applyOp C _ insert hu) hap (sorted_applyOp hu hi.sorted hap)
    -- what `ApplyOp` leaves, and the node it took out to be inserted again, if any
    have happ : (∀ x ∈ entries root, Q x.value x.weight) ∧
        ∀ ret d, out = .ok (ret, some d) → Q d.value d.weight := by
      rcases entries_applyOp hi.sorted hap with
        ⟨-, ⟨err, -, ht, hres, -⟩ | ⟨f, p, ret, hf, -, ht, hres, -⟩⟩ |
        ⟨n, hlook, -, f, o', hf, ⟨err, rfl, ht, hres, -⟩ | ⟨o, rfl, -, ht, hres, -⟩ |
          ⟨o, d, rfl, hdel, -, ht, hd, hres, -⟩ | ⟨o, rfl, hdel, -, ht, hres, -⟩⟩
      · exact ⟨ht ▸ hm, fun _ _ h => by rw [hres] at h; cases h⟩
      · refine ⟨?_, fun _ _ h => by rw [hres] at h; cases h⟩
        intro x hx
        rw [ht] at hx
        rcases KeyList.mem_insertWith hx with rfl | hx | ⟨y, -, rfl⟩
        · exact hins _ _ _ _ _ hf
        · exact hm x hx
        · -- an overwritten entry holds the new value and weight
          show Q f.value f.weight
          exact hins _ _ _ _ _ hf
      all_goals have hn : Q n.value n.weight := hm _ (List.mem_of_find?_eq_some hlook)
      · -- a failed closure wrote nothing
        rw [hu.error n f err hf] at ht
        refine ⟨fun x hx => ?_, fun _ _ h => by rw [hres] at h; cases h⟩
        rw [ht] at hx
        rcases mem_replaceKey hx with rfl | hx
        · exact hn
        · exact hm x hx
      · refine ⟨fun x hx => hm x ?_, fun _ _ h => by rw [hres] at h; cases h⟩
        rw [ht] at hx
        exact (List.mem_filter.mp hx).1
      · refine ⟨fun x hx => hm x ?_, fun _ _ h => ?_⟩
        · rw [ht] at hx
          exact (List.mem_filter.mp hx).1
        · rw [hres] at h
          cases h
          have hq := hupd n f o hn hf hdel
          rw [← hd] at hq
          exact hq
      · refine ⟨fun x hx => ?_, fun _ _ h => by rw [hres] at h; cases h⟩
        rw [ht] at hx
        rcases mem_replaceKey hx with rfl | hx
        · exact hupd n _ o hn hf hdel
        · exact hm x hx
    rcases hcase with ⟨err, -, rfl, -⟩ | ⟨ret, -, rfl, -⟩ | ⟨ret, d, r, hout, hm', -⟩
    · exact happ.1
    · exact happ.1
    · exact insert_fields Q (m := ⟨root, e, g⟩) hroot hm' happ.1 (happ.2 ret d hout)

end Fields

end Map

/-! ## Whole runs -/

/-- The maps a run of `new`, then `insert`, `remove` and `update` with honest closures, reaches
    without a panic. -/
inductive Reachable [ConsoliableWeight W] [DecidableEq W] (C : TreapMapConfig κ σ V ε)
    (nextU64 : ρ → Nat × ρ) : TreapMap κ σ V W ε ρ → Prop where
  | new (rng : ρ) : Reachable C nextU64 (TreapMap.new C rng)
  | insert {m m' : TreapMap κ σ V W ε ρ} {key : κ} {value : V} {weight : W} {ret : Option V} :
      Reachable C nextU64 m → TreapMap.insert C nextU64 m key value weight = some (m', ret) →
      Reachable C nextU64 m'
  | remove {m m' : TreapMap κ σ V W ε ρ} {key : κ} {ret : Option V} :
      Reachable C nextU64 m → TreapMap.remove C m key = some (m', ret) → Reachable C nextU64 m'
  | update {E T : Type} {m m' : TreapMap κ σ V W ε ρ} {key : κ}
      {update : UpdateFn κ σ V W E T} {insert : InsertFn κ σ V W E T ρ} {res : Except E T} :
      Reachable C nextU64 m → HonestUpdate update →
      TreapMap.update C nextU64 m key update insert = some (m', res) → Reachable C nextU64 m'

section Runs

variable [ConsoliableWeight W] [DecidableEq W] {C : TreapMapConfig κ σ V ε}
  [Std.TransCmp (dirCmp C.nextNodeDir)] [Std.LawfulEqCmp (dirCmp C.nextNodeDir)]
  {nextU64 : ρ → Nat × ρ}

/-- Every reachable map satisfies the representation invariant. -/
theorem Reachable.inv {m : TreapMap κ σ V W ε ρ} (hm : Reachable C nextU64 m) :
    TreapInv C.nextNodeDir m.root := by
  induction hm with
  | new rng => exact treapInv_nil _
  | insert _ h ih => exact (insert_spec ih h).1
  | remove _ h ih => exact (remove_spec ih h).1
  | update _ hu h ih => exact update_inv hu ih h

end Runs

/-! ## The order of the shared-key configuration -/

theorem dirCmp_sharedKey [Ord κ] (a b : Unit × κ) :
    dirCmp (sharedKeyConfig κ V).nextNodeDir a b = compare a.2 b.2 := by
  unfold dirCmp
  cases h : compare a.2 b.2 <;> simp [sharedKeyConfig, sharedKeyNextNodeDir, h]

instance [Ord κ] [Std.TransOrd κ] : Std.TransCmp (dirCmp (sharedKeyConfig κ V).nextNodeDir) where
  eq_swap {a b} := by
    simp only [dirCmp_sharedKey]
    exact Std.OrientedOrd.eq_swap
  isLE_trans {a b c} := by
    simp only [dirCmp_sharedKey]
    exact Std.TransOrd.isLE_trans

instance [Ord κ] [Std.LawfulEqOrd κ] :
    Std.LawfulEqCmp (dirCmp (sharedKeyConfig κ V).nextNodeDir) where
  compare_self {a} := by
    rw [dirCmp_sharedKey]
    exact Std.ReflOrd.compare_self
  eq_of_compare {a b} h := by
    rw [dirCmp_sharedKey] at h
    exact Prod.ext rfl (Std.LawfulEqOrd.eq_of_compare h)

/-! ## `Counter` against the number of nodes -/

section Counter

variable [Ord κ] [ConsoliableWeight W] [DecidableEq W] {nextU64 : ρ → Nat × ρ}

/-- `insert` with `Counter` counts a key exactly when it adds a node. -/
theorem insert_counter_offset {m m' : TreapMap κ Unit V W Nat ρ} {key : κ} {value : V}
    {weight : W} {ret : Option V}
    (h : TreapMap.insert (sharedKeyConfig κ V) nextU64 m key value weight = some (m', ret)) :
    m'.extMap + m.root.numNodes = m.extMap + m'.root.numNodes := by
  obtain ⟨uw, up, hu, -⟩ := insert_eq_some h
  obtain ⟨s, up', hs, hn⟩ := numNodes_updateInner hu
  rcases updateSlot_insertOp _ hs with ⟨hnil, hes, -, he⟩ | ⟨n, l, r, hnode, hes, -, he⟩
  · -- a vacant slot gets a leaf, and the key is counted
    have hsn := congrArg List.length hes
    rw [length_entries] at hsn
    rw [hnil] at hn
    simp only [he, sharedKeyConfig, counter, Option.isSome_some, if_true, Option.isSome_none,
      Bool.false_eq_true, if_false]
    simp only [numNodes, List.length_singleton] at hn hsn
    omega
  · -- the node of the key is overwritten: counted once more and uncounted once
    have hsn := congrArg List.length hes
    simp only [length_entries, List.length_append, List.length_cons] at hsn
    rw [hnode] at hn
    simp only [he, sharedKeyConfig, counter, Option.isSome_some, if_true, Nat.add_sub_cancel]
    simp only [numNodes] at hn
    omega

omit [ConsoliableWeight W] [DecidableEq W] in
/-- A key `Counter` maps has its node where the walk of the key stops. -/
theorem slot_of_get_isSome {m : TreapMap κ Unit V W Nat ρ} {key : κ}
    (h : (TreapMap.get (sharedKeyConfig κ V) m key).isSome) :
    ∃ n l r, (descend sharedKeyNextNodeDir ((), key) m.root).2.1 = node n l r := by
  simp only [TreapMap.get, sharedKeyConfig, counter, Option.bind_eq_bind, Option.bind_some,
    get_eq_descend] at h
  split at h
  · cases h
  · exact ⟨_, _, _, by assumption⟩

/-- The re-key path of `TreapMap::update` under `Counter`: on a key the map holds, a closure
    that asks for a new place (`update_key` without `delete_item`) makes `update` return, and
    leaves the count one above the number of nodes even when it was exact before. -/
theorem update_rekey_miscounts {E T : Type} (m : TreapMap κ Unit V W Nat ρ) (key : κ)
    (update : UpdateFn κ Unit V W E T) (insert : InsertFn κ Unit V W E T ρ)
    (hlen : TreapMap.len (sharedKeyConfig κ V) m = m.root.numNodes)
    (hkey : (TreapMap.get (sharedKeyConfig κ V) m key).isSome)
    (hmove : ∀ n, ∃ f o, update n = some (f, .ok o) ∧ o.updateKey = true ∧
      o.deleteItem = false) :
    ∃ m' r, TreapMap.update (sharedKeyConfig κ V) nextU64 m key update insert = some (m', .ok r) ∧
      TreapMap.len (sharedKeyConfig κ V) m' = m'.root.numNodes + 1 := by
  obtain ⟨n, l, r, hslot⟩ := slot_of_get_isSome hkey
  obtain ⟨f, o, ho, hok, hod⟩ := hmove n
  -- `ApplyOp` returns at the node, so `update_inner` returns
  have hsome : (updateSlot (applyOp (sharedKeyConfig κ V) ((), key) update insert) (node n l r)
      (m.extMap, m.rng)).isSome := updateSlot_applyOp_node_isSome _ l r _ (by simp [ho])
  obtain ⟨⟨t₁, ⟨e₁, g₁⟩, res, uw, up⟩, hu⟩ := Option.isSome_iff_exists.mp
    (updateInner_isSome (by rw [applyOp_treapKey]; exact hslot ▸ hsome))
  obtain ⟨s, up', hs, hn⟩ := numNodes_updateInner hu
  rw [applyOp_treapKey, hslot] at hs hn
  obtain ⟨-, f', out, hf', hcase⟩ := updateSlot_applyOp_node _ hs
  rw [ho, Option.some.injEq, Prod.mk.injEq] at hf'
  obtain ⟨rfl, rfl⟩ := hf'
  rcases hcase with ⟨err, herr, -⟩ | ⟨o', ho', hdi, -⟩ | ⟨o', d, ho', -, -, hes, -, hres, he⟩ |
    ⟨o', ho', -, hku, -⟩
  · cases herr
  · rw [Except.ok.injEq] at ho'
    rw [← ho', hod] at hdi
    cases hdi
  · -- the node came out to be inserted again
    rw [Except.ok.injEq] at ho'
    subst ho'
    have hins : (TreapMap.insert (sharedKeyConfig κ V) nextU64 ⟨t₁, e₁, g₁⟩ d.key d.value
        d.weight).isSome := insert_isSome _ _ _ _
    obtain ⟨⟨m', ret'⟩, hm'⟩ := Option.isSome_iff_exists.mp hins
    refine ⟨m', o.out, ?_, ?_⟩
    · rw [hres] at hu
      exact update_of_reinsert rfl hu hm'
    · -- `ApplyOp` kept the count but took a node out; the re-insertion keeps the offset
      have hoff := insert_counter_offset hm'
      have hsn := congrArg List.length hes
      simp only [length_entries, List.length_append] at hsn
      simp only [numNodes] at hn
      simp only [TreapMap.len, sharedKeyConfig, counter] at hlen ⊢
      simp only [he, sharedKeyConfig, counter, Option.isSome_some, if_true,
        Nat.add_sub_cancel] at hoff
      omega
  · rw [Except.ok.injEq] at ho'
    rw [← ho', hok] at hku
    cases hku

end Counter

/-- A generator that counts up. -/
def countingRng (g : Nat) : Nat × Nat := (g, g + 1)

/-- The map of `Counter` holding the one key `0`, made by `insert` on a new map. -/
def oneKeyMap : TreapMap Nat Unit Nat Nat Nat Nat :=
  ((TreapMap.insert (sharedKeyConfig Nat Nat) countingRng (TreapMap.new (sharedKeyConfig Nat Nat) 0)
    0 0 0).map Prod.fst).getD (TreapMap.new (sharedKeyConfig Nat Nat) 0)

/-- The update closure of `test_apply_op_change_key_for_shared_key` at `i = 0`: the node moves
    to key `1000`. -/
def moveTo1000 : UpdateFn Nat Unit Nat Nat Unit Unit := fun n =>
  some ({ n.toNodeFields with key := 1000, value := 1000, weight := 1000 },
    .ok { out := (), updateWeight := true, updateKey := true, deleteItem := false })

/-- An insert closure that fails. -/
def failingInsert : InsertFn Nat Unit Nat Nat Unit Unit Nat := fun g => some (.error (), g)

theorem update_rekey_miscounts_at_oneKeyMap :
    ∃ m' r, TreapMap.update (sharedKeyConfig Nat Nat) countingRng oneKeyMap 0 moveTo1000
        failingInsert = some (m', .ok r) ∧
      TreapMap.len (sharedKeyConfig Nat Nat) m' = m'.root.numNodes + 1 :=
  update_rekey_miscounts oneKeyMap 0 moveTo1000 failingInsert (by decide) (by decide)
    fun _ => ⟨_, _, rfl, rfl, rfl⟩

end Mazze.Treap
