/-
  The treap as the ordered map it stands for.

  `next_node_dir` read as a comparator is `dirCmp`; the claims about a map assume it is a strict
  total order (`Std.TransCmp` and `Std.LawfulEqCmp` of `dirCmp`). The map a treap stands for is
  the list of its nodes' public fields in traversal order (`entries`), and the treap is a search
  tree when that list is sorted by `(sort_key, key)` (`Sorted`). On a search tree the walk of a
  key (`descend`) has the smaller keys before its slot and the larger ones after it, and the slot
  holds the node of that key if there is one.

  Each updater changes that list as an ordered map operation does: `InsertOp` as an ordered
  insertion that overwrites value and weight (`insertWith`), `RemoveOp` as a filter, and
  `ApplyOp` with a closure that keeps its node in place as a replacement of the entry.
-/
import Mazze.TreapMap.Shape
import Mazze.TreapMap.Map

namespace Mazze.Treap

open BinaryTree

variable {κ σ V W : Type}

/-- `next_node_dir` as a comparator: `Left` is smaller. -/
def dirCmp (nextNodeDir : σ × κ → σ × κ → Option Direction) (a b : σ × κ) : Ordering :=
  match nextNodeDir a b with
  | none => .eq
  | some .left => .lt
  | some .right => .gt

theorem dirCmp_of_none {d : σ × κ → σ × κ → Option Direction} {a b : σ × κ}
    (h : d a b = none) : dirCmp d a b = .eq := by
  simp [dirCmp, h]

theorem dirCmp_of_left {d : σ × κ → σ × κ → Option Direction} {a b : σ × κ}
    (h : d a b = some .left) : dirCmp d a b = .lt := by
  simp [dirCmp, h]

theorem dirCmp_of_right {d : σ × κ → σ × κ → Option Direction} {a b : σ × κ}
    (h : d a b = some .right) : dirCmp d a b = .gt := by
  simp [dirCmp, h]

/-- The pair a node's public fields are ordered by. -/
def NodeFields.treapKey (f : NodeFields κ σ V W) : σ × κ := (f.sortKey, f.key)

@[simp] theorem Node.treapKey_toNodeFields (n : Node κ σ V W) :
    n.toNodeFields.treapKey = n.treapKey := rfl

/-- The map a treap stands for: its entries in traversal order. -/
def entries (t : MaybeNode κ σ V W) : List (NodeFields κ σ V W) :=
  t.toList.map Node.toNodeFields

@[simp] theorem entries_nil : entries (nil : MaybeNode κ σ V W) = [] := rfl

@[simp] theorem entries_node (n : Node κ σ V W) (l r : MaybeNode κ σ V W) :
    entries (node n l r) = entries l ++ n.toNodeFields :: entries r := by
  simp [entries]

theorem mem_entries_of_mem {z : Node κ σ V W} {t : MaybeNode κ σ V W} (hz : z ∈ t.toList) :
    z.toNodeFields ∈ entries t :=
  List.mem_map_of_mem hz

section Order

variable (nextNodeDir : σ × κ → σ × κ → Option Direction)

/-- The search-tree property: the entries are sorted by `(sort_key, key)`. -/
def Sorted (t : MaybeNode κ σ V W) : Prop :=
  KeyList.Sorted (dirCmp nextNodeDir) NodeFields.treapKey (entries t)

variable {nextNodeDir}

theorem cmp_ne_eq_of_lt {a b : σ × κ} (h : dirCmp nextNodeDir a b = .lt) :
    dirCmp nextNodeDir a b ≠ .eq := by
  rw [h]
  exact nofun

theorem cmp_ne_eq_of_gt {a b : σ × κ} (h : dirCmp nextNodeDir a b = .gt) :
    dirCmp nextNodeDir a b ≠ .eq := by
  rw [h]
  exact nofun

variable [Std.TransCmp (dirCmp nextNodeDir)]

theorem cmp_swap_lt {a b : σ × κ} (h : dirCmp nextNodeDir a b = .lt) :
    dirCmp nextNodeDir b a = .gt :=
  Std.OrientedCmp.gt_iff_lt.mpr h

theorem cmp_swap_gt {a b : σ × κ} (h : dirCmp nextNodeDir a b = .gt) :
    dirCmp nextNodeDir b a = .lt :=
  Std.OrientedCmp.gt_iff_lt.mp h

variable [Std.LawfulEqCmp (dirCmp nextNodeDir)]

/-- The walk of a key through a search tree: the nodes before its slot are smaller, the nodes
    after it larger, and a node at the slot has that very key. -/
theorem descend_sorted {k : σ × κ} {t : MaybeNode κ σ V W} (hs : Sorted nextNodeDir t) :
    (∀ z ∈ (descend nextNodeDir k t).1, dirCmp nextNodeDir k z.treapKey = .gt) ∧
    (∀ z ∈ (descend nextNodeDir k t).2.2, dirCmp nextNodeDir k z.treapKey = .lt) ∧
    (∀ n l r, (descend nextNodeDir k t).2.1 = node n l r → n.treapKey = k) ∧
    Sorted nextNodeDir (descend nextNodeDir k t).2.1 := by
  induction t with
  | nil =>
    exact ⟨by simp [descend], by simp [descend], by simp [descend],
      by simp [descend, Sorted, KeyList.Sorted]⟩
  | node n l r ihl ihr =>
    obtain ⟨hl, hr, hln, hnr, -⟩ := KeyList.sorted_append_cons.mp (by simpa [Sorted] using hs)
    cases hd : nextNodeDir k n.treapKey with
    | none =>
      refine ⟨by simp [descend, hd], by simp [descend, hd], ?_, by simpa [descend, hd] using hs⟩
      intro n' l' r' h
      simp only [descend, hd, node.injEq] at h
      obtain ⟨rfl, rfl, rfl⟩ := h
      exact (Std.LawfulEqCmp.compare_eq_iff_eq.mp (dirCmp_of_none hd)).symm
    | some dir =>
      cases dir with
      | left =>
        -- `k` is below `n`, hence below everything right of `n`
        have hkn := dirCmp_of_left hd
        obtain ⟨hb, ha, hslot, hsorted⟩ := ihl hl
        refine ⟨by simpa [descend, hd] using hb, ?_, by simpa [descend, hd] using hslot,
          by simpa [descend, hd] using hsorted⟩
        simp only [descend, hd, List.mem_append, List.mem_cons]
        rintro z (hz | rfl | hz)
        · exact ha z hz
        · exact hkn
        · exact Std.TransCmp.lt_trans hkn (hnr z.toNodeFields (mem_entries_of_mem hz))
      | right =>
        have hkn := dirCmp_of_right hd
        obtain ⟨hb, ha, hslot, hsorted⟩ := ihr hr
        refine ⟨?_, by simpa [descend, hd] using ha, by simpa [descend, hd] using hslot,
          by simpa [descend, hd] using hsorted⟩
        simp only [descend, hd, List.mem_append, List.mem_cons]
        rintro z (hz | rfl | hz)
        · exact cmp_swap_lt (Std.TransCmp.lt_trans (hln z.toNodeFields (mem_entries_of_mem hz))
            (cmp_swap_gt hkn))
        · exact hkn
        · exact hb z hz

end Order

/-! ## What each updater does at its slot -/

/-- The entry `InsertOp` leaves where a node of the same key was: the new value and weight. -/
def insertMerge (old new : NodeFields κ σ V W) : NodeFields κ σ V W :=
  { old with value := new.value, weight := new.weight }

section Updaters

variable {ε : Type} [ConsoliableWeight W] (C : TreapMapConfig κ σ V ε)

omit [ConsoliableWeight W] in
@[simp] theorem insertOp_treapKey [DecidableEq W] (x : Node κ σ V W) :
    (insertOp C x).treapKey = x.treapKey := rfl

omit [ConsoliableWeight W] in
@[simp] theorem removeOp_treapKey (k : σ × κ) :
    (removeOp (W := W) C k).treapKey = k := rfl

omit [ConsoliableWeight W] in
@[simp] theorem applyOp_treapKey {E T ρ : Type} (k : σ × κ) (update : UpdateFn κ σ V W E T)
    (insert : InsertFn κ σ V W E T ρ) :
    (applyOp C k update insert).treapKey = k := rfl

omit [ConsoliableWeight W] in
theorem entries_reweigh_eq (t : MaybeNode κ σ V W) [ConsoliableWeight W] :
    entries (reweigh t) = entries t :=
  map_toList_reweigh sumBlind_toNodeFields t

/-- `InsertOp` at its slot: a new leaf at a vacant slot, or the merged entry over the node of
    the key, whose value it returns. -/
theorem updateSlot_insertOp [DecidableEq W] {x : Node κ σ V W} {s s' : MaybeNode κ σ V W}
    {e e' : ε} {ret : Option V} {uw up : Bool}
    (h : updateSlot (insertOp C x) s e = some (s', e', ret, uw, up)) :
    (s = nil ∧ entries s' = [x.toNodeFields] ∧ ret = none ∧
      e' = C.extMap.viewUpdate e x.key (some x.value) none) ∨
    (∃ n l r, s = node n l r ∧
      entries s' = entries l ++ insertMerge n.toNodeFields x.toNodeFields :: entries r ∧
      ret = some n.value ∧ e' = C.extMap.viewUpdate e x.key (some x.value) (some n.value)) := by
  obtain ⟨t₀, res, t₁, h₀, h₁, rfl⟩ := updateSlot_eq_some h
  cases s with
  | nil =>
    obtain ⟨hv, rfl⟩ := updateNodeAt_nil h₀
    simp only [insertOp, Option.some.injEq, Prod.mk.injEq] at hv
    obtain ⟨rfl, rfl⟩ := hv
    simp only [processUpdateResult, Option.some.injEq, Prod.mk.injEq] at h₁
    obtain ⟨rfl, rfl, rfl, rfl⟩ := h₁
    exact .inl ⟨rfl, by simp [reweigh, withWeight, entries], rfl, rfl⟩
  | node n l r =>
    obtain ⟨n', hn, rfl⟩ := updateNodeAt_node h₀
    simp only [insertOp, Option.some.injEq, Prod.mk.injEq] at hn
    obtain ⟨rfl, rfl, rfl⟩ := hn
    simp only [processUpdateResult, Option.some.injEq, Prod.mk.injEq] at h₁
    obtain ⟨rfl, rfl, rfl, rfl⟩ := h₁
    refine .inr ⟨n, l, r, rfl, ?_, rfl, rfl⟩
    split <;> simp [entries_reweigh_eq, insertMerge]

/-- `RemoveOp` at its slot: nothing at a vacant slot, the node deleted otherwise. -/
theorem updateSlot_removeOp {k : σ × κ} {s s' : MaybeNode κ σ V W} {e e' : ε} {ret : Option V}
    {uw up : Bool} (h : updateSlot (removeOp C k) s e = some (s', e', ret, uw, up)) :
    (s = nil ∧ s' = nil ∧ ret = none ∧ e' = C.extMap.viewUpdate e k.2 none none) ∨
    (∃ n l r, s = node n l r ∧ entries s' = entries l ++ entries r ∧ ret = some n.value ∧
      e' = C.extMap.viewUpdate e k.2 none (some n.value)) := by
  obtain ⟨t₀, res, t₁, h₀, h₁, rfl⟩ := updateSlot_eq_some h
  cases s with
  | nil =>
    obtain ⟨hv, rfl⟩ := updateNodeAt_nil h₀
    simp only [removeOp, Option.some.injEq, Prod.mk.injEq] at hv
    obtain ⟨rfl, rfl⟩ := hv
    simp only [processUpdateResult, deleteSlot_nil, removeOp, Option.map_some,
      Option.map_none, Option.some.injEq, Prod.mk.injEq] at h₁
    obtain ⟨rfl, rfl, rfl, rfl⟩ := h₁
    exact .inl ⟨rfl, rfl, rfl, rfl⟩
  | node n l r =>
    obtain ⟨n', hn, rfl⟩ := updateNodeAt_node h₀
    simp only [removeOp, Option.some.injEq, Prod.mk.injEq] at hn
    obtain ⟨rfl, rfl, rfl⟩ := hn
    simp only [processUpdateResult, deleteSlot_node, removeOp, Option.map_some,
      Option.some.injEq, Prod.mk.injEq] at h₁
    obtain ⟨rfl, rfl, rfl, rfl⟩ := h₁
    refine .inr ⟨n, l, r, rfl, ?_, ?_, rfl⟩
    · simp only [if_true, entries_reweigh_eq]
      exact (map_toList_delete sumBlind_toNodeFields n l r).1.trans (by simp [entries])
    · have := (map_toList_delete (f := fun n : Node κ σ V W => n.value) (fun _ _ => rfl) n l r).2
      simpa using this

section Apply

variable {E T ρ : Type} {k : σ × κ} {update : UpdateFn κ σ V W E T}
  {insert : InsertFn κ σ V W E T ρ}

/-- `ApplyOp` at a vacant slot: the insert closure fails and nothing changes but the generator,
    or its node becomes the new leaf. -/
theorem updateSlot_applyOp_nil {s' : MaybeNode κ σ V W} {e e' : ε} {g g' : ρ}
    {res : Except E (T × Option (Node κ σ V W))} {uw up : Bool}
    (h : updateSlot (applyOp C k update insert) nil (e, g) = some (s', (e', g'), res, uw, up)) :
    (∃ err, insert g = some (.error err, g') ∧ s' = nil ∧ res = .error err ∧ e' = e) ∨
    (∃ f p ret, insert g = some (.ok ((f, p), ret), g') ∧ C.nextNodeDir k f.treapKey = none ∧
      entries s' = [f] ∧ res = .ok (ret, none) ∧
      e' = C.extMap.viewUpdate e k.2 (some f.value) none) := by
  obtain ⟨t₀, res₀, t₁, h₀, h₁, rfl⟩ := updateSlot_eq_some h
  obtain ⟨hv, rfl⟩ := updateNodeAt_nil h₀
  simp only [applyOp] at hv
  rcases hi : insert g with _ | ⟨_ | ⟨⟨f, p⟩, ret⟩, g₁⟩ <;> rw [hi] at hv
  · simp at hv
  · simp only [Option.bind_eq_bind, Option.bind_some, Option.some.injEq, Prod.mk.injEq] at hv
    obtain ⟨⟨rfl, rfl⟩, rfl⟩ := hv
    simp only [processUpdateResult, Option.some.injEq, Prod.mk.injEq] at h₁
    obtain ⟨rfl, rfl, rfl, rfl⟩ := h₁
    exact .inl ⟨_, rfl, rfl, rfl, rfl⟩
  · simp only [Option.bind_eq_bind, Option.bind_some] at hv
    split at hv
    · rename_i hdir
      simp only [Option.some.injEq, Prod.mk.injEq] at hv
      obtain ⟨⟨rfl, rfl⟩, rfl⟩ := hv
      simp only [processUpdateResult, Option.some.injEq, Prod.mk.injEq] at h₁
      obtain ⟨rfl, rfl, rfl, rfl⟩ := h₁
      refine .inr ⟨f, p, ret, rfl, ?_, by simp [reweigh, withWeight, entries, Node.new], rfl,
        by simp [Node.new]⟩
      simpa [Node.new, Node.treapKey, NodeFields.treapKey] using hdir
    · cases hv

/-- `ApplyOp` at the node of its key. The closure has written the node's public fields `f`,
    and then: it failed and the written node stays; it asked for deletion; it asked to move, and
    the node comes out to be inserted again; or the written node stays. -/
theorem updateSlot_applyOp_node {n : Node κ σ V W} {l r s' : MaybeNode κ σ V W} {e e' : ε}
    {g g' : ρ} {res : Except E (T × Option (Node κ σ V W))} {uw up : Bool}
    (h : updateSlot (applyOp C k update insert) (node n l r) (e, g) =
      some (s', (e', g'), res, uw, up)) :
    g' = g ∧ ∃ f out, update n = some (f, out) ∧
    ((∃ err, out = .error err ∧ entries s' = entries l ++ f :: entries r ∧
        res = .error err ∧ e' = e) ∨
      (∃ o, out = .ok o ∧ o.deleteItem = true ∧ entries s' = entries l ++ entries r ∧
        res = .ok (o.out, none) ∧ e' = C.extMap.viewUpdate e k.2 none (some n.value)) ∨
      (∃ o d, out = .ok o ∧ o.deleteItem = false ∧ o.updateKey = true ∧
        entries s' = entries l ++ entries r ∧ d.toNodeFields = f ∧
        res = .ok (o.out, some d) ∧
        e' = C.extMap.viewUpdate e k.2 (some f.value) (some n.value)) ∨
      (∃ o, out = .ok o ∧ o.deleteItem = false ∧ o.updateKey = false ∧
        entries s' = entries l ++ f :: entries r ∧ res = .ok (o.out, none) ∧
        e' = C.extMap.viewUpdate e k.2 (some f.value) (some n.value))) := by
  obtain ⟨t₀, res₀, t₁, h₀, h₁, rfl⟩ := updateSlot_eq_some h
  obtain ⟨n', hn, rfl⟩ := updateNodeAt_node h₀
  simp only [applyOp] at hn
  rcases hu : update n with _ | ⟨f, err | o⟩ <;> rw [hu] at hn
  · simp at hn
  · simp only [Option.bind_eq_bind, Option.bind_some, Option.some.injEq, Prod.mk.injEq] at hn
    obtain ⟨rfl, ⟨rfl, rfl⟩, rfl⟩ := hn
    simp only [processUpdateResult, Option.some.injEq, Prod.mk.injEq] at h₁
    obtain ⟨rfl, rfl, rfl, rfl⟩ := h₁
    exact ⟨rfl, f, _, rfl, .inl ⟨err, rfl, by simp, rfl, rfl⟩⟩
  · simp only [Option.bind_eq_bind, Option.bind_some] at hn
    split at hn
    · -- the closure asked to move or delete: `Node::delete` takes the written node out
      rename_i hkd
      simp only [Option.some.injEq, Prod.mk.injEq] at hn
      obtain ⟨rfl, ⟨rfl, rfl⟩, rfl⟩ := hn
      simp only [processUpdateResult, deleteSlot_node, applyOp, Option.map_eq_some_iff,
        Prod.mk.injEq] at h₁
      obtain ⟨ret, hret, rfl, rfl, rfl, rfl⟩ := h₁
      have hdel := map_toList_delete sumBlind_toNodeFields { n with toNodeFields := f } l r
      have hentries : entries (reweigh (delete { n with toNodeFields := f } l r).1) =
          entries l ++ entries r := by
        rw [entries_reweigh_eq]
        exact hdel.1.trans (by simp [entries])
      refine ⟨rfl, f, _, rfl, ?_⟩
      cases hdi : o.deleteItem with
      | true =>
        simp only [hdi, if_true, Option.some.injEq] at hret
        exact .inr (.inl ⟨o, rfl, hdi, by simpa using hentries, hret.symm, by simp⟩)
      | false =>
        simp only [hdi, Bool.or_false] at hkd
        simp only [hdi, Bool.false_eq_true, if_false, Option.map_some, Option.some.injEq] at hret
        exact .inr (.inr (.inl ⟨o, _, rfl, hdi, hkd, by simpa using hentries, hdel.2, hret.symm,
          by simp⟩))
    · rename_i hkd
      simp only [Bool.or_eq_true, not_or, Bool.not_eq_true] at hkd
      simp only [hkd.2, Option.some.injEq, Prod.mk.injEq] at hn
      obtain ⟨rfl, ⟨rfl, rfl⟩, rfl⟩ := hn
      simp only [processUpdateResult, Option.some.injEq, Prod.mk.injEq] at h₁
      obtain ⟨rfl, rfl, rfl, rfl⟩ := h₁
      refine ⟨rfl, f, _, rfl, .inr (.inr (.inr ⟨o, rfl, hkd.2, hkd.1, ?_, rfl, by simp⟩))⟩
      split <;> simp [entries_reweigh_eq]

/-- At the node of its key `ApplyOp` returns whenever its closure does. -/
theorem updateSlot_applyOp_node_isSome {n : Node κ σ V W} (l r : MaybeNode κ σ V W) (e : ε × ρ)
    (hu : (update n).isSome) :
    (updateSlot (applyOp C k update insert) (node n l r) e).isSome := by
  obtain ⟨⟨f, out⟩, hf⟩ := Option.isSome_iff_exists.mp hu
  rcases out with err | o
  · simp [updateSlot, updateNodeAt, applyOp, hf, processUpdateResult]
  · -- a node taken out always comes back from `Node::delete`
    cases hk : o.updateKey <;> cases hdi : o.deleteItem <;>
      simp [updateSlot, updateNodeAt, applyOp, hf, hk, hdi, processUpdateResult]

end Apply

end Updaters

/-! ## The ordered map a treap stands for -/

/-- The entry of a key, as `BTreeMap::get` finds it in the sorted entries. -/
def lookup (d : σ × κ → σ × κ → Option Direction) (k : σ × κ) (xs : List (NodeFields κ σ V W)) :
    Option (NodeFields κ σ V W) :=
  xs.find? fun f => dirCmp d k f.treapKey == .eq

/-- The entries without the one of a key, as `BTreeMap::remove` leaves them. -/
def eraseKey (d : σ × κ → σ × κ → Option Direction) (k : σ × κ)
    (xs : List (NodeFields κ σ V W)) : List (NodeFields κ σ V W) :=
  xs.filter fun f => dirCmp d k f.treapKey != .eq

theorem eraseKey_of_forall_ne {d : σ × κ → σ × κ → Option Direction} {k : σ × κ}
    {xs : List (NodeFields κ σ V W)} (h : ∀ z ∈ xs, dirCmp d k z.treapKey ≠ .eq) :
    eraseKey d k xs = xs :=
  List.filter_eq_self.mpr fun z hz => by simpa using h z hz

/-- The entries with the one of key `k` replaced by `f`. -/
def replaceKey (d : σ × κ → σ × κ → Option Direction) (k : σ × κ) (f : NodeFields κ σ V W)
    (xs : List (NodeFields κ σ V W)) : List (NodeFields κ σ V W) :=
  xs.map fun z => if dirCmp d k z.treapKey = .eq then f else z

theorem replaceKey_append (d : σ × κ → σ × κ → Option Direction) (k : σ × κ)
    (f : NodeFields κ σ V W) (xs ys : List (NodeFields κ σ V W)) :
    replaceKey d k f (xs ++ ys) = replaceKey d k f xs ++ replaceKey d k f ys :=
  List.map_append

theorem replaceKey_cons_of_eq {d : σ × κ → σ × κ → Option Direction} {k : σ × κ}
    {x : NodeFields κ σ V W} (h : dirCmp d k x.treapKey = .eq) (f : NodeFields κ σ V W)
    (xs : List (NodeFields κ σ V W)) :
    replaceKey d k f (x :: xs) = f :: replaceKey d k f xs := by
  simp [replaceKey, h]

theorem replaceKey_of_forall_ne {d : σ × κ → σ × κ → Option Direction} {k : σ × κ}
    (f : NodeFields κ σ V W) {xs : List (NodeFields κ σ V W)}
    (h : ∀ z ∈ xs, dirCmp d k z.treapKey ≠ .eq) : replaceKey d k f xs = xs :=
  (List.map_congr_left fun z hz => if_neg (h z hz)).trans (List.map_id xs)

theorem eraseKey_append (d : σ × κ → σ × κ → Option Direction) (k : σ × κ)
    (xs ys : List (NodeFields κ σ V W)) :
    eraseKey d k (xs ++ ys) = eraseKey d k xs ++ eraseKey d k ys :=
  List.filter_append ..

theorem eraseKey_cons_of_eq {d : σ × κ → σ × κ → Option Direction} {k : σ × κ}
    {x : NodeFields κ σ V W} (h : dirCmp d k x.treapKey = .eq) (xs : List (NodeFields κ σ V W)) :
    eraseKey d k (x :: xs) = eraseKey d k xs := by
  simp [eraseKey, h]

theorem lookup_append (d : σ × κ → σ × κ → Option Direction) (k : σ × κ)
    (xs ys : List (NodeFields κ σ V W)) :
    lookup d k (xs ++ ys) = (lookup d k xs).or (lookup d k ys) :=
  List.find?_append

theorem lookup_cons_of_eq {d : σ × κ → σ × κ → Option Direction} {k : σ × κ}
    {x : NodeFields κ σ V W} (h : dirCmp d k x.treapKey = .eq) (xs : List (NodeFields κ σ V W)) :
    lookup d k (x :: xs) = some x := by
  simp [lookup, h]

theorem lookup_of_forall_ne {d : σ × κ → σ × κ → Option Direction} {k : σ × κ}
    {xs : List (NodeFields κ σ V W)} (h : ∀ z ∈ xs, dirCmp d k z.treapKey ≠ .eq) :
    lookup d k xs = none :=
  List.find?_eq_none.mpr fun z hz => by simpa using h z hz

section Keys

variable {d : σ × κ → σ × κ → Option Direction} [Std.LawfulEqCmp (dirCmp d)]

/-- The model's `get` finds an entry of the key it is asked for. -/
theorem lookup_treapKey {k : σ × κ} {xs : List (NodeFields κ σ V W)} {f : NodeFields κ σ V W}
    (h : lookup d k xs = some f) : f.treapKey = k := by
  have := List.find?_some h
  simp only [beq_iff_eq] at this
  exact (Std.LawfulEqCmp.compare_eq_iff_eq.mp this).symm

/-- Replacing the entry of `k` by one of key `k` leaves the keys as they were. -/
theorem map_treapKey_replaceKey {k : σ × κ} {f : NodeFields κ σ V W} (hf : f.treapKey = k)
    (xs : List (NodeFields κ σ V W)) :
    (replaceKey d k f xs).map NodeFields.treapKey = xs.map NodeFields.treapKey := by
  simp only [replaceKey, List.map_map]
  refine List.map_congr_left fun z _ => ?_
  by_cases hz : dirCmp d k z.treapKey = .eq
  · simp [hf, Std.LawfulEqCmp.compare_eq_iff_eq.mp hz]
  · simp [hz]

theorem Sorted.replaceKey {k : σ × κ} {f : NodeFields κ σ V W} (hf : f.treapKey = k)
    {xs : List (NodeFields κ σ V W)} (h : KeyList.Sorted (dirCmp d) NodeFields.treapKey xs) :
    KeyList.Sorted (dirCmp d) NodeFields.treapKey (Mazze.Treap.replaceKey d k f xs) :=
  (KeyList.sorted_congr_keys (map_treapKey_replaceKey hf xs)).mpr h

/-- Putting back the entry the model finds for a key changes nothing. -/
theorem replaceKey_of_lookup {k : σ × κ} {f : NodeFields κ σ V W}
    {xs : List (NodeFields κ σ V W)} (hs : KeyList.Sorted (dirCmp d) NodeFields.treapKey xs)
    (h : lookup d k xs = some f) : Mazze.Treap.replaceKey d k f xs = xs := by
  induction xs with
  | nil => simp [lookup] at h
  | cons y ys ih =>
    have ⟨hy, hys⟩ := List.pairwise_cons.mp hs
    by_cases hk : dirCmp d k y.treapKey = .eq
    · -- `y` is the entry found; everything after it has a larger key
      rw [lookup_cons_of_eq hk, Option.some.injEq] at h
      subst h
      rw [replaceKey_cons_of_eq hk, replaceKey_of_forall_ne]
      intro z hz
      rw [Std.LawfulEqCmp.compare_eq_iff_eq.mp hk]
      exact cmp_ne_eq_of_lt (hy z hz)
    · have hlook : lookup d k (y :: ys) = lookup d k ys := by simp [lookup, hk]
      rw [hlook] at h
      simp only [Mazze.Treap.replaceKey, List.map_cons, hk, if_false] at ih ⊢
      rw [ih hys h]

/-- In a sorted map the model finds every entry by its own key. -/
theorem lookup_of_mem {x : NodeFields κ σ V W} {xs : List (NodeFields κ σ V W)}
    (hs : KeyList.Sorted (dirCmp d) NodeFields.treapKey xs) (hx : x ∈ xs) :
    lookup d x.treapKey xs = some x := by
  induction xs with
  | nil => cases hx
  | cons y ys ih =>
    have ⟨hy, hys⟩ := List.pairwise_cons.mp hs
    rcases List.mem_cons.mp hx with rfl | hx
    · exact lookup_cons_of_eq Std.ReflCmp.compare_self ys
    · -- `x` lies above `y`, so the search passes `y`
      have hne : dirCmp d x.treapKey y.treapKey ≠ .eq := by
        intro h
        have hyx := hy x hx
        have hself : dirCmp d y.treapKey y.treapKey = .eq := Std.ReflCmp.compare_self
        rw [Std.LawfulEqCmp.compare_eq_iff_eq.mp h, hself] at hyx
        cases hyx
      have hlook : lookup d x.treapKey (y :: ys) = lookup d x.treapKey ys := by
        simp [lookup, hne]
      rw [hlook]
      exact ih hys hx

/-- Ordered insertion leaves the new entry in the map: a merge keeps the old entry's key, which
    is the new one's. -/
theorem mem_insertWith_insertMerge (x : NodeFields κ σ V W) (xs : List (NodeFields κ σ V W)) :
    x ∈ KeyList.insertWith (dirCmp d) NodeFields.treapKey insertMerge x xs := by
  induction xs with
  | nil => simp
  | cons y ys ih =>
    simp only [KeyList.insertWith]
    split
    · exact List.mem_cons_self
    · next hxy =>
      have hk : x.treapKey = y.treapKey := Std.LawfulEqCmp.compare_eq_iff_eq.mp hxy
      have hmerge : insertMerge y x = x := by
        simp only [NodeFields.treapKey, Prod.mk.injEq] at hk
        simp only [insertMerge, ← hk.1, ← hk.2]
      rw [hmerge]
      exact List.mem_cons_self
    · exact List.mem_cons_of_mem _ ih

omit [Std.LawfulEqCmp (dirCmp d)] in
theorem Sorted.eraseKey (k : σ × κ) {xs : List (NodeFields κ σ V W)}
    (h : KeyList.Sorted (dirCmp d) NodeFields.treapKey xs) :
    KeyList.Sorted (dirCmp d) NodeFields.treapKey (Mazze.Treap.eraseKey d k xs) :=
  h.sublist List.filter_sublist

end Keys

/-! ## The updaters as ordered map operations -/

theorem entries_descend (d : σ × κ → σ × κ → Option Direction) (k : σ × κ)
    (t : MaybeNode κ σ V W) :
    entries t = (descend d k t).1.map Node.toNodeFields ++ entries (descend d k t).2.1 ++
      (descend d k t).2.2.map Node.toNodeFields := by
  rw [entries, toList_descend d k t]
  simp [entries]

theorem entries_updateInner [ConsoliableWeight W] {ε R DR : Type}
    {d : σ × κ → σ × κ → Option Direction} {u : TreapNodeUpdate κ σ V W ε R DR}
    {t t' : MaybeNode κ σ V W} {e e' : ε} {ret : R} {uw up : Bool}
    (h : updateInner d u t e = some (t', e', ret, uw, up)) :
    ∃ s up', updateSlot u (descend d u.treapKey t).2.1 e = some (s, e', ret, uw, up') ∧
      entries t' = (descend d u.treapKey t).1.map Node.toNodeFields ++ entries s ++
        (descend d u.treapKey t).2.2.map Node.toNodeFields := by
  obtain ⟨s, up', hs, ht⟩ := updateInner_toList sumBlind_toNodeFields h
  refine ⟨s, up', hs, ?_⟩
  rw [entries, ht]
  simp [entries]

theorem length_entries (t : MaybeNode κ σ V W) : (entries t).length = t.numNodes := by
  simp [entries]

/-- The number of nodes after an updater ran: the walk's two sides are kept and its slot is
    replaced by what the updater left there. -/
theorem numNodes_updateInner [ConsoliableWeight W] {ε R DR : Type}
    {d : σ × κ → σ × κ → Option Direction} {u : TreapNodeUpdate κ σ V W ε R DR}
    {t t' : MaybeNode κ σ V W} {e e' : ε} {ret : R} {uw up : Bool}
    (h : updateInner d u t e = some (t', e', ret, uw, up)) :
    ∃ s up', updateSlot u (descend d u.treapKey t).2.1 e = some (s, e', ret, uw, up') ∧
      t'.numNodes + (descend d u.treapKey t).2.1.numNodes = t.numNodes + s.numNodes := by
  obtain ⟨s, up', hs, ht'⟩ := entries_updateInner h
  refine ⟨s, up', hs, ?_⟩
  have ht := congrArg List.length (entries_descend d u.treapKey t)
  have ht'' := congrArg List.length ht'
  simp only [length_entries, List.length_append, List.length_map] at ht ht''
  omega

/-- `Node::get` reads the slot of the walk of its key. -/
theorem get_eq_descend (d : σ × κ → σ × κ → Option Direction) (sortKey : σ) (key : κ)
    (t : MaybeNode κ σ V W) :
    get d sortKey key t =
      match (descend d (sortKey, key) t).2.1 with
      | nil => none
      | node n _ _ => some n.value := by
  induction t with
  | nil => rfl
  | node n l r ihl ihr =>
    cases hd : d (sortKey, key) n.treapKey with
    | none => simp [get, descend, hd]
    | some dir => cases dir <;> simp [get, descend, hd, ihl, ihr]

section Sides

variable {d : σ × κ → σ × κ → Option Direction} [Std.TransCmp (dirCmp d)]
  [Std.LawfulEqCmp (dirCmp d)]

/-- In a search tree the walk of `k` has every entry outside its slot on the right side of
    `k`, and at a node slot the node is `k`'s and its children are on either side. -/
theorem descend_sides {k : σ × κ} {t : MaybeNode κ σ V W} (hs : Sorted d t) :
    (∀ z ∈ (descend d k t).1.map Node.toNodeFields, dirCmp d k z.treapKey = .gt) ∧
    (∀ z ∈ (descend d k t).2.2.map Node.toNodeFields, dirCmp d k z.treapKey = .lt) ∧
    ∀ n l r, (descend d k t).2.1 = node n l r → n.treapKey = k ∧
      (∀ z ∈ entries l, dirCmp d k z.treapKey = .gt) ∧
      (∀ z ∈ entries r, dirCmp d k z.treapKey = .lt) := by
  obtain ⟨hB, hA, hslot, hsorted⟩ := descend_sorted (k := k) hs
  refine ⟨by simpa using hB, by simpa using hA, fun n l r hnode => ?_⟩
  have hk := hslot n l r hnode
  rw [hnode] at hsorted
  obtain ⟨-, -, hln, hnr, -⟩ := KeyList.sorted_append_cons.mp (by simpa [Sorted] using hsorted)
  refine ⟨hk, fun z hz => ?_, fun z hz => ?_⟩
  · rw [← hk]
    exact cmp_swap_lt (hln z hz)
  · rw [← hk]
    exact hnr z hz

/-- Every entry off the node of a key differs from the key. -/
theorem ne_of_descend_sides {k : σ × κ} {t : MaybeNode κ σ V W} (hs : Sorted d t) :
    (∀ z ∈ (descend d k t).1.map Node.toNodeFields ++
      (descend d k t).2.2.map Node.toNodeFields, dirCmp d k z.treapKey ≠ .eq) ∧
    ∀ n l r, (descend d k t).2.1 = node n l r →
      ∀ z ∈ entries l ++ entries r, dirCmp d k z.treapKey ≠ .eq := by
  obtain ⟨hB, hA, hN⟩ := descend_sides (k := k) hs
  refine ⟨fun z hz => ?_, fun n l r hnode z hz => ?_⟩
  · rcases List.mem_append.mp hz with hz | hz
    exacts [cmp_ne_eq_of_gt (hB z hz), cmp_ne_eq_of_lt (hA z hz)]
  · obtain ⟨-, hl, hr⟩ := hN n l r hnode
    rcases List.mem_append.mp hz with hz | hz
    exacts [cmp_ne_eq_of_gt (hl z hz), cmp_ne_eq_of_lt (hr z hz)]

/-- On a search tree the model's `remove` drops exactly the node at the slot of the key. -/
theorem eraseKey_entries {k : σ × κ} {t : MaybeNode κ σ V W} (hs : Sorted d t) :
    eraseKey d k (entries t) = (descend d k t).1.map Node.toNodeFields ++
      (match (descend d k t).2.1 with
        | nil => []
        | node _ l r => entries l ++ entries r) ++
      (descend d k t).2.2.map Node.toNodeFields := by
  obtain ⟨hBA, hN⟩ := ne_of_descend_sides (k := k) hs
  have hB := fun z hz => hBA z (List.mem_append_left _ hz)
  have hA := fun z hz => hBA z (List.mem_append_right _ hz)
  rw [entries_descend d k t]
  cases hslot : (descend d k t).2.1 with
  | nil => simp only [entries_nil, List.append_nil, eraseKey_append, eraseKey_of_forall_ne hB,
      eraseKey_of_forall_ne hA]
  | node n l r =>
    -- the slot's node has the key, its children do not
    have hk : dirCmp d k n.toNodeFields.treapKey = .eq := by
      rw [Node.treapKey_toNodeFields, ((descend_sides (k := k) hs).2.2 n l r hslot).1]
      exact Std.ReflCmp.compare_self
    have hl := fun z hz => hN n l r hslot z (List.mem_append_left _ hz)
    have hr := fun z hz => hN n l r hslot z (List.mem_append_right _ hz)
    simp only [entries_node, eraseKey_append, eraseKey_of_forall_ne hB, eraseKey_of_forall_ne hA,
      eraseKey_of_forall_ne hl, eraseKey_cons_of_eq hk, eraseKey_of_forall_ne hr]

/-- On a search tree the model's `get` finds the node at the slot of the key. -/
theorem lookup_entries {k : σ × κ} {t : MaybeNode κ σ V W} (hs : Sorted d t) :
    lookup d k (entries t) =
      match (descend d k t).2.1 with
      | nil => none
      | node n _ _ => some n.toNodeFields := by
  obtain ⟨hBA, hN⟩ := ne_of_descend_sides (k := k) hs
  have hB := fun z hz => hBA z (List.mem_append_left _ hz)
  have hA := fun z hz => hBA z (List.mem_append_right _ hz)
  rw [entries_descend d k t]
  cases hslot : (descend d k t).2.1 with
  | nil => simp only [entries_nil, List.append_nil, lookup_append, lookup_of_forall_ne hB,
      lookup_of_forall_ne hA, Option.or_none]
  | node n l r =>
    have hk : dirCmp d k n.toNodeFields.treapKey = .eq := by
      rw [Node.treapKey_toNodeFields, ((descend_sides (k := k) hs).2.2 n l r hslot).1]
      exact Std.ReflCmp.compare_self
    have hl := fun z hz => hN n l r hslot z (List.mem_append_left _ hz)
    simp only [entries_node, lookup_append, lookup_of_forall_ne hB, lookup_of_forall_ne hl,
      lookup_cons_of_eq hk, Option.none_or, Option.some_or]

/-- `Node::get` on a search tree is the model's `get`. -/
theorem get_eq_lookup (sortKey : σ) (key : κ) {t : MaybeNode κ σ V W} (hs : Sorted d t) :
    get d sortKey key t = (lookup d (sortKey, key) (entries t)).map NodeFields.value := by
  rw [get_eq_descend, lookup_entries hs]
  split <;> simp_all

/-- On a search tree the walk to the key of a node stops at that node. -/
theorem descend_of_mem {n : Node κ σ V W} {t : MaybeNode κ σ V W} (hs : Sorted d t)
    (hn : n ∈ t.toList) :
    ∃ n' l r, (descend d n.treapKey t).2.1 = node n' l r ∧ n'.toNodeFields = n.toNodeFields := by
  have hlook := lookup_of_mem hs (List.mem_map_of_mem hn : n.toNodeFields ∈ entries t)
  rw [Node.treapKey_toNodeFields, lookup_entries hs] at hlook
  cases hslot : (descend d n.treapKey t).2.1 with
  | nil =>
    rw [hslot] at hlook
    cases hlook
  | node n' l r =>
    rw [hslot, Option.some.injEq] at hlook
    exact ⟨n', l, r, rfl, hlook⟩

/-- On a search tree the model's insertion of an entry of key `k` puts it at the slot of `k`:
    between the walk's two sides, or merged with the node there. -/
theorem insertWith_entries {k : σ × κ} {t : MaybeNode κ σ V W}
    (merge : NodeFields κ σ V W → NodeFields κ σ V W → NodeFields κ σ V W)
    {x : NodeFields κ σ V W} (hx : x.treapKey = k) (hs : Sorted d t) :
    KeyList.insertWith (dirCmp d) NodeFields.treapKey merge x (entries t) =
      (descend d k t).1.map Node.toNodeFields ++
      (match (descend d k t).2.1 with
        | nil => [x]
        | node n l r => entries l ++ merge n.toNodeFields x :: entries r) ++
      (descend d k t).2.2.map Node.toNodeFields := by
  obtain ⟨hB, hA, hN⟩ := descend_sides (k := k) hs
  rw [entries_descend d k t]
  subst hx
  cases hslot : (descend d x.treapKey t).2.1 with
  | nil =>
    -- a vacant slot: the key is new, and goes between the walk's two sides
    simp only [entries_nil, List.append_nil]
    rw [KeyList.insertWith_append_of_between merge _ hB hA]
    simp
  | node n l r =>
    -- the node of the key: everything left of it is below the key
    obtain ⟨hk, hl, -⟩ := hN n l r hslot
    have heq : dirCmp d x.treapKey n.toNodeFields.treapKey = .eq := by
      rw [Node.treapKey_toNodeFields, hk]
      exact Std.ReflCmp.compare_self
    have hins : KeyList.insertWith (dirCmp d) NodeFields.treapKey merge x
        (((descend d x.treapKey t).1.map Node.toNodeFields ++ entries l) ++
          n.toNodeFields :: (entries r ++ (descend d x.treapKey t).2.2.map Node.toNodeFields)) =
        ((descend d x.treapKey t).1.map Node.toNodeFields ++ entries l) ++
          merge n.toNodeFields x :: (entries r ++ (descend d x.treapKey t).2.2.map Node.toNodeFields) :=
      KeyList.insertWith_append_of_eq merge _
        (fun z hz => (List.mem_append.mp hz).elim (hB z) (hl z)) heq
    simp only [List.append_assoc] at hins
    simp [entries_node, hins]

/-- On a search tree, replacing the entry of `k` rewrites the node at the slot of `k`. -/
theorem replaceKey_entries {k : σ × κ} {t : MaybeNode κ σ V W} (f : NodeFields κ σ V W)
    {n : Node κ σ V W} {l r : MaybeNode κ σ V W} (hs : Sorted d t)
    (hslot : (descend d k t).2.1 = node n l r) :
    replaceKey d k f (entries t) = (descend d k t).1.map Node.toNodeFields ++
      (entries l ++ f :: entries r) ++ (descend d k t).2.2.map Node.toNodeFields := by
  obtain ⟨hBA, hN⟩ := ne_of_descend_sides (k := k) hs
  have hk : dirCmp d k n.toNodeFields.treapKey = .eq := by
    rw [Node.treapKey_toNodeFields, ((descend_sides (k := k) hs).2.2 n l r hslot).1]
    exact Std.ReflCmp.compare_self
  have hl := fun z hz => hN n l r hslot z (List.mem_append_left _ hz)
  have hr := fun z hz => hN n l r hslot z (List.mem_append_right _ hz)
  rw [entries_descend d k t, hslot, entries_node]
  simp only [replaceKey_append, replaceKey_cons_of_eq hk,
    replaceKey_of_forall_ne f fun z hz => hBA z (List.mem_append_left _ hz),
    replaceKey_of_forall_ne f fun z hz => hBA z (List.mem_append_right _ hz),
    replaceKey_of_forall_ne f hl, replaceKey_of_forall_ne f hr]

end Sides

/-- An update closure that tells the truth about what it did: a failing one has not written
    the node, and one that asks neither to move nor to delete the node has kept its place, and
    its weight unless it asks for the sums to be recomputed. -/
structure HonestUpdate {E T : Type} (update : UpdateFn κ σ V W E T) : Prop where
  error : ∀ n f err, update n = some (f, .error err) → f = n.toNodeFields
  key : ∀ n f o, update n = some (f, .ok o) → o.updateKey = false → o.deleteItem = false →
    f.treapKey = n.treapKey
  weight : ∀ n f o, update n = some (f, .ok o) → o.updateWeight = false →
    o.updateKey = false → o.deleteItem = false → f.weight = n.weight

@[simp] theorem insertMerge_treapKey (old new : NodeFields κ σ V W) :
    (insertMerge old new).treapKey = old.treapKey := rfl

/-! ## Each updater on a search tree -/

section Ops

variable {ε : Type} [ConsoliableWeight W] {C : TreapMapConfig κ σ V ε}
  [Std.TransCmp (dirCmp C.nextNodeDir)] [Std.LawfulEqCmp (dirCmp C.nextNodeDir)]
  {t t' : MaybeNode κ σ V W} {uw up : Bool}

/-- `InsertOp` run from the root of a search tree is the model's insertion of its node's
    fields: a new entry, or the new value and weight over the entry of the key, whose old value
    it returns and reports to the key manager. -/
theorem entries_insertOp [DecidableEq W] {x : Node κ σ V W} {e e' : ε} {ret : Option V}
    (hs : Sorted C.nextNodeDir t)
    (h : updateInner C.nextNodeDir (insertOp C x) t e = some (t', e', ret, uw, up)) :
    entries t' = KeyList.insertWith (dirCmp C.nextNodeDir) NodeFields.treapKey insertMerge
      x.toNodeFields (entries t) ∧
    ret = (lookup C.nextNodeDir x.treapKey (entries t)).map NodeFields.value ∧
    e' = C.extMap.viewUpdate e x.key (some x.value) ret := by
  obtain ⟨s, up', hslot, ht'⟩ := entries_updateInner h
  rw [insertOp_treapKey] at hslot ht'
  rw [insertWith_entries insertMerge (Node.treapKey_toNodeFields x) hs, lookup_entries hs, ht']
  rcases updateSlot_insertOp C hslot with ⟨hnil, hes, rfl, rfl⟩ | ⟨n, l, r, hnode, hes, rfl, rfl⟩
  · simp [hnil, hes]
  · simp [hnode, hes]

/-- `RemoveOp` run from the root of a search tree is the model's removal of the key. -/
theorem entries_removeOp {k : σ × κ} {e e' : ε} {ret : Option V} (hs : Sorted C.nextNodeDir t)
    (h : updateInner C.nextNodeDir (removeOp C k) t e = some (t', e', ret, uw, up)) :
    entries t' = eraseKey C.nextNodeDir k (entries t) ∧
    ret = (lookup C.nextNodeDir k (entries t)).map NodeFields.value ∧
    e' = C.extMap.viewUpdate e k.2 none ret := by
  obtain ⟨s, up', hslot, ht'⟩ := entries_updateInner h
  rw [removeOp_treapKey] at hslot ht'
  rw [eraseKey_entries hs, lookup_entries hs, ht']
  rcases updateSlot_removeOp C hslot with ⟨hnil, rfl, rfl, rfl⟩ | ⟨n, l, r, hnode, hes, rfl, rfl⟩
  · simp [hnil]
  · simp [hnode, hes]

/-- `ApplyOp` run from the root of a search tree, as the model sees it. At a key the map does
    not hold, the insert closure fails and nothing changes, or its entry is inserted. At a key
    it holds, the update closure has rewritten the entry, and then: it failed and the rewritten
    entry stays; it asked for deletion; it asked to move, and the entry is taken out to be
    inserted again; or the rewritten entry stays. -/
theorem entries_applyOp {E T ρ : Type} {k : σ × κ} {update : UpdateFn κ σ V W E T}
    {insert : InsertFn κ σ V W E T ρ} {e e' : ε} {g g' : ρ}
    {res : Except E (T × Option (Node κ σ V W))} (hs : Sorted C.nextNodeDir t)
    (h : updateInner C.nextNodeDir (applyOp C k update insert) t (e, g) =
      some (t', (e', g'), res, uw, up)) :
    (lookup C.nextNodeDir k (entries t) = none ∧
      ((∃ err, insert g = some (.error err, g') ∧ entries t' = entries t ∧ res = .error err ∧
          e' = e) ∨
        (∃ f p ret, insert g = some (.ok ((f, p), ret), g') ∧ f.treapKey = k ∧
          entries t' = KeyList.insertWith (dirCmp C.nextNodeDir) NodeFields.treapKey insertMerge f
            (entries t) ∧
          res = .ok (ret, none) ∧ e' = C.extMap.viewUpdate e k.2 (some f.value) none))) ∨
    (∃ n : Node κ σ V W, lookup C.nextNodeDir k (entries t) = some n.toNodeFields ∧ g' = g ∧
      ∃ f out, update n = some (f, out) ∧
      ((∃ err, out = .error err ∧ entries t' = replaceKey C.nextNodeDir k f (entries t) ∧
          res = .error err ∧ e' = e) ∨
        (∃ o, out = .ok o ∧ o.deleteItem = true ∧
          entries t' = eraseKey C.nextNodeDir k (entries t) ∧ res = .ok (o.out, none) ∧
          e' = C.extMap.viewUpdate e k.2 none (some n.value)) ∨
        (∃ o d, out = .ok o ∧ o.deleteItem = false ∧ o.updateKey = true ∧
          entries t' = eraseKey C.nextNodeDir k (entries t) ∧ d.toNodeFields = f ∧
          res = .ok (o.out, some d) ∧
          e' = C.extMap.viewUpdate e k.2 (some f.value) (some n.value)) ∨
        (∃ o, out = .ok o ∧ o.deleteItem = false ∧ o.updateKey = false ∧
          entries t' = replaceKey C.nextNodeDir k f (entries t) ∧ res = .ok (o.out, none) ∧
          e' = C.extMap.viewUpdate e k.2 (some f.value) (some n.value)))) := by
  obtain ⟨s, up', hslot, ht'⟩ := entries_updateInner h
  rw [applyOp_treapKey] at hslot ht'
  have hlook := lookup_entries (k := k) hs
  cases hsl : (descend C.nextNodeDir k t).2.1 with
  | nil =>
    rw [hsl] at hslot hlook
    refine .inl ⟨hlook, ?_⟩
    rcases updateSlot_applyOp_nil C hslot with ⟨err, hi, rfl, rfl, rfl⟩ |
      ⟨f, p, ret, hi, hdir, hes, rfl, rfl⟩
    · refine .inl ⟨err, hi, ?_, rfl, rfl⟩
      rw [ht', entries_descend C.nextNodeDir k t, hsl]
    · -- the assert made the new entry's key the one walked to
      have hfk : f.treapKey = k :=
        (Std.LawfulEqCmp.compare_eq_iff_eq.mp (dirCmp_of_none hdir)).symm
      refine .inr ⟨f, p, ret, hi, hfk, ?_, rfl, rfl⟩
      rw [insertWith_entries insertMerge hfk hs, ht', hes]
      simp [hsl]
  | node n l r =>
    rw [hsl] at hslot hlook
    obtain ⟨rfl, f, out, hu, hcase⟩ := updateSlot_applyOp_node C hslot
    refine .inr ⟨n, hlook, rfl, f, out, hu, ?_⟩
    rcases hcase with ⟨err, rfl, hes, rfl, rfl⟩ | ⟨o, rfl, hdi, hes, rfl, rfl⟩ |
      ⟨o, d, rfl, hdi, hk, hes, hd, rfl, rfl⟩ | ⟨o, rfl, hdi, hk, hes, rfl, rfl⟩
    · exact .inl ⟨err, rfl, by rw [ht', hes, replaceKey_entries _ hs hsl], rfl, rfl⟩
    · refine .inr (.inl ⟨o, rfl, hdi, ?_, rfl, rfl⟩)
      rw [ht', hes, eraseKey_entries hs]
      simp [hsl]
    · refine .inr (.inr (.inl ⟨o, d, rfl, hdi, hk, ?_, hd, rfl, rfl⟩))
      rw [ht', hes, eraseKey_entries hs]
      simp [hsl]
    · exact .inr (.inr (.inr ⟨o, rfl, hdi, hk, by rw [ht', hes, replaceKey_entries _ hs hsl],
        rfl, rfl⟩))

theorem sorted_insertOp [DecidableEq W] {x : Node κ σ V W} {e e' : ε} {ret : Option V}
    (hs : Sorted C.nextNodeDir t)
    (h : updateInner C.nextNodeDir (insertOp C x) t e = some (t', e', ret, uw, up)) :
    Sorted C.nextNodeDir t' := by
  rw [Sorted, (entries_insertOp hs h).1]
  exact KeyList.Sorted.insertWith (fun y => insertMerge_treapKey y _) hs

theorem sorted_removeOp {k : σ × κ} {e e' : ε} {ret : Option V} (hs : Sorted C.nextNodeDir t)
    (h : updateInner C.nextNodeDir (removeOp C k) t e = some (t', e', ret, uw, up)) :
    Sorted C.nextNodeDir t' := by
  rw [Sorted, (entries_removeOp hs h).1]
  exact Sorted.eraseKey k hs

/-- With an honest closure `ApplyOp` keeps a search tree a search tree. -/
theorem sorted_applyOp {E T ρ : Type} {k : σ × κ} {update : UpdateFn κ σ V W E T}
    {insert : InsertFn κ σ V W E T ρ} {e e' : ε} {g g' : ρ}
    {res : Except E (T × Option (Node κ σ V W))} (hu : HonestUpdate update)
    (hs : Sorted C.nextNodeDir t)
    (h : updateInner C.nextNodeDir (applyOp C k update insert) t (e, g) =
      some (t', (e', g'), res, uw, up)) :
    Sorted C.nextNodeDir t' := by
  unfold Sorted at hs ⊢
  rcases entries_applyOp hs h with ⟨-, ⟨err, -, ht', -⟩ | ⟨f, p, ret, -, -, ht', -⟩⟩ |
    ⟨n, hlook, -, f, out, hf, hcase⟩
  · rwa [ht']
  · rw [ht']
    exact KeyList.Sorted.insertWith (fun y => insertMerge_treapKey y _) hs
  · have hn := lookup_treapKey hlook
    rcases hcase with ⟨err, rfl, ht', -⟩ | ⟨o, -, -, ht', -⟩ | ⟨o, d, -, -, -, ht', -⟩ |
      ⟨o, rfl, hdi, hk, ht', -⟩
    · -- a failing closure has not written the node
      rw [ht', hu.error n f err hf]
      exact Sorted.replaceKey hn hs
    · rw [ht']
      exact Sorted.eraseKey k hs
    · rw [ht']
      exact Sorted.eraseKey k hs
    · -- a node that stays has kept its place
      rw [ht']
      refine Sorted.replaceKey ?_ hs
      rw [hu.key n f o hf hk hdi, ← hn, Node.treapKey_toNodeFields]

end Ops

end Mazze.Treap
