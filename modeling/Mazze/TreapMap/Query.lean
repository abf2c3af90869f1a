/-
  The queries of a treap map (`map.rs`, `search.rs`) and what they answer on the ordered map.

  `Iter` is a stack of node references whose top is the next node in order: `iter` pushes the
  root and its left spine (`extend_path`), and `next` pops a node and pushes its right child
  with that child's left spine. Running it to the end yields the traversal (`drain_pushLeft`),
  so its items are the model's entries in order. `iter_range` of a map whose sort key is `()`
  starts the stack at the first node not below the key (`extend_path_with_key`), and yields
  the entries from the key on (`map_drain_extendPathWithKey`).

  `accumulate_weight_search` walks down from the root carrying the weight of everything left of
  the subtree it is in; `get_by_weight` goes left while the query is below the weight left of
  the node, stops at the node when the query is below that weight with the node's own, and goes
  right otherwise. For a weight that is a commutative monoid ordered by accumulation
  (`MonotoneWeight`), on a treap whose sums are right, it returns the value of the first entry
  whose running sum exceeds the query, as the `BTreeMap` model of the tests does
  (`getByWeight_eq_scan`), and `sum_weight` is the sum of all weights.
-/
import Mazze.TreapMap.Invariant

namespace Mazze.Treap

open BinaryTree

variable {κ σ V W : Type}

/-! ## `Iter` -/

/-- A `&Node` on the iterator's stack: the node with its children. -/
abbrev NodeRef (κ σ V W : Type) := Node κ σ V W × MaybeNode κ σ V W × MaybeNode κ σ V W

/-- `nodes.push(n)` and then `extend_path`: the node and its left spine, the last one pushed on
    top (the head of the list). An empty slot pushes nothing. -/
def pushLeft : MaybeNode κ σ V W → List (NodeRef κ σ V W) → List (NodeRef κ σ V W)
  | nil, s => s
  | node n l r, s => pushLeft l ((n, l, r) :: s)

/-- `Iter::next`: pop the top node, then push its right child and that child's left spine. -/
def Iter.next : List (NodeRef κ σ V W) → Option (Node κ σ V W × List (NodeRef κ σ V W))
  | [] => none
  | (n, _, r) :: s => some (n, pushLeft r s)

/-- The nodes a stack still has to yield. -/
def stackSize (s : List (NodeRef κ σ V W)) : Nat :=
  (s.map fun x => x.2.2.numNodes + 1).sum

theorem stackSize_pushLeft (t : MaybeNode κ σ V W) (s : List (NodeRef κ σ V W)) :
    stackSize (pushLeft t s) = t.numNodes + stackSize s := by
  induction t generalizing s with
  | nil => simp [pushLeft]
  | node n l r ihl ihr =>
    rw [pushLeft, ihl]
    simp only [stackSize, List.map_cons, List.sum_cons, numNodes]
    omega

/-- Everything an iterator yields, in order: the node `next` pops, then what the stack it
    leaves yields (`drain_eq_next`). -/
def Iter.drain : List (NodeRef κ σ V W) → List (Node κ σ V W)
  | [] => []
  | (n, _, r) :: s => n :: Iter.drain (pushLeft r s)
termination_by s => stackSize s
decreasing_by
  rw [stackSize_pushLeft]
  simp only [stackSize, List.map_cons, List.sum_cons]
  omega

/-- `drain` is `next` until it returns `None`. -/
theorem drain_eq_next (s : List (NodeRef κ σ V W)) :
    Iter.drain s = match Iter.next s with
      | none => []
      | some (n, s') => n :: Iter.drain s' := by
  match s with
  | [] => simp [Iter.drain, Iter.next]
  | (n, l, r) :: s => simp [Iter.drain, Iter.next]

@[simp] theorem drain_cons (n : Node κ σ V W) (l r : MaybeNode κ σ V W)
    (s : List (NodeRef κ σ V W)) :
    Iter.drain ((n, l, r) :: s) = n :: Iter.drain (pushLeft r s) := by
  simp [Iter.drain]

/-- Draining a pushed subtree yields its traversal first. -/
theorem drain_pushLeft (t : MaybeNode κ σ V W) (s : List (NodeRef κ σ V W)) :
    Iter.drain (pushLeft t s) = t.toList ++ Iter.drain s := by
  induction t generalizing s with
  | nil => rfl
  | node n l r ihl ihr => simp [pushLeft, ihl, drain_cons, ihr]

/-- `extend_path_with_key` after pushing the subtree `t`: go left while the key is below the
    node, stop at the node of the key, and pop a node the key is above before going right.
    A missing child ends the loop. -/
def extendPathWithKey (nextNodeDir : σ × κ → σ × κ → Option Direction) (k : σ × κ) :
    MaybeNode κ σ V W → List (NodeRef κ σ V W) → List (NodeRef κ σ V W)
  | nil, s => s
  | node n l r, s =>
    match nextNodeDir k n.treapKey with
    | some .left => extendPathWithKey nextNodeDir k l ((n, l, r) :: s)
    | none => (n, l, r) :: s
    | some .right => extendPathWithKey nextNodeDir k r s

namespace TreapMap

variable {ε ρ : Type}

/-- `TreapMap::iter`, run to the end. -/
def iter (m : TreapMap κ σ V W ε ρ) : List (Node κ σ V W) :=
  Iter.drain (pushLeft m.root [])

/-- `TreapMap::iter_range` of a map whose sort key is `()`, run to the end. -/
def iterRange (C : TreapMapConfig κ Unit V ε) (m : TreapMap κ Unit V W ε ρ) (key : κ) :
    List (Node κ Unit V W) :=
  Iter.drain (extendPathWithKey C.nextNodeDir ((), key) m.root [])

end TreapMap

/-! ### What the iterators yield -/

/-- `iter` yields the nodes in traversal order: the model's entries. -/
theorem iter_eq_toList {ε ρ : Type} (m : TreapMap κ σ V W ε ρ) : m.iter = m.root.toList := by
  simp [TreapMap.iter, drain_pushLeft, Iter.drain]

/-- The model's `range(key..)`: the entries from the key on. -/
def rangeFrom (d : σ × κ → σ × κ → Option Direction) (k : σ × κ)
    (xs : List (NodeFields κ σ V W)) : List (NodeFields κ σ V W) :=
  xs.filter fun f => dirCmp d k f.treapKey != .gt

section Range

variable {d : σ × κ → σ × κ → Option Direction} [Std.TransCmp (dirCmp d)]
  [Std.LawfulEqCmp (dirCmp d)]

/-- On a search tree, the stack `extend_path_with_key` leaves yields the subtree's nodes from
    the key on, then what was below it. -/
theorem drain_extendPathWithKey (k : σ × κ) {t : MaybeNode κ σ V W} (hs : Sorted d t)
    (s : List (NodeRef κ σ V W)) :
    Iter.drain (extendPathWithKey d k t s) =
      t.toList.filter (fun z => dirCmp d k z.treapKey != .gt) ++ Iter.drain s := by
  induction t generalizing s with
  | nil => rfl
  | node n l r ihl ihr =>
    obtain ⟨hl, hr, hln, hnr, -⟩ := KeyList.sorted_append_cons.mp (by simpa [Sorted] using hs)
    have keep : ∀ xs : List (Node κ σ V W), (∀ z ∈ xs, dirCmp d k z.treapKey = .lt) →
        xs.filter (fun z => dirCmp d k z.treapKey != .gt) = xs := fun xs h =>
      List.filter_eq_self.mpr fun z hz => by simp [h z hz]
    have drop : ∀ xs : List (Node κ σ V W), (∀ z ∈ xs, dirCmp d k z.treapKey = .gt) →
        xs.filter (fun z => dirCmp d k z.treapKey != .gt) = [] := fun xs h =>
      List.filter_eq_nil_iff.mpr fun z hz => by simp [h z hz]
    cases hd : d k n.treapKey with
    | none =>
      -- the node of the key: what is left of it is below the key, what is right above it
      have hk := Std.LawfulEqCmp.compare_eq_iff_eq.mp (dirCmp_of_none hd)
      subst hk
      have hdl := drop l.toList fun z hz => cmp_swap_lt (hln z.toNodeFields (mem_entries_of_mem hz))
      have hkr := keep r.toList fun z hz => hnr z.toNodeFields (mem_entries_of_mem hz)
      simp [extendPathWithKey, hd, drain_pushLeft, List.filter_append, hdl, hkr,
        Std.ReflCmp.compare_self]
    | some dir =>
      cases dir with
      | left =>
        -- the key is below `n`, so `n` and everything right of it is yielded
        have hkn := dirCmp_of_left hd
        have hkr := keep r.toList fun z hz =>
          Std.TransCmp.lt_trans hkn (hnr z.toNodeFields (mem_entries_of_mem hz))
        simp [extendPathWithKey, hd, ihl hl, drain_pushLeft, List.filter_append, hkr, hkn]
      | right =>
        -- the key is above `n`, so `n` and everything left of it is skipped
        have hkn := dirCmp_of_right hd
        have hdl := drop l.toList fun z hz => cmp_swap_lt
          (Std.TransCmp.lt_trans (hln z.toNodeFields (mem_entries_of_mem hz)) (cmp_swap_gt hkn))
        simp [extendPathWithKey, hd, ihr hr, List.filter_append, hdl, hkn]

/-- From the key on, the nodes of a search tree are the model's `range(key..)`: what
    `iter_range` yields. -/
theorem map_drain_extendPathWithKey (k : σ × κ) {t : MaybeNode κ σ V W} (hs : Sorted d t) :
    (Iter.drain (extendPathWithKey d k t [])).map Node.toNodeFields = rangeFrom d k (entries t) := by
  rw [drain_extendPathWithKey k hs, rangeFrom, entries, List.filter_map]
  simp [Iter.drain, Function.comp_def]

end Range

/-! ## `accumulate_weight_search` -/

/-- `SearchDirection`. -/
inductive SearchDirection (W : Type) where
  | abort
  | left
  | stop
  | right (w : W)
  | leftOrStop
  | rightOrStop (w : W)

/-- `SearchResult`. -/
inductive SearchResult (κ σ V W W' : Type) where
  | abort
  | leftMost
  | found (baseWeight : W') (node : Node κ σ V W)
  | rightMost (w : W')

/-- `SearchResult::maybe_value`. -/
def SearchResult.maybeValue {W' : Type} : SearchResult κ σ V W W' → Option V
  | .found _ n => some n.value
  | _ => none

/-- `left_weight` in `accumulate_weight_search`: the accumulated weight with the left child's
    `sum_weight`, if there is a left child. -/
def leftWeightOf {W' : Type} [ConsoliableWeight W'] (extract : W → W') (base : W') :
    MaybeNode κ σ V W → W'
  | nil => base
  | node c _ _ => consolidate base (extract c.sumWeight)

/-- The loop of `accumulate_weight_search` at the slot `t` it moved to, with its accumulated
    weight, the `right_weight` of the step that moved there, the candidate result and the
    `all_left` and `all_right` flags. At an empty slot the loop ends; `none` is the panic of
    `right_weight.unwrap()`. -/
def searchFrom {W' : Type} [ConsoliableWeight W'] (f : W' → Node κ σ V W → SearchDirection W')
    (extract : W → W') :
    MaybeNode κ σ V W → W' → Option W' → Option (SearchResult κ σ V W W') → Bool → Bool →
      Option (SearchResult κ σ V W W')
  | nil, _, rightWeight, candidate, allLeft, allRight =>
    match candidate with
    | some result => some result
    | none =>
      if allLeft then some .leftMost
      else if allRight then rightWeight.map .rightMost
      else some .abort
  | node n l r, base, _, candidate, allLeft, allRight =>
    let leftWeight := leftWeightOf extract base l
    let found := SearchResult.found leftWeight n
    match f leftWeight n with
    | .abort => some (candidate.getD .abort)
    | .stop => some found
    | .left => searchFrom f extract l base none candidate allLeft false
    | .leftOrStop => searchFrom f extract l base none (some found) allLeft false
    | .right w => searchFrom f extract r w (some w) candidate false allRight
    | .rightOrStop w => searchFrom f extract r w (some w) (some found) false allRight

/-- `accumulate_weight_search` from a root node. -/
def accumulateWeightSearch {W' : Type} [ConsoliableWeight W']
    (n : Node κ σ V W) (l r : MaybeNode κ σ V W) (f : W' → Node κ σ V W → SearchDirection W')
    (extract : W → W') : Option (SearchResult κ σ V W W') :=
  searchFrom f extract (node n l r) ConsoliableWeight.empty none none true true

namespace TreapMap

variable {ε ρ : Type} [ConsoliableWeight W]

/-- `TreapMap::search`: nothing on an empty map. -/
def search (m : TreapMap κ σ V W ε ρ) (f : W → Node κ σ V W → SearchDirection W) :
    Option (SearchResult κ σ V W W) :=
  match m.root with
  | nil => none
  | node n l r => accumulateWeightSearch n l r f id

/-- The search function of `TreapMap::get_by_weight`. -/
def byWeight [LinearOrder W] (weight : W) (base : W) (mid : Node κ σ V W) : SearchDirection W :=
  if weight < base then .left
  else
    let rightBase := consolidate base mid.weight
    if weight < rightBase then .stop else .right rightBase

/-- `TreapMap::get_by_weight`. -/
def getByWeight [LinearOrder W] (m : TreapMap κ σ V W ε ρ) (weight : W) : Option V :=
  (m.search (byWeight weight)).bind SearchResult.maybeValue

end TreapMap

/-! ### The weight model -/

/-- Laws under which accumulated weights do not depend on the order of accumulation: what a
    `sum_weight` computed node by node needs to be the sum of the entries. -/
structure LawfulWeight (W : Type) [ConsoliableWeight W] : Prop where
  assoc : ∀ a b c : W, consolidate (consolidate a b) c = consolidate a (consolidate b c)
  comm : ∀ a b : W, consolidate a b = consolidate b a
  empty_consolidate : ∀ a : W, consolidate ConsoliableWeight.empty a = a

/-- The laws a running sum taken node by node needs to be the sum of the entries in order; unlike
    `LawfulWeight`, `empty` need not be neutral (it is not for `PackingPoolWeight` on `Nat`,
    whose `empty` has the least gas price `U256::MAX`). -/
structure CommWeight (W : Type) [ConsoliableWeight W] : Prop where
  assoc : ∀ a b c : W, consolidate (consolidate a b) c = consolidate a (consolidate b c)
  comm : ∀ a b : W, consolidate a b = consolidate b a

theorem LawfulWeight.commWeight {W : Type} [ConsoliableWeight W] (hw : LawfulWeight W) :
    CommWeight W :=
  ⟨hw.assoc, hw.comm⟩

/-- A lawful weight ordered by accumulation, as the weights `get_by_weight` searches by. -/
structure MonotoneWeight (W : Type) [ConsoliableWeight W] [LinearOrder W] : Prop
    extends LawfulWeight W where
  le_consolidate : ∀ a b : W, a ≤ consolidate a b

section Weights

variable [ConsoliableWeight W]

/-- The entries' weights accumulated onto `b` from the left, as the model's loops do. -/
def accumulate (b : W) (xs : List (NodeFields κ σ V W)) : W :=
  xs.foldl (fun s f => consolidate s f.weight) b

@[simp] theorem accumulate_nil (b : W) : accumulate b ([] : List (NodeFields κ σ V W)) = b := rfl

@[simp] theorem accumulate_cons (b : W) (x : NodeFields κ σ V W) (xs : List (NodeFields κ σ V W)) :
    accumulate b (x :: xs) = accumulate (consolidate b x.weight) xs := rfl

theorem accumulate_append (b : W) (xs ys : List (NodeFields κ σ V W)) :
    accumulate b (xs ++ ys) = accumulate (accumulate b xs) ys :=
  List.foldl_append

/-- The model's `sum_weight`: all weights accumulated onto `empty`. -/
def weightSum (xs : List (NodeFields κ σ V W)) : W := accumulate ConsoliableWeight.empty xs

/-- The model's `get_by_weight` from the running sum `s`: the first entry whose running sum,
    with its own weight, exceeds the query. -/
def scanByWeight [LinearOrder W] (q : W) : W → List (NodeFields κ σ V W) → Option V
  | _, [] => none
  | s, x :: xs =>
    let s := consolidate s x.weight
    if q < s then some x.value else scanByWeight q s xs

section Comm

variable (hw : CommWeight W)
include hw

theorem consolidate_accumulate (a b : W) (xs : List (NodeFields κ σ V W)) :
    consolidate a (accumulate b xs) = accumulate (consolidate a b) xs := by
  induction xs generalizing b with
  | nil => rfl
  | cons x xs ih => simp [ih, hw.assoc]

theorem accumulate_consolidate (a c : W) (xs : List (NodeFields κ σ V W)) :
    accumulate (consolidate a c) xs = consolidate (accumulate a xs) c := by
  rw [hw.comm a c, ← consolidate_accumulate hw, hw.comm]

/-- A subtree with right sums accumulates onto `w` what its entries do. -/
theorem accureChild_eq_accumulate {t : MaybeNode κ σ V W} (hs : SumOk t) (w : W) :
    accureChild w t = accumulate w (entries t) := by
  induction t generalizing w with
  | nil => rfl
  | node c l r ihl ihr =>
    obtain ⟨hsum, hl, hr⟩ := hs
    calc accureChild w (node c l r) = consolidate w c.sumWeight := rfl
      _ = consolidate w (accumulate (accumulate c.weight (entries l)) (entries r)) := by
        rw [hsum, ihr hr, ihl hl]
      _ = accumulate (accumulate (consolidate w c.weight) (entries l)) (entries r) := by
        rw [consolidate_accumulate hw, consolidate_accumulate hw]
      _ = accumulate w (entries (node c l r)) := by
        rw [accumulate_consolidate hw, entries_node, accumulate_append, accumulate_cons]

end Comm

/-- `TreapMap::sum_weight` of a treap with right sums is the model's. -/
theorem sumWeight_eq_weightSum (hw : LawfulWeight W) {ε ρ : Type} (m : TreapMap κ σ V W ε ρ)
    (hs : SumOk m.root) : m.sumWeight = weightSum (entries m.root) := by
  obtain ⟨root, e, g⟩ := m
  rw [weightSum, ← accureChild_eq_accumulate hw.commWeight hs]
  cases root with
  | nil => rfl
  | node n l r => exact (hw.empty_consolidate n.sumWeight).symm

end Weights

section ByWeight

variable [ConsoliableWeight W] [LinearOrder W]

theorem scanByWeight_append (q b : W) (xs ys : List (NodeFields κ σ V W)) :
    scanByWeight q b (xs ++ ys) = (scanByWeight q b xs).or (scanByWeight q (accumulate b xs) ys) := by
  induction xs generalizing b with
  | nil => simp [scanByWeight]
  | cons x xs ih =>
    simp only [List.cons_append, scanByWeight, accumulate_cons]
    split
    · rfl
    · exact ih _

/-- From a running sum within the query, the scan finds an entry once the whole sum exceeds it. -/
theorem scanByWeight_isSome {q b : W} {xs : List (NodeFields κ σ V W)} (hb : b ≤ q)
    (h : q < accumulate b xs) : (scanByWeight q b xs).isSome := by
  induction xs generalizing b with
  | nil => exact absurd hb (not_le.mpr h)
  | cons x xs ih =>
    simp only [scanByWeight]
    split
    · rfl
    · next hq => exact ih (not_lt.mp hq) h

variable (hw : MonotoneWeight W)
include hw

theorem le_accumulate (b : W) (xs : List (NodeFields κ σ V W)) : b ≤ accumulate b xs := by
  induction xs generalizing b with
  | nil => exact le_rfl
  | cons x xs ih => exact (hw.le_consolidate b x.weight).trans (ih _)

/-- Below a query that the whole running sum stays within, the scan finds nothing. -/
theorem scanByWeight_of_le {q b : W} {xs : List (NodeFields κ σ V W)} (h : accumulate b xs ≤ q) :
    scanByWeight q b xs = none := by
  induction xs generalizing b with
  | nil => rfl
  | cons x xs ih =>
    have hs : consolidate b x.weight ≤ q := (le_accumulate hw _ xs).trans h
    simp only [scanByWeight, not_lt.mpr hs, if_false]
    exact ih h

/-- The search of `get_by_weight` from a subtree with right sums, with a running sum within the
    query and no candidate yet, finds what the model's scan of the subtree's entries finds. -/
theorem searchFrom_byWeight (q : W) {t : MaybeNode κ σ V W} (hs : SumOk t) {b : W} (hb : b ≤ q)
    (rightWeight : Option W) (allLeft allRight : Bool) :
    (searchFrom (TreapMap.byWeight q) id t b rightWeight none allLeft allRight).bind
      SearchResult.maybeValue = scanByWeight q b (entries t) := by
  induction t generalizing b rightWeight allLeft allRight with
  | nil => cases allLeft <;> cases allRight <;> cases rightWeight <;> rfl
  | node n l r ihl ihr =>
    obtain ⟨-, hl, hr⟩ := hs
    have hlw : leftWeightOf id b l = accumulate b (entries l) := by
      rw [← accureChild_eq_accumulate hw.toLawfulWeight.commWeight hl]
      cases l <;> rfl
    simp only [searchFrom, hlw]
    rw [entries_node, scanByWeight_append]
    by_cases h₁ : q < accumulate b (entries l)
    · -- the query falls left of `n`: the scan of the left subtree finds it
      obtain ⟨v, hv⟩ := Option.isSome_iff_exists.mp (scanByWeight_isSome hb h₁)
      simp only [TreapMap.byWeight, h₁, if_true, ihl hl hb, hv, Option.some_or]
    · have hL := scanByWeight_of_le hw (not_lt.mp h₁)
      by_cases h₂ : q < consolidate (accumulate b (entries l)) n.weight
      · -- the query falls on `n`
        simp [TreapMap.byWeight, h₁, h₂, hL, scanByWeight, SearchResult.maybeValue]
      · -- the query falls right of `n`: go on with the weight up to and with `n`
        simp [TreapMap.byWeight, h₁, h₂, hL, scanByWeight, ihr hr (not_lt.mp h₂)]

/-- `TreapMap::get_by_weight` of a treap with right sums is the model's scan from `empty`. -/
theorem getByWeight_eq_scan {ε ρ : Type} (m : TreapMap κ σ V W ε ρ) (hs : SumOk m.root) (q : W) :
    m.getByWeight q = scanByWeight q ConsoliableWeight.empty (entries m.root) := by
  have hb : ConsoliableWeight.empty ≤ q := by
    simpa [hw.empty_consolidate] using hw.le_consolidate ConsoliableWeight.empty q
  obtain ⟨root, e, g⟩ := m
  cases root with
  | nil => rfl
  | node n l r => exact searchFrom_byWeight hw q hs hb none true true

end ByWeight

/-- `accumulate_weight_search` never reaches its `unwrap` with nothing to unwrap: `all_right`
    survives only steps to the right, each of which leaves a `right_weight`. -/
theorem searchFrom_isSome {W' : Type} [ConsoliableWeight W'] (f : W' → Node κ σ V W → SearchDirection W')
    (extract : W → W') {t : MaybeNode κ σ V W} {base : W'} {rightWeight : Option W'}
    {candidate : Option (SearchResult κ σ V W W')} {allLeft allRight : Bool}
    (h : t = nil → allRight = true → rightWeight.isSome) :
    (searchFrom f extract t base rightWeight candidate allLeft allRight).isSome := by
  induction t generalizing base rightWeight candidate allLeft allRight with
  | nil =>
    simp only [searchFrom]
    split
    · rfl
    · split
      · rfl
      · split
        · next hr => simpa using h rfl hr
        · rfl
  | node n l r ihl ihr =>
    simp only [searchFrom]
    split
    · rfl
    · rfl
    · exact ihl nofun
    · exact ihl nofun
    · exact ihr fun _ _ => rfl
    · exact ihr fun _ _ => rfl

theorem search_isSome {ε ρ : Type} [ConsoliableWeight W] (m : TreapMap κ σ V W ε ρ)
    (f : W → Node κ σ V W → SearchDirection W) (h : m.root ≠ nil) : (m.search f).isSome := by
  obtain ⟨root, e, g⟩ := m
  cases root with
  | nil => exact absurd rfl h
  | node n l r => exact searchFrom_isSome f id nofun

/-- On `oneKeyMap`, a search that always goes right ends past the last node. -/
theorem search_isSome_at_oneKeyMap :
    oneKeyMap.root ≠ nil ∧ (oneKeyMap.search fun _ _ => .right 0).isSome := by
  have hroot : oneKeyMap.root ≠ nil := by simp [oneKeyMap, TreapMap.insert, TreapMap.new,
    updateInner, updateSlot, updateNodeAt, insertOp, processUpdateResult, reweigh, withWeight]
  exact ⟨hroot, search_isSome oneKeyMap _ hroot⟩

/-! ### The first prefix that fails a test -/

/-- The weight a search result carries: the base weight of the node found, or the whole sum. -/
def SearchResult.baseWeight {W' : Type} : SearchResult κ σ V W W' → Option W'
  | .found w _ => some w
  | .rightMost w => some w
  | _ => none

section Prefix

variable [ConsoliableWeight W] (ok : W → Bool)

/-- The search function that walks to the first prefix whose running sum fails `ok`: left when
    the sum before the node fails, a stop at the node when its own weight makes it fail, right
    otherwise. -/
def prefixSearch (leftWeight : W) (node : Node κ σ V W) : SearchDirection W :=
  if !ok leftWeight then .left
  else
    let rightWeight := consolidate leftWeight node.weight
    if !ok rightWeight then .stop else .right rightWeight

/-- The linear scan: the running sum of the longest prefix whose running sums all pass `ok`. -/
def prefixScan : W → List W → W
  | b, [] => b
  | b, w :: ws =>
    let b' := consolidate b w
    if ok b' then prefixScan b' ws else b

/-- Along `ws` from `b`, a running sum that fails `ok` fails it for good. -/
def PrefixClosed : W → List W → Prop
  | _, [] => True
  | b, w :: ws => (ok (consolidate b w) = true → ok b = true) ∧ PrefixClosed (consolidate b w) ws

theorem accumulate_eq_foldl (b : W) (xs : List (NodeFields κ σ V W)) :
    accumulate b xs = (xs.map NodeFields.weight).foldl consolidate b :=
  (List.foldl_map ..).symm

theorem prefixClosed_append (b : W) (xs ys : List W) :
    PrefixClosed ok b (xs ++ ys) ↔
      PrefixClosed ok b xs ∧ PrefixClosed ok (xs.foldl consolidate b) ys := by
  induction xs generalizing b with
  | nil => simp [PrefixClosed]
  | cons x xs ih => simp [PrefixClosed, ih, and_assoc]

/-- A running sum that passes at the end passed all along. -/
theorem PrefixClosed.ok_of_ok {b : W} {xs : List W} (hc : PrefixClosed ok b xs)
    (h : ok (xs.foldl consolidate b) = true) : ok b = true := by
  induction xs generalizing b with
  | nil => exact h
  | cons x xs ih => exact hc.1 (ih hc.2 h)

/-- Past a prefix whose sum fails, the scan has stopped already. -/
theorem prefixScan_append_of_fail {b : W} {xs : List W} (hb : ok b = true)
    (h : ok (xs.foldl consolidate b) = false) (ys : List W) :
    prefixScan ok b (xs ++ ys) = prefixScan ok b xs := by
  induction xs generalizing b with
  | nil =>
    rw [List.foldl_nil, hb] at h
    cases h
  | cons x xs ih =>
    simp only [List.cons_append, prefixScan]
    split
    · next hx => exact ih hx h
    · rfl

/-- Over a prefix whose sum passes, the scan runs through. -/
theorem prefixScan_append_of_ok {b : W} {xs : List W} (hc : PrefixClosed ok b xs)
    (h : ok (xs.foldl consolidate b) = true) (ys : List W) :
    prefixScan ok b (xs ++ ys) = prefixScan ok (xs.foldl consolidate b) ys := by
  induction xs generalizing b with
  | nil => rfl
  | cons x xs ih =>
    have hx : ok (consolidate b x) = true := hc.2.ok_of_ok ok h
    simp only [List.cons_append, prefixScan, hx, if_true, List.foldl_cons]
    exact ih hc.2 h

/-- A relation between weights that `consolidate` keeps and `ok` cannot tell apart is kept by
    the scan. -/
theorem prefixScan_rel (R : W → W → Prop)
    (hR : ∀ a a' c c', R a a' → R c c' → R (consolidate a c) (consolidate a' c'))
    (hok : ∀ a a', R a a' → ok a = ok a') {b b' : W} (hb : R b b') {ws ws' : List W}
    (h : List.Forall₂ R ws ws') : R (prefixScan ok b ws) (prefixScan ok b' ws') := by
  induction h generalizing b b' with
  | nil => exact hb
  | cons hw _ ih =>
    have hc := hR _ _ _ _ hb hw
    simp only [prefixScan, hok _ _ hc]
    split
    · exact ih hc
    · exact hb

/-- The search for the first failing prefix from a subtree with right sums, with a running sum
    that passes, finds the running sum the linear scan of the subtree's entries stops at, when
    the failures along the entries are for good. It ends at a node when some prefix fails, and
    at the empty slot past the last entry, with the whole sum, when none does. -/
theorem searchFrom_prefixSearch (hw : CommWeight W) {t : MaybeNode κ σ V W} (hs : SumOk t)
    {b : W} (hb : ok b = true) (hc : PrefixClosed ok b ((entries t).map NodeFields.weight))
    {rightWeight : Option W} {allLeft allRight : Bool}
    (hall : ok (accumulate b (entries t)) = true →
      allRight = true ∧ (t = nil → allLeft = false ∧ rightWeight = some b)) :
    ∃ r, searchFrom (prefixSearch ok) id t b rightWeight none allLeft allRight = some r ∧
      r.baseWeight = some (prefixScan ok b ((entries t).map NodeFields.weight)) := by
  induction t generalizing b rightWeight allLeft allRight with
  | nil =>
    -- every move was to the right, the last one with the whole sum
    obtain ⟨rfl, hL⟩ := hall hb
    obtain ⟨rfl, rfl⟩ := hL rfl
    exact ⟨.rightMost b, rfl, rfl⟩
  | node n l r ihl ihr =>
    obtain ⟨-, hl, hr⟩ := hs
    have hlw : leftWeightOf id b l = accumulate b (entries l) := by
      rw [← accureChild_eq_accumulate hw hl]
      cases l <;> rfl
    have hfold : ((entries l).map NodeFields.weight).foldl consolidate b =
        accumulate b (entries l) := (accumulate_eq_foldl b _).symm
    have hsplit : (entries (node n l r)).map NodeFields.weight =
        (entries l).map NodeFields.weight ++ n.weight :: (entries r).map NodeFields.weight := by
      simp
    rw [hsplit] at hc ⊢
    obtain ⟨hcl, hcr⟩ := (prefixClosed_append ok b _ _).mp hc
    rw [hfold] at hcr
    have htotal : accumulate b (entries (node n l r)) =
        accumulate (consolidate (accumulate b (entries l)) n.weight) (entries r) := by
      rw [entries_node, accumulate_append, accumulate_cons]
    simp only [searchFrom, hlw]
    by_cases h₁ : ok (accumulate b (entries l)) = true
    · have hscan := prefixScan_append_of_ok ok hcl (hfold ▸ h₁)
        (n.weight :: (entries r).map NodeFields.weight)
      rw [hfold] at hscan
      by_cases h₂ : ok (consolidate (accumulate b (entries l)) n.weight) = true
      · -- both sums pass: on to the right subtree with the sum up to and with `n`
        obtain ⟨res, hres, hbase⟩ := ihr hr h₂ hcr.2 fun hok =>
          ⟨(hall (htotal ▸ hok)).1, fun _ => ⟨rfl, rfl⟩⟩
        simp only [prefixSearch, h₁, h₂, Bool.not_true, Bool.false_eq_true, if_false]
        refine ⟨res, hres, ?_⟩
        rw [hbase, hscan]
        simp [prefixScan, h₂]
      · -- the sum with `n` fails: the scan stops before `n`
        simp only [prefixSearch, h₁, h₂, Bool.not_true, Bool.not_false, Bool.false_eq_true,
          if_false, if_true]
        refine ⟨_, rfl, ?_⟩
        rw [hscan]
        simp [prefixScan, h₂, SearchResult.baseWeight]
    · -- the sum before `n` fails: the first failing prefix lies in the left subtree
      have h₁' : ok (accumulate b (entries l)) = false := by simpa using h₁
      obtain ⟨res, hres, hbase⟩ := ihl hl hb hcl fun hok => absurd hok h₁
      simp only [prefixSearch, h₁', Bool.not_false, if_true]
      refine ⟨res, hres, ?_⟩
      rw [hbase, prefixScan_append_of_fail ok hb (hfold ▸ h₁')]

/-- `accumulate_weight_search` for the first failing prefix from the root: it ends at a node or
    past the last entry, never in `Abort` or `LeftMost`, with the sum the linear scan stops
    at. -/
theorem accumulateWeightSearch_prefixSearch (hw : CommWeight W) {n : Node κ σ V W}
    {l r : MaybeNode κ σ V W} (hs : SumOk (node n l r)) (hb : ok ConsoliableWeight.empty = true)
    (hc : PrefixClosed ok ConsoliableWeight.empty ((entries (node n l r)).map NodeFields.weight)) :
    ∃ res, accumulateWeightSearch n l r (prefixSearch ok) id = some res ∧
      res.baseWeight = some (prefixScan ok ConsoliableWeight.empty
        ((entries (node n l r)).map NodeFields.weight)) :=
  searchFrom_prefixSearch ok hw hs hb hc fun _ => ⟨rfl, nofun⟩

end Prefix

/-! ## Every reachable map against the model -/

/-- Over every run of `insert`, `remove` and `update` with honest closures, the treap keeps its
    representation invariant and answers as the sorted entries do: `get` at the sort key the
    manager gives, `iter` in order, the iterators from a key, `sum_weight` for a lawful weight and
    `get_by_weight` for a weight ordered by accumulation; and a failing closure leaves the entries
    and the key manager as they were. -/
theorem treap_map_refines_model {ε ρ : Type} [ConsoliableWeight W] [DecidableEq W]
    {C : TreapMapConfig κ σ V ε} [Std.TransCmp (dirCmp C.nextNodeDir)]
    [Std.LawfulEqCmp (dirCmp C.nextNodeDir)] {nextU64 : ρ → Nat × ρ}
    {m : TreapMap κ σ V W ε ρ} (hm : Reachable C nextU64 m) :
    TreapInv C.nextNodeDir m.root ∧
    (∀ key, TreapMap.get C m key = (C.extMap.getSortKey m.extMap key).bind fun sk =>
      (lookup C.nextNodeDir (sk, key) (entries m.root)).map NodeFields.value) ∧
    m.iter.map Node.toNodeFields = entries m.root ∧
    (∀ k, (Iter.drain (extendPathWithKey C.nextNodeDir k m.root [])).map Node.toNodeFields =
      rangeFrom C.nextNodeDir k (entries m.root)) ∧
    (LawfulWeight W → m.sumWeight = weightSum (entries m.root)) ∧
    (∀ [LinearOrder W], MonotoneWeight W → ∀ q,
      m.getByWeight q = scanByWeight q ConsoliableWeight.empty (entries m.root)) ∧
    (∀ {E T : Type} (key : κ) (update : UpdateFn κ σ V W E T) (insert : InsertFn κ σ V W E T ρ)
      (m' : TreapMap κ σ V W ε ρ) (err : E), HonestUpdate update →
      TreapMap.update C nextU64 m key update insert = some (m', .error err) →
      entries m'.root = entries m.root ∧ m'.extMap = m.extMap) := by
  have hi := hm.inv
  refine ⟨hi, fun key => ?_, ?_, fun k => ?_, fun hw => sumWeight_eq_weightSum hw m hi.sums,
    fun hw q => getByWeight_eq_scan hw m hi.sums q,
    fun key update insert m' err hu h => update_error hu hi h⟩
  · simp only [TreapMap.get]
    cases C.extMap.getSortKey m.extMap key with
    | none => rfl
    | some sk => exact get_eq_lookup sk key hi.sorted
  · rw [iter_eq_toList]
    rfl
  · exact map_drain_extendPathWithKey k hi.sorted

/-- `oneKeyMap` after `insert(1)`: the new key has the higher priority and is rotated above
    `0`. -/
def twoKeyMap : TreapMap Nat Unit Nat Nat Nat Nat :=
  ⟨.node ⟨⟨1, 1, (), 1⟩, 1, 1⟩ (.node ⟨⟨0, 0, (), 0⟩, 0, 0⟩ .nil .nil) .nil, 2, 2⟩

/-- `twoKeyMap` after `insert(2)`, rotated to the root in its turn. -/
def threeKeyMap : TreapMap Nat Unit Nat Nat Nat Nat :=
  ⟨.node ⟨⟨2, 2, (), 2⟩, 3, 2⟩
    (.node ⟨⟨1, 1, (), 1⟩, 1, 1⟩ (.node ⟨⟨0, 0, (), 0⟩, 0, 0⟩ .nil .nil) .nil) .nil, 3, 3⟩

/-- `threeKeyMap` after `remove(0)`. -/
def prunedMap : TreapMap Nat Unit Nat Nat Nat Nat :=
  ⟨.node ⟨⟨2, 2, (), 2⟩, 3, 2⟩ (.node ⟨⟨1, 1, (), 1⟩, 1, 1⟩ .nil .nil) .nil, 2, 3⟩

/-- `prunedMap` after an `update` that moves key `2` to `1000`: the node is deleted, rotating
    `1` up, and inserted again with a fresh priority. The counter, at `3`, is the miscount of
    `update_rekey_miscounts`. -/
def rekeyedMap : TreapMap Nat Unit Nat Nat Nat Nat :=
  ⟨.node ⟨⟨1000, 1000, (), 1000⟩, 1001, 3⟩ (.node ⟨⟨1, 1, (), 1⟩, 1, 1⟩ .nil .nil) .nil, 3, 4⟩

theorem remove_threeKeyMap :
    TreapMap.remove (sharedKeyConfig Nat Nat) threeKeyMap 0 = some (prunedMap, some 0) := by
  -- `delete` is well-founded, so the removal is unfolded by its equations, not by `decide`
  simp +decide [threeKeyMap, prunedMap, TreapMap.remove, removeOp, updateInner, updateSlot,
    updateNodeAt, processUpdateResult, deleteSlot, delete, rebalanceLeft, reweigh, withWeight,
    Node.updateWeight, accureChild, sharedKeyConfig, sharedKeyNextNodeDir, counter,
    Nat.compare_eq_ite_lt, consolidate, Node.treapKey]

theorem update_prunedMap :
    TreapMap.update (sharedKeyConfig Nat Nat) countingRng prunedMap 2 moveTo1000 failingInsert =
      some (rekeyedMap, .ok ()) := by
  simp +decide [prunedMap, rekeyedMap, TreapMap.update, applyOp, moveTo1000, TreapMap.insert,
    insertOp, updateInner, updateSlot, updateNodeAt, processUpdateResult, deleteSlot, delete,
    deleteLeft, rebalanceRight, leftRotate, reweigh, withWeight, Node.updateWeight, Node.new,
    accureChild, sharedKeyConfig, sharedKeyNextNodeDir, counter, Nat.compare_eq_ite_lt,
    consolidate, countingRng, Node.treapKey]

/-- `moveTo1000` never fails and asks for the new key and weight to be taken. -/
theorem honestUpdate_moveTo1000 : HonestUpdate moveTo1000 where
  error n f err h := by simp [moveTo1000] at h
  key n f o h hk _ := by
    simp only [moveTo1000, Option.some.injEq, Prod.mk.injEq, Except.ok.injEq] at h
    rw [← h.2] at hk
    cases hk
  weight n f o h hw _ _ := by
    simp only [moveTo1000, Option.some.injEq, Prod.mk.injEq, Except.ok.injEq] at h
    rw [← h.2] at hw
    cases hw

/-- The map three inserts, a remove and a re-keying update leave. -/
theorem reachable_rekeyedMap :
    Reachable (sharedKeyConfig Nat Nat) countingRng rekeyedMap := by
  have h₁ : Reachable (sharedKeyConfig Nat Nat) countingRng oneKeyMap :=
    .insert (.new 0) (show TreapMap.insert (sharedKeyConfig Nat Nat) countingRng
      (TreapMap.new (sharedKeyConfig Nat Nat) 0) 0 0 0 = some (oneKeyMap, none) from rfl)
  have h₂ : Reachable (sharedKeyConfig Nat Nat) countingRng twoKeyMap :=
    .insert h₁ (show TreapMap.insert (sharedKeyConfig Nat Nat) countingRng oneKeyMap 1 1 1 =
      some (twoKeyMap, none) from rfl)
  have h₃ : Reachable (sharedKeyConfig Nat Nat) countingRng threeKeyMap :=
    .insert h₂ (show TreapMap.insert (sharedKeyConfig Nat Nat) countingRng twoKeyMap 2 2 2 =
      some (threeKeyMap, none) from rfl)
  exact .update (.remove h₃ remove_threeKeyMap) honestUpdate_moveTo1000 update_prunedMap

/-- At the map of keys `1` and `1000` that run leaves. -/
theorem treap_map_refines_model_at_rekeyedMap :
    (entries rekeyedMap.root).map NodeFields.key = [1, 1000] ∧
    TreapInv (sharedKeyConfig Nat Nat).nextNodeDir rekeyedMap.root ∧
    (∀ key, TreapMap.get (sharedKeyConfig Nat Nat) rekeyedMap key =
      ((sharedKeyConfig Nat Nat).extMap.getSortKey rekeyedMap.extMap key).bind fun sk =>
        (lookup (sharedKeyConfig Nat Nat).nextNodeDir (sk, key) (entries rekeyedMap.root)).map
          NodeFields.value) ∧
    rekeyedMap.iter.map Node.toNodeFields = entries rekeyedMap.root ∧
    (∀ k, (Iter.drain (extendPathWithKey (sharedKeyConfig Nat Nat).nextNodeDir k
      rekeyedMap.root [])).map Node.toNodeFields =
        rangeFrom (sharedKeyConfig Nat Nat).nextNodeDir k (entries rekeyedMap.root)) ∧
    (LawfulWeight Nat → rekeyedMap.sumWeight = weightSum (entries rekeyedMap.root)) ∧
    (∀ [LinearOrder Nat], MonotoneWeight Nat → ∀ q,
      rekeyedMap.getByWeight q = scanByWeight q ConsoliableWeight.empty (entries rekeyedMap.root)) ∧
    (∀ {E T : Type} (key : Nat) (update : UpdateFn Nat Unit Nat Nat E T)
      (insert : InsertFn Nat Unit Nat Nat E T Nat) (m' : TreapMap Nat Unit Nat Nat Nat Nat)
      (err : E), HonestUpdate update →
      TreapMap.update (sharedKeyConfig Nat Nat) countingRng rekeyedMap key update insert =
        some (m', .error err) →
      entries m'.root = entries rekeyedMap.root ∧ m'.extMap = rekeyedMap.extMap)  :=
  ⟨by decide, treap_map_refines_model reachable_rekeyedMap⟩

/-- A closure that writes the node's value and then fails. -/
def writeThenFail : UpdateFn Nat Unit Nat Nat Unit Unit := fun n =>
  some ({ n.toNodeFields with value := 7 }, .error ())

/-- A failing closure's writes stay: after `update` returns the error, `get` reads the value the
    closure wrote. -/
theorem update_error_keeps_write :
    ∃ m', TreapMap.update (sharedKeyConfig Nat Nat) countingRng oneKeyMap 0 writeThenFail
        failingInsert = some (m', .error ()) ∧
      TreapMap.get (sharedKeyConfig Nat Nat) oneKeyMap 0 = some 0 ∧
      TreapMap.get (sharedKeyConfig Nat Nat) m' 0 = some 7 :=
  ⟨_, rfl, rfl, rfl⟩

end Mazze.Treap
