/-
  The packing pool (`pool.rs`) over the treap map of `PackingPoolMap` (`treapmap_config.rs`,
  `key_mng.rs`, `weight.rs`).

  A node holds the batch of one sender and is ordered by the batch's first gas price, highest
  first, then by sender. Its weight sums gas limits and weighted loss ratios and keeps the least
  gas price and the largest loss ratio. The ext map is the `HashMap` from a sender to the sort
  key of its node. `insert`, `replace` and `split_off` run `TreapMap::update` with closures that
  write the node's batch, patch its sort key and weight by hand (`make_apply_outcome`) and ask
  for the node to be moved when the first gas price changed.

  Every run of the pool is a run of its treap map with honest closures (`Reachable.treapMap`), so
  the treap keeps its representation invariant. `make_apply_outcome` never writes
  `min_gas_price`: the node that `TreapMap::update` puts back after a change of first gas price
  keeps the old price there (`insert_leaves_min_gas_price_stale`).
-/
import Mazze.PackingPool.Batch
import Mazze.TreapMap.Invariant
import Mathlib

namespace Mazze.Packing

open Mazze.Treap BinaryTree

/-- `PackingPoolWeight`. -/
structure PackingPoolWeight where
  gasLimit : Nat
  minGasPrice : Nat
  weightedLossRatio : Nat
  maxLossRatio : Nat
  deriving DecidableEq, Repr

/-- `ConsoliableWeight for PackingPoolWeight`: sums of the gas limits and of the weighted loss
    ratios, the least gas price and the largest loss ratio. `empty` has the gas price
    `U256::MAX`. -/
instance : ConsoliableWeight PackingPoolWeight where
  empty := { gasLimit := 0, minGasPrice := u256Max, weightedLossRatio := 0, maxLossRatio := 0 }
  consolidate a b :=
    { gasLimit := a.gasLimit + b.gasLimit
      minGasPrice := min a.minGasPrice b.minGasPrice
      weightedLossRatio := a.weightedLossRatio + b.weightedLossRatio
      maxLossRatio := max a.maxLossRatio b.maxLossRatio }

/-- The state of `PackingPoolExtMap`: a `HashMap` from a sender to a sort key. -/
abbrev SortKeys (S : Type) := AList fun _ : S => Nat

/-- `Node<PackingPoolMap<TX>>`. -/
abbrev PoolNode (TX S : Type) := Node S Nat (PackingBatch TX) PackingPoolWeight

/-- The public fields of a `Node<PackingPoolMap<TX>>`. -/
abbrev PoolFields (TX S : Type) := NodeFields S Nat (PackingBatch TX) PackingPoolWeight

variable {TX S ρ : Type} [PackingPoolTransaction TX S] [DecidableEq S] [Ord S]

/-- `PackingPoolExtMap` as a key manager. `first_gas_price` unwraps the first transaction; every
    path to `view_update` and `make_sort_key` has read the first gas price of the same batch
    before, so the default of an empty batch is never taken. -/
def packingPoolExtMap (TX : Type) [PackingPoolTransaction TX S] :
    KeyMng S Nat (PackingBatch TX) (SortKeys S) where
  default := ∅
  viewUpdate e key value oldValue :=
    match value, oldValue with
    | some v, _ => e.insert key (v.firstGasPrice.getD 0)
    | none, some _ => e.erase key
    | none, none => e
  len e := e.entries.length
  getSortKey e key := e.lookup key
  makeSortKey _ _ value := value.firstGasPrice.getD 0

/-- `PackingPoolMap::next_node_dir`: a higher gas price goes left, then a smaller sender. -/
def packingPoolNextNodeDir (me other : Nat × S) : Option Direction :=
  match compare me.1 other.1 with
  | .gt => some .left
  | .lt => some .right
  | .eq =>
    match compare me.2 other.2 with
    | .lt => some .left
    | .eq => none
    | .gt => some .right

/-- `PackingPoolMap`: the configuration of the pool's treap map. -/
def packingPoolMap (TX : Type) [PackingPoolTransaction TX S] :
    TreapMapConfig S Nat (PackingBatch TX) (SortKeys S) where
  nextNodeDir := packingPoolNextNodeDir
  extMap := packingPoolExtMap TX

/-! ## The order of the pool's treap -/

/-- The pool's order is the gas price descending, then the sender ascending. -/
theorem dirCmp_packingPool (a b : Nat × S) :
    dirCmp (packingPoolMap TX).nextNodeDir a b =
      compareLex (fun a b => compareOn Prod.fst b a) (compareOn Prod.snd) a b := by
  have hswap : compare b.1 a.1 = (compare a.1 b.1).swap := Std.OrientedOrd.eq_swap
  simp only [dirCmp, packingPoolMap, packingPoolNextNodeDir, compareLex, compareOn, hswap]
  cases compare a.1 b.1 <;> cases compare a.2 b.2 <;> rfl

instance [Std.TransOrd S] : Std.TransCmp (dirCmp (packingPoolMap TX (S := S)).nextNodeDir) := by
  have h : dirCmp (packingPoolMap TX (S := S)).nextNodeDir =
      compareLex (fun a b : Nat × S => compareOn Prod.fst b a) (compareOn Prod.snd) :=
    funext fun a => funext fun b => dirCmp_packingPool a b
  rw [h]
  infer_instance

instance [Std.LawfulEqOrd S] :
    Std.LawfulEqCmp (dirCmp (packingPoolMap TX (S := S)).nextNodeDir) where
  compare_self {a} := by
    rw [dirCmp_packingPool, compareLex_eq_eq]
    exact ⟨Std.ReflOrd.compare_self, Std.ReflOrd.compare_self⟩
  eq_of_compare {a b} h := by
    rw [dirCmp_packingPool, compareLex_eq_eq] at h
    exact Prod.ext (Std.LawfulEqOrd.eq_of_compare h.1).symm (Std.LawfulEqOrd.eq_of_compare h.2)

/-! ## Nodes and their outcomes -/

section Closures

variable (nthInvRoot : Nat → Nat → Nat → Nat) (nextU64 : ρ → Nat × ρ)

/-- `PackingBatch::make_node`: the node of a batch at its first gas price, with the weight of
    that price and the batch's gas, and a priority drawn from the generator. -/
def PackingBatch.makeNode (b : PackingBatch TX) (config : PackingPoolConfig) (rng : ρ) :
    Option (PoolNode TX S × ρ) := do
  let key ← b.sender
  let gasPrice ← b.firstGasPrice
  let sortKey := gasPrice
  let lossRatio ← config.lossRatio nthInvRoot sortKey
  let weight : PackingPoolWeight :=
    { gasLimit := b.totalGasLimit, minGasPrice := gasPrice,
      weightedLossRatio := lossRatio * b.totalGasLimit, maxLossRatio := lossRatio }
  let (priority, rng) := nextU64 rng
  some (Node.new key b sortKey weight priority, rng)

/-- `make_apply_outcome`: after a closure wrote the node's batch, the sort key and the weight
    are patched from the old and the new `PackInfo`, and the node asks to move when its first
    gas price changed. -/
def makeApplyOutcome {T : Type} (oldInfo newInfo : PackInfo) (node : PoolFields TX S)
    (config : PackingPoolConfig) (out : T) : Option (PoolFields TX S × ApplyOpOutcome T) :=
  if oldInfo.firstGasPrice ≠ newInfo.firstGasPrice then do
    let gasPrice := newInfo.firstGasPrice
    let maxLossRatio ← config.lossRatio nthInvRoot gasPrice
    -- `gas_limit`, `max_loss_ratio` and `weighted_loss_ratio` are written, `min_gas_price` is not
    let weight := { node.weight with
      maxLossRatio, gasLimit := newInfo.totalGasLimit,
      weightedLossRatio := newInfo.totalGasLimit * maxLossRatio }
    some ({ node with sortKey := gasPrice, weight },
      { out, updateWeight := true, updateKey := true, deleteItem := false })
  else if oldInfo.totalGasLimit ≠ newInfo.totalGasLimit then
    let weight := { node.weight with
      gasLimit := newInfo.totalGasLimit,
      weightedLossRatio := newInfo.totalGasLimit * node.weight.maxLossRatio }
    some ({ node with weight }, { out, updateWeight := true, updateKey := false, deleteItem := false })
  else some (node, { out, updateWeight := false, updateKey := false, deleteItem := false })

/-- The `update` closure of `PackingPool::insert`: `PackingBatch::insert` on the node's batch. -/
def insertUpdate (config : PackingPoolConfig) (tx : TX) :
    UpdateFn S Nat (PackingBatch TX) PackingPoolWeight Empty (List TX × Except InsertError Unit) :=
  fun node => do
    let oldInfo ← node.value.packInfo
    let (value, out) ← node.value.insert tx config
    let newInfo ← value.packInfo
    let (f, o) ← makeApplyOutcome nthInvRoot oldInfo newInfo { node.toNodeFields with value }
      config out
    some (f, .ok o)

/-- The `insert` closure of `PackingPool::insert`: the node of the batch of `tx` alone. -/
def insertVacant (config : PackingPoolConfig) (tx : TX) :
    InsertFn S Nat (PackingBatch TX) PackingPoolWeight Empty (List TX × Except InsertError Unit)
      ρ :=
  fun rng => do
    let (n, rng) ← (PackingBatch.new tx).makeNode nthInvRoot nextU64 config rng
    some (.ok ((n.toNodeFields, n.priority), ([], .ok ())), rng)

/-- The `update` closure of `PackingPool::replace`: the node takes the new batch (`mem::swap`)
    and the old batch's transactions are returned. -/
def replaceUpdate (config : PackingPoolConfig) (batch : PackingBatch TX) :
    UpdateFn S Nat (PackingBatch TX) PackingPoolWeight Empty (List TX) :=
  fun node => do
    let oldInfo ← node.value.packInfo
    let newInfo ← batch.packInfo
    let (f, o) ← makeApplyOutcome nthInvRoot oldInfo newInfo
      { node.toNodeFields with value := batch } config node.value.txs
    some (f, .ok o)

/-- The `insert` closure of `PackingPool::replace`: the node of the new batch. -/
def replaceVacant (config : PackingPoolConfig) (batch : PackingBatch TX) :
    InsertFn S Nat (PackingBatch TX) PackingPoolWeight Empty (List TX) ρ :=
  fun rng => do
    let (n, rng) ← batch.makeNode nthInvRoot nextU64 config rng
    some (.ok ((n.toNodeFields, n.priority), []), rng)

/-- The `update` closure of `PackingPool::split_off`: a batch with nothing left to keep is
    deleted. -/
def splitOffUpdate (config : PackingPoolConfig) (startNonce : Nat) (keepPrefix : Bool) :
    UpdateFn S Nat (PackingBatch TX) PackingPoolWeight Unit (List TX) :=
  fun node => do
    let oldInfo ← node.value.packInfo
    let (value, res) ← node.value.splitOffByNonce startNonce keepPrefix
    match res with
    | .error .shouldDelete =>
      let (value, o) := value.makeOutcomeOnDelete
      some ({ node.toNodeFields with value }, .ok o)
    | .ok out =>
      let newInfo ← value.packInfo
      let (f, o) ← makeApplyOutcome nthInvRoot oldInfo newInfo { node.toNodeFields with value }
        config out
      some (f, .ok o)

end Closures

/-! ## The pool -/

/-- `PackingPool`: the treap map and the configuration. -/
structure PackingPool (TX S ρ : Type) where
  treapMap : TreapMap S Nat (PackingBatch TX) PackingPoolWeight (SortKeys S) ρ
  config : PackingPoolConfig

namespace PackingPool

variable (nthInvRoot : Nat → Nat → Nat → Nat) (nextU64 : ρ → Nat × ρ)

/-- `PackingPool::new`, from the generator the treap map starts with. -/
def new (config : PackingPoolConfig) (rng : ρ) : PackingPool TX S ρ :=
  { treapMap := TreapMap.new (packingPoolMap TX) rng, config }

/-- `PackingPool::insert`. Its closures cannot fail, so the `unwrap` does not panic. -/
def insert (pool : PackingPool TX S ρ) (tx : TX) :
    Option (PackingPool TX S ρ × List TX × Except InsertError Unit) := do
  let (treapMap, res) ← TreapMap.update (packingPoolMap TX) nextU64 pool.treapMap
    (PackingPoolTransaction.sender tx) (insertUpdate nthInvRoot pool.config tx)
    (insertVacant nthInvRoot nextU64 pool.config tx)
  match res with
  | .ok r => some ({ pool with treapMap }, r)
  | .error e => nomatch e

/-- `PackingPool::replace`: the batch of its sender is swapped for `batch`. -/
def replace (pool : PackingPool TX S ρ) (batch : PackingBatch TX) :
    Option (PackingPool TX S ρ × List TX) := do
  let sender ← batch.sender
  let (treapMap, res) ← TreapMap.update (packingPoolMap TX) nextU64 pool.treapMap sender
    (replaceUpdate nthInvRoot pool.config batch) (replaceVacant nthInvRoot nextU64 pool.config batch)
  match res with
  | .ok r => some ({ pool with treapMap }, r)
  | .error e => nomatch e

/-- `PackingPool::split_off`. The insert closure fails at once for a sender the pool does not
    hold, and `unwrap_or` turns that into no transactions. -/
def splitOff (pool : PackingPool TX S ρ) (sender : S) (startNonce : Nat) (keepPrefix : Bool) :
    Option (PackingPool TX S ρ × List TX) := do
  let (treapMap, res) ← TreapMap.update (packingPoolMap TX) nextU64 pool.treapMap sender
    (splitOffUpdate nthInvRoot pool.config startNonce keepPrefix) fun rng => some (.error (), rng)
  some ({ pool with treapMap }, match res with
    | .ok r => r
    | .error () => [])

/-- `PackingPool::split_off_suffix`. -/
def splitOffSuffix (pool : PackingPool TX S ρ) (sender : S) (startNonce : Nat) :
    Option (PackingPool TX S ρ × List TX) :=
  pool.splitOff nthInvRoot nextU64 sender startNonce true

/-- `PackingPool::split_off_prefix`. -/
def splitOffPrefix (pool : PackingPool TX S ρ) (sender : S) (startNonce : Nat) :
    Option (PackingPool TX S ρ × List TX) :=
  pool.splitOff nthInvRoot nextU64 sender startNonce false

/-- `PackingPool::remove`: everything from nonce `0` on. -/
def remove (pool : PackingPool TX S ρ) (sender : S) : Option (PackingPool TX S ρ × List TX) :=
  pool.splitOffSuffix nthInvRoot nextU64 sender 0

end PackingPool

/-! ## What the closures write -/

section Outcome

variable {nthInvRoot : Nat → Nat → Nat → Nat}

omit [PackingPoolTransaction TX S] [DecidableEq S] [Ord S] in
/-- `make_apply_outcome` never deletes and never writes the sender, the batch or
    `min_gas_price`; a node it does not move keeps its sort key, and one it asks no new weight
    for keeps its weight. -/
theorem makeApplyOutcome_eq_some {T : Type} {oldInfo newInfo : PackInfo}
    {node f : PoolFields TX S} {config : PackingPoolConfig} {out : T} {o : ApplyOpOutcome T}
    (h : makeApplyOutcome nthInvRoot oldInfo newInfo node config out = some (f, o)) :
    o.out = out ∧ o.deleteItem = false ∧ f.key = node.key ∧ f.value = node.value ∧
      f.weight.minGasPrice = node.weight.minGasPrice ∧
      (o.updateKey = false → f.sortKey = node.sortKey ∧
        (o.updateWeight = false → f.weight = node.weight)) := by
  unfold makeApplyOutcome at h
  split at h
  · simp only [Option.bind_eq_bind, Option.bind_eq_some_iff, Option.some.injEq,
      Prod.mk.injEq] at h
    obtain ⟨lr, -, rfl, rfl⟩ := h
    simp
  · split at h <;> simp only [Option.some.injEq, Prod.mk.injEq] at h <;>
      obtain ⟨rfl, rfl⟩ := h <;> simp

omit [PackingPoolTransaction TX S] [DecidableEq S] [Ord S] in
variable (nthInvRoot) in
/-- An update closure that never fails and, unless it deletes the node, ends in
    `make_apply_outcome` on the node with a new batch, is honest. -/
theorem honestUpdate_of_outcome {E T : Type}
    {update : UpdateFn S Nat (PackingBatch TX) PackingPoolWeight E T}
    (herr : ∀ n f err, update n ≠ some (f, .error err))
    (hok : ∀ n f o, update n = some (f, .ok o) → o.deleteItem = true ∨
      ∃ oldInfo newInfo value config out, makeApplyOutcome nthInvRoot oldInfo newInfo
        { n.toNodeFields with value } config out = some (f, o)) :
    HonestUpdate update where
  error n f err h := absurd h (herr n f err)
  key n f o h hk hdi := by
    rcases hok n f o h with hd | ⟨oldInfo, newInfo, value, config, out, hm⟩
    · rw [hd] at hdi
      cases hdi
    · obtain ⟨-, -, hkey, -, -, hkept⟩ := makeApplyOutcome_eq_some hm
      have hsort := (hkept hk).1
      simp only [NodeFields.treapKey, Node.treapKey, hkey, hsort]
  weight n f o h hw hk hdi := by
    rcases hok n f o h with hd | ⟨oldInfo, newInfo, value, config, out, hm⟩
    · rw [hd] at hdi
      cases hdi
    · exact ((makeApplyOutcome_eq_some hm).2.2.2.2.2 hk).2 hw

omit [Ord S] in
theorem honestUpdate_insertUpdate (config : PackingPoolConfig) (tx : TX) :
    HonestUpdate (insertUpdate nthInvRoot config tx) := by
  refine honestUpdate_of_outcome nthInvRoot (fun _ _ err _ => nomatch err) fun n f o h => .inr ?_
  simp only [insertUpdate, Option.bind_eq_bind, Option.bind_eq_some_iff] at h
  obtain ⟨oldInfo, -, ⟨value, out⟩, -, h⟩ := h
  simp only at h
  obtain ⟨newInfo, -, ⟨f', o'⟩, hm, h⟩ := h
  simp only [Option.some.injEq, Prod.mk.injEq, Except.ok.injEq] at h
  obtain ⟨rfl, rfl⟩ := h
  exact ⟨oldInfo, newInfo, value, config, out, hm⟩

omit [DecidableEq S] [Ord S] in
theorem honestUpdate_replaceUpdate (config : PackingPoolConfig) (batch : PackingBatch TX) :
    HonestUpdate (replaceUpdate nthInvRoot config batch) := by
  refine honestUpdate_of_outcome nthInvRoot (fun _ _ err _ => nomatch err) fun n f o h => .inr ?_
  simp only [replaceUpdate, Option.bind_eq_bind, Option.bind_eq_some_iff] at h
  obtain ⟨oldInfo, -, newInfo, -, ⟨f', o'⟩, hm, h⟩ := h
  simp only [Option.some.injEq, Prod.mk.injEq, Except.ok.injEq] at h
  obtain ⟨rfl, rfl⟩ := h
  exact ⟨oldInfo, newInfo, batch, config, _, hm⟩

omit [DecidableEq S] [Ord S] in
theorem honestUpdate_splitOffUpdate (config : PackingPoolConfig) (startNonce : Nat)
    (keepPrefix : Bool) :
    HonestUpdate (splitOffUpdate nthInvRoot config startNonce keepPrefix :
      UpdateFn S Nat (PackingBatch TX) PackingPoolWeight Unit (List TX)) := by
  -- both paths of the closure end in `Ok`: a deletion or `make_apply_outcome`
  have hcases : ∀ (n : PoolNode TX S) f out,
      splitOffUpdate nthInvRoot config startNonce keepPrefix n = some (f, out) → ∃ o, out = .ok o ∧ (o.deleteItem = true ∨ ∃ oldInfo newInfo value out',
        makeApplyOutcome nthInvRoot oldInfo newInfo { n.toNodeFields with value } config out' =
          some (f, o)) := by
    intro n f out h
    simp only [splitOffUpdate, Option.bind_eq_bind, Option.bind_eq_some_iff] at h
    obtain ⟨oldInfo, -, ⟨value, res⟩, -, h⟩ := h
    rcases res with ⟨⟩ | out'
    · simp only [PackingBatch.makeOutcomeOnDelete, Option.some.injEq, Prod.mk.injEq] at h
      obtain ⟨rfl, rfl⟩ := h
      exact ⟨_, rfl, .inl rfl⟩
    · simp only [Option.bind_eq_some_iff] at h
      obtain ⟨newInfo, -, ⟨f', o'⟩, hm, h⟩ := h
      simp only [Option.some.injEq, Prod.mk.injEq] at h
      obtain ⟨rfl, rfl⟩ := h
      exact ⟨o', rfl, .inr ⟨oldInfo, newInfo, value, out', hm⟩⟩
  refine honestUpdate_of_outcome nthInvRoot (fun n f err h => ?_) fun n f o h => ?_
  · obtain ⟨o, ho, -⟩ := hcases n f _ h
    cases ho
  · obtain ⟨o', ho, hc⟩ := hcases n f _ h
    cases ho
    rcases hc with hd | ⟨oldInfo, newInfo, value, out, hm⟩
    · exact .inl hd
    · exact .inr ⟨oldInfo, newInfo, value, config, out, hm⟩

omit [Ord S] in
/-- At a node whose batch starts one nonce above `tx` at a lower gas price, the insert closure
    puts `tx` alone in the batch and asks to move the node to the new price, with every field of
    its weight rewritten but `min_gas_price`. -/
theorem insertUpdate_of_prepend_higher {config : PackingPoolConfig} {tx : TX} {m : PoolNode TX S}
    {x : PoolFields TX S} (hm : m.toNodeFields = x)
    (hs : x.value.sender = some (PackingPoolTransaction.sender tx))
    (hnonce : x.value.startNonce = some (nonce tx + 1)) {p : Nat}
    (hp : x.value.firstGasPrice = some p) (hprice : p < gasPrice tx)
    (hlarge : nonce tx < u256Max - 1) {lr : Nat}
    (hlr : config.lossRatio nthInvRoot (gasPrice tx) = some lr) :
    insertUpdate nthInvRoot config tx m = some
      ({ x with
          value := PackingBatch.new tx, sortKey := gasPrice tx,
          weight := { x.weight with
            maxLossRatio := lr, gasLimit := gasLimit tx, weightedLossRatio := gasLimit tx * lr } },
        .ok
          { out := (x.value.txs, .ok ()), updateWeight := true, updateKey := true,
            deleteItem := false }) := by
  subst hm
  have hold : m.value.packInfo = some ⟨p, m.value.totalGasLimit⟩ := by
    simp [PackingBatch.packInfo, hp]
  have hnew : (PackingBatch.new tx).packInfo = some ⟨gasPrice tx, gasLimit tx⟩ := rfl
  simp [insertUpdate, hold, PackingBatch.insert_of_prepend_higher config hs hnonce hp hprice hlarge,
    hnew, makeApplyOutcome, hprice.ne, hlr]

end Outcome

/-- The invariant claimed of every node of a pool: the sort key is the batch's first gas price,
    the ext map gives the sender that price, the weight is the one `make_node` computes, and the
    batch keeps its constraints. -/
structure NodeOk (nthInvRoot : Nat → Nat → Nat → Nat) (config : PackingPoolConfig)
    (sortKeys : SortKeys S) (n : PoolNode TX S) : Prop where
  sortKey : n.value.firstGasPrice = some n.sortKey
  extMap : sortKeys.lookup n.key = some n.sortKey
  weight : ∃ lossRatio, config.lossRatio nthInvRoot n.sortKey = some lossRatio ∧
    n.weight =
      { gasLimit := n.value.totalGasLimit, minGasPrice := n.sortKey,
        weightedLossRatio := lossRatio * n.value.totalGasLimit, maxLossRatio := lossRatio }
  batch : BatchOk n.value

omit [Ord S] in
theorem NodeOk.minGasPrice_eq {nthInvRoot : Nat → Nat → Nat → Nat} {config : PackingPoolConfig}
    {sortKeys : SortKeys S} {n : PoolNode TX S} (h : NodeOk nthInvRoot config sortKeys n) :
    n.weight.minGasPrice = n.sortKey := by
  obtain ⟨lr, -, hw⟩ := h.weight
  rw [hw]

/-! ## Runs of the pool are runs of its treap map -/

namespace PackingPool

variable {nthInvRoot : Nat → Nat → Nat → Nat} {nextU64 : ρ → Nat × ρ}

theorem insert_eq_some {pool pool' : PackingPool TX S ρ} {tx : TX}
    {r : List TX × Except InsertError Unit}
    (h : pool.insert nthInvRoot nextU64 tx = some (pool', r)) :
    pool'.config = pool.config ∧
      TreapMap.update (packingPoolMap TX) nextU64 pool.treapMap (PackingPoolTransaction.sender tx)
        (insertUpdate nthInvRoot pool.config tx) (insertVacant nthInvRoot nextU64 pool.config tx) =
        some (pool'.treapMap, .ok r) := by
  simp only [PackingPool.insert, Option.bind_eq_bind, Option.bind_eq_some_iff] at h
  obtain ⟨⟨m, res⟩, hm, h⟩ := h
  rcases res with e | r'
  · exact e.elim
  · simp only [Option.some.injEq, Prod.mk.injEq] at h
    obtain ⟨rfl, rfl⟩ := h
    exact ⟨rfl, hm⟩

theorem replace_eq_some {pool pool' : PackingPool TX S ρ} {batch : PackingBatch TX}
    {r : List TX} (h : pool.replace nthInvRoot nextU64 batch = some (pool', r)) :
    ∃ sender, batch.sender = some sender ∧ pool'.config = pool.config ∧
      TreapMap.update (packingPoolMap TX) nextU64 pool.treapMap sender
        (replaceUpdate nthInvRoot pool.config batch)
        (replaceVacant nthInvRoot nextU64 pool.config batch) = some (pool'.treapMap, .ok r) := by
  simp only [PackingPool.replace, Option.bind_eq_bind, Option.bind_eq_some_iff] at h
  obtain ⟨sender, hs, ⟨m, res⟩, hm, h⟩ := h
  rcases res with e | r'
  · exact e.elim
  · simp only [Option.some.injEq, Prod.mk.injEq] at h
    obtain ⟨rfl, rfl⟩ := h
    exact ⟨sender, hs, rfl, hm⟩

theorem splitOff_eq_some {pool pool' : PackingPool TX S ρ} {sender : S} {startNonce : Nat}
    {keepPrefix : Bool} {r : List TX}
    (h : pool.splitOff nthInvRoot nextU64 sender startNonce keepPrefix = some (pool', r)) :
    pool'.config = pool.config ∧ ∃ res, TreapMap.update (packingPoolMap TX) nextU64 pool.treapMap
      sender (splitOffUpdate nthInvRoot pool.config startNonce keepPrefix)
      (fun rng => some (.error (), rng)) = some (pool'.treapMap, res) := by
  simp only [PackingPool.splitOff, Option.bind_eq_bind, Option.bind_eq_some_iff,
    Option.some.injEq, Prod.mk.injEq] at h
  obtain ⟨⟨m, res⟩, hm, rfl, -⟩ := h
  exact ⟨rfl, res, hm⟩

variable (nthInvRoot nextU64) in
/-- The pools a run of `new`, then `insert`, `replace` and `split_off` (which `remove`,
    `split_off_suffix` and `split_off_prefix` are) reaches without a panic. -/
inductive Reachable : PackingPool TX S ρ → Prop where
  | new (config : PackingPoolConfig) (rng : ρ) : Reachable (PackingPool.new config rng)
  | insert {pool pool' : PackingPool TX S ρ} {tx : TX} {r : List TX × Except InsertError Unit} :
      Reachable pool → pool.insert nthInvRoot nextU64 tx = some (pool', r) → Reachable pool'
  | replace {pool pool' : PackingPool TX S ρ} {batch : PackingBatch TX} {r : List TX} :
      Reachable pool → pool.replace nthInvRoot nextU64 batch = some (pool', r) → Reachable pool'
  | splitOff {pool pool' : PackingPool TX S ρ} {sender : S} {startNonce : Nat}
      {keepPrefix : Bool} {r : List TX} : Reachable pool →
      pool.splitOff nthInvRoot nextU64 sender startNonce keepPrefix = some (pool', r) →
      Reachable pool'

/-- Every run of the pool is a run of its treap map with honest closures. -/
theorem Reachable.treapMap {pool : PackingPool TX S ρ} (hp : Reachable nthInvRoot nextU64 pool) :
    Mazze.Treap.Reachable (packingPoolMap TX) nextU64 pool.treapMap := by
  induction hp with
  | new config rng => exact .new rng
  | insert _ h ih => exact .update ih (honestUpdate_insertUpdate _ _) (insert_eq_some h).2
  | replace _ h ih =>
    obtain ⟨sender, -, -, hu⟩ := replace_eq_some h
    exact .update ih (honestUpdate_replaceUpdate _ _) hu
  | splitOff _ h ih =>
    obtain ⟨-, res, hu⟩ := splitOff_eq_some h
    exact .update ih (honestUpdate_splitOffUpdate _ _ _) hu

/-- `insert` of a transaction one nonce below a sender's batch at a higher gas price than the
    batch's first: on every reachable pool in which that sender's node satisfies the claimed
    invariant, the pool returns, and the node put back for the sender holds `tx` alone, at its
    gas price, but keeps the old first gas price as `min_gas_price`, so it no longer satisfies
    the invariant. -/
theorem insert_leaves_min_gas_price_stale [Std.TransOrd S] [Std.LawfulEqOrd S]
    {pool : PackingPool TX S ρ} (hp : Reachable nthInvRoot nextU64 pool) {n : PoolNode TX S}
    (hn : n ∈ pool.treapMap.root.toList)
    (hok : NodeOk nthInvRoot pool.config pool.treapMap.extMap n)
    (hsender : n.value.sender = some n.key) {tx : TX}
    (htx : PackingPoolTransaction.sender tx = n.key)
    (hnonce : n.value.startNonce = some (nonce tx + 1)) (hprice : n.sortKey < gasPrice tx)
    (hlarge : nonce tx < u256Max - 1)
    (hloss : (pool.config.lossRatio nthInvRoot (gasPrice tx)).isSome) :
    ∃ pool' r, pool.insert nthInvRoot nextU64 tx = some (pool', r) ∧
      ∃ n' ∈ pool'.treapMap.root.toList, n'.key = n.key ∧ n'.value = PackingBatch.new tx ∧
        n'.weight.minGasPrice = n.sortKey ∧
        ¬ NodeOk nthInvRoot pool'.config pool'.treapMap.extMap n' := by
  obtain ⟨lr, hlr⟩ := Option.isSome_iff_exists.mp hloss
  have hsk : (packingPoolMap TX).extMap.getSortKey pool.treapMap.extMap
      (PackingPoolTransaction.sender tx) = some n.sortKey := by
    rw [htx]
    exact hok.extMap
  have hkey : n.treapKey = (n.sortKey, PackingPoolTransaction.sender tx) := by
    rw [htx]
    rfl
  -- at the sender's node the closure puts `tx` alone in the batch and asks to move the node
  obtain ⟨m', hupd, n', hn', e, hfields⟩ :=
    update_moves_node nextU64 (insertVacant nthInvRoot nextU64 pool.config tx)
      (honestUpdate_insertUpdate _ _) hp.treapMap.inv.sorted hsk hn hkey
      (fun m hm => insertUpdate_of_prepend_higher hm (htx ▸ hsender) hnonce hok.sortKey hprice
        hlarge hlr) rfl rfl
  refine ⟨{ pool with treapMap := m' }, (n.value.txs, .ok ()), ?_, n', hn', ?_⟩
  · simp only [PackingPool.insert, hupd, Option.bind_eq_bind, Option.bind_some]
  -- the node put back has the weight of the old one but for the patched fields
  have hmin := hok.minGasPrice_eq
  refine ⟨by simp [hfields], by simp [hfields], by simp [hfields, hmin], fun hok' => ?_⟩
  have hsk' := hok'.sortKey
  have hmin' := hok'.minGasPrice_eq
  simp [hfields, packingPoolMap, packingPoolExtMap, PackingBatch.new,
    PackingBatch.firstGasPrice] at hsk' hmin'
  omega

end PackingPool

/-! ## Two inserts that leave `min_gas_price` stale -/

/-- A configuration whose loss ratio needs no `nth_inv_root`. -/
def degreeOneConfig : PackingPoolConfig :=
  { addressGasLimit := 3000000, addressTxCount := 20, lossRatioDegree := 1 }

/-- Sender `1`'s transaction of nonce `1` at gas price `1`. -/
def laterTx : MockTransaction :=
  { id := 0, sender := 1, nonce := 1, gasPrice := 1, gasLimit := 1 }

/-- Sender `1`'s transaction of nonce `0` at gas price `2`. -/
def earlierTx : MockTransaction :=
  { id := 1, sender := 1, nonce := 0, gasPrice := 2, gasLimit := 1 }

/-- The pool after `insert(laterTx)` on a new one. -/
def oneTxPool : PackingPool MockTransaction Nat Nat :=
  (((PackingPool.new degreeOneConfig 0).insert (fun _ _ _ => 0) countingRng laterTx).map
    Prod.fst).getD (PackingPool.new degreeOneConfig 0)

/-- The node of `oneTxPool`: the loss ratio of gas price `1` is `U256::MAX >> 128`. -/
def oneTxNode : PoolNode MockTransaction Nat :=
  Node.new 1 (PackingBatch.new laterTx) 1
    { gasLimit := 1, minGasPrice := 1, weightedLossRatio := (2 ^ 128 - 1) * 1,
      maxLossRatio := 2 ^ 128 - 1 } 1

theorem insert_leaves_min_gas_price_stale_at_oneTxPool :
    ∃ pool' r, oneTxPool.insert (fun _ _ _ => 0) countingRng earlierTx = some (pool', r) ∧
      ∃ n' ∈ pool'.treapMap.root.toList, n'.key = oneTxNode.key ∧
        n'.value = PackingBatch.new earlierTx ∧ n'.weight.minGasPrice = oneTxNode.sortKey ∧
        ¬ NodeOk (fun _ _ _ => 0) pool'.config pool'.treapMap.extMap n' :=
  PackingPool.insert_leaves_min_gas_price_stale
    (PackingPool.Reachable.insert (PackingPool.Reachable.new degreeOneConfig 0)
      (show (PackingPool.new degreeOneConfig 0).insert (fun _ _ _ => 0) countingRng laterTx =
        some (oneTxPool, ([], .ok ())) from rfl))
    (show oneTxNode ∈ oneTxPool.treapMap.root.toList by decide)
    ⟨rfl, rfl, ⟨_, rfl, rfl⟩, ⟨List.cons_ne_nil _ _, .singleton _, rfl⟩⟩ rfl rfl rfl (by decide)
    (by decide) rfl

end Mazze.Packing
