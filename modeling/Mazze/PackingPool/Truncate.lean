/-
  `PackingPool::truncate_loss_ratio` (`pool.rs`): the loss ratio at which the random packing of a
  block of gas limit `block_gas_limit` is cut.

  The treap search walks one path from the root, looking for the first prefix of the pool whose
  sum `can_sample` rejects. It finds it because rejection is for good along the pool: a sum that
  cannot be sampled stays so when a node is added, as long as that node's weighted loss ratio is
  at most its loss ratio times its gas and the sum of the weighted loss ratios fits in a `U256`
  (`canSample_of_consolidate`). The first holds of every node of a reachable pool
  (`Reachable.lossWeightOk`), whatever the order of the loss ratios; the second is what
  `PackingPoolWeight::consolidate` would otherwise panic on, and is taken as a hypothesis. The
  search then gives what the linear scan over the batches in order gives
  (`truncateLossRatio_eq_scanLossRatio`), and never ends in `Abort` or `LeftMost`.
-/
import Mazze.PackingPool.Pool
import Mazze.TreapMap.Query

namespace Mazze.Packing

open Mazze.Treap BinaryTree

variable {TX S ρ : Type} [PackingPoolTransaction TX S] [DecidableEq S] [Ord S]

/-! ## The model -/

/-- `U256::saturating_mul`. -/
def u256SaturatingMul (a b : Nat) : Nat := min (a * b) u256Max

/-- `can_sample`: a prefix of the pool of weight `weight` can be sampled in a block of gas limit
    `gasLimit` when it fits, or when its loss ratio times the gas it exceeds the block by stays
    below its weighted loss ratio. -/
def canSample (weight : PackingPoolWeight) (gasLimit : Nat) : Bool :=
  if weight.gasLimit ≤ gasLimit then true
  else decide (u256SaturatingMul weight.maxLossRatio (weight.gasLimit - gasLimit) <
    weight.weightedLossRatio)

/-- The search closure of `truncate_loss_ratio`. -/
def truncateSearch (blockGasLimit : Nat) (leftWeight : PackingPoolWeight) (node : PoolNode TX S) :
    SearchDirection PackingPoolWeight :=
  if !canSample leftWeight blockGasLimit then .left
  else
    let rightWeight := consolidate leftWeight node.weight
    if !canSample rightWeight blockGasLimit then .stop else .right rightWeight

/-- `PackingPool::truncate_loss_ratio`. -/
def PackingPool.truncateLossRatio (pool : PackingPool TX S ρ) (blockGasLimit : Nat) :
    Option Nat :=
  match pool.treapMap.search (truncateSearch blockGasLimit) with
  | some (.found baseWeight _) | some (.rightMost baseWeight) =>
    if baseWeight.gasLimit > blockGasLimit then
      some (baseWeight.weightedLossRatio / (baseWeight.gasLimit - blockGasLimit))
    else none
  | _ => none

/-! ## The linear scan -/

/-- The weight the linear scan gives a batch: its gas, the loss ratio of its first gas price
    weighted by that gas, and the loss ratio. -/
def batchLossWeight (nthInvRoot : Nat → Nat → Nat → Nat) (config : PackingPoolConfig)
    (b : PackingBatch TX) : Option PackingPoolWeight := do
  let p ← b.firstGasPrice
  let lossRatio ← config.lossRatio nthInvRoot p
  let weight : PackingPoolWeight :=
    { gasLimit := b.totalGasLimit, minGasPrice := p,
      weightedLossRatio := lossRatio * b.totalGasLimit, maxLossRatio := lossRatio }
  some weight

/-- The linear scan over the batches in order: the sum of the longest prefix whose running sums
    can all be sampled, and the ratio that sum gives. `none` when a batch is empty or its first
    gas price has no loss ratio. -/
def scanLossRatio (nthInvRoot : Nat → Nat → Nat → Nat) (config : PackingPoolConfig)
    (batches : List (PackingBatch TX)) (blockGasLimit : Nat) : Option (Option Nat) := do
  let ws ← batches.mapM (batchLossWeight nthInvRoot config)
  let s := prefixScan (canSample · blockGasLimit) ConsoliableWeight.empty ws
  some (if s.gasLimit > blockGasLimit then
    some (s.weightedLossRatio / (s.gasLimit - blockGasLimit)) else none)

/-! ## What `can_sample` reads -/

/-- Two weights with the same gas, weighted loss ratio and loss ratio: all that `can_sample` and
    `truncate_loss_ratio` read. -/
def LossEq (a b : PackingPoolWeight) : Prop :=
  a.gasLimit = b.gasLimit ∧ a.weightedLossRatio = b.weightedLossRatio ∧
    a.maxLossRatio = b.maxLossRatio

theorem lossEq_consolidate {a a' c c' : PackingPoolWeight} (ha : LossEq a a') (hc : LossEq c c') :
    LossEq (consolidate a c) (consolidate a' c') := by
  obtain ⟨h₁, h₂, h₃⟩ := ha
  obtain ⟨h₄, h₅, h₆⟩ := hc
  exact ⟨by simp [consolidate, h₁, h₄], by simp [consolidate, h₂, h₅], by simp [consolidate, h₃, h₆]⟩

theorem canSample_congr {a a' : PackingPoolWeight} (h : LossEq a a') (gasLimit : Nat) :
    canSample a gasLimit = canSample a' gasLimit := by
  obtain ⟨h₁, h₂, h₃⟩ := h
  simp only [canSample, h₁, h₂, h₃]

@[simp] theorem canSample_empty (gasLimit : Nat) :
    canSample ConsoliableWeight.empty gasLimit = true := by
  simp [canSample, ConsoliableWeight.empty]

/-- `PackingPoolWeight::consolidate` is associative and commutative. -/
theorem commWeight_packingPoolWeight : CommWeight PackingPoolWeight where
  assoc a b c := by
    simp only [consolidate, PackingPoolWeight.mk.injEq]
    exact ⟨Nat.add_assoc .., min_assoc .., Nat.add_assoc .., max_assoc ..⟩
  comm a b := by
    simp only [consolidate, PackingPoolWeight.mk.injEq]
    exact ⟨Nat.add_comm .., min_comm .., Nat.add_comm .., max_comm ..⟩

theorem canSample_eq_true_iff {weight : PackingPoolWeight} {gasLimit : Nat} :
    canSample weight gasLimit = true ↔ weight.gasLimit ≤ gasLimit ∨
      min (weight.maxLossRatio * (weight.gasLimit - gasLimit)) u256Max <
        weight.weightedLossRatio := by
  unfold canSample u256SaturatingMul
  split <;> simp_all

/-- A sum that cannot be sampled stays so with a node added whose weighted loss ratio is at most
    its loss ratio times its gas, as long as the sum's weighted loss ratio fits in a `U256`. The
    node's loss ratio need not dominate the sum's. -/
theorem canSample_of_consolidate {a x : PackingPoolWeight} {gasLimit : Nat}
    (hx : x.weightedLossRatio ≤ x.maxLossRatio * x.gasLimit)
    (hfit : a.weightedLossRatio + x.weightedLossRatio ≤ u256Max)
    (h : canSample (consolidate a x) gasLimit = true) : canSample a gasLimit = true := by
  rw [canSample_eq_true_iff] at h ⊢
  by_contra ha
  -- `a` is over the block, and its loss ratio times the excess reaches its weighted loss ratio
  have hover : gasLimit < a.gasLimit := by omega
  have hreach : a.weightedLossRatio ≤ a.maxLossRatio * (a.gasLimit - gasLimit) := by omega
  -- then so does the sum's, with the larger loss ratio, as the node's gas is in the excess
  simp only [consolidate] at h
  set m := max a.maxLossRatio x.maxLossRatio
  have hexcess : a.gasLimit + x.gasLimit - gasLimit = (a.gasLimit - gasLimit) + x.gasLimit := by
    omega
  have hm : a.weightedLossRatio + x.weightedLossRatio ≤
      m * (a.gasLimit + x.gasLimit - gasLimit) :=
    calc a.weightedLossRatio + x.weightedLossRatio
        ≤ a.maxLossRatio * (a.gasLimit - gasLimit) + x.maxLossRatio * x.gasLimit :=
          Nat.add_le_add hreach hx
      _ ≤ m * (a.gasLimit - gasLimit) + m * x.gasLimit :=
          Nat.add_le_add (Nat.mul_le_mul_right _ (le_max_left _ _))
            (Nat.mul_le_mul_right _ (le_max_right _ _))
      _ = m * (a.gasLimit + x.gasLimit - gasLimit) := by rw [hexcess, Nat.mul_add]
  omega

/-! ## Rejection is for good along the pool -/

/-- Along weights whose weighted loss ratios are at most their loss ratio times their gas, with a
    total weighted loss ratio that fits in a `U256`, a sum that cannot be sampled stays so. -/
theorem prefixClosed_canSample (gasLimit : Nat) {b : PackingPoolWeight}
    {ws : List PackingPoolWeight}
    (hw : ∀ w ∈ ws, w.weightedLossRatio ≤ w.maxLossRatio * w.gasLimit)
    (hfit : b.weightedLossRatio + (ws.map PackingPoolWeight.weightedLossRatio).sum ≤ u256Max) :
    PrefixClosed (canSample · gasLimit) b ws := by
  induction ws generalizing b with
  | nil => trivial
  | cons w ws ih =>
    simp only [List.map_cons, List.sum_cons] at hfit
    refine ⟨canSample_of_consolidate (hw w (.head _)) (by omega), ih (fun v hv => hw v (.tail _ hv)) ?_⟩
    simp only [consolidate]
    omega

/-! ## What every node's weight says of its batch -/

/-- What a node's weight says of its batch in every reachable pool: the batch's gas, and the loss
    ratio of its first gas price, weighted by that gas. `min_gas_price` is left out: it goes stale
    (`insert_leaves_min_gas_price_stale`). -/
structure LossWeightOk (nthInvRoot : Nat → Nat → Nat → Nat) (config : PackingPoolConfig)
    (b : PackingBatch TX) (w : PackingPoolWeight) : Prop where
  gasLimit : w.gasLimit = b.totalGasLimit
  maxLossRatio : ∃ p, b.firstGasPrice = some p ∧ config.lossRatio nthInvRoot p = some w.maxLossRatio
  weightedLossRatio : w.weightedLossRatio = w.maxLossRatio * w.gasLimit

section LossWeight

variable {nthInvRoot : Nat → Nat → Nat → Nat} {config : PackingPoolConfig}

omit [DecidableEq S] [Ord S] in
theorem PackingBatch.packInfo_eq_some {b : PackingBatch TX} {i : PackInfo}
    (h : b.packInfo = some i) :
    b.firstGasPrice = some i.firstGasPrice ∧ b.totalGasLimit = i.totalGasLimit := by
  simp only [PackingBatch.packInfo, Option.map_eq_some_iff] at h
  obtain ⟨p, hp, rfl⟩ := h
  exact ⟨hp, rfl⟩

omit [DecidableEq S] [Ord S] in
/-- A node's weight is what the linear scan gives its batch, but for `min_gas_price`. -/
theorem LossWeightOk.batchLossWeight {b : PackingBatch TX} {w : PackingPoolWeight}
    (h : LossWeightOk nthInvRoot config b w) :
    ∃ w', batchLossWeight nthInvRoot config b = some w' ∧ LossEq w w' := by
  obtain ⟨p, hp, hlr⟩ := h.maxLossRatio
  refine ⟨{ gasLimit := b.totalGasLimit, minGasPrice := p,
             weightedLossRatio := w.maxLossRatio * b.totalGasLimit,
             maxLossRatio := w.maxLossRatio },
    by simp [Packing.batchLossWeight, hp, hlr], h.gasLimit, ?_, rfl⟩
  rw [h.weightedLossRatio, h.gasLimit]

omit [DecidableEq S] [Ord S] in
theorem mapM_batchLossWeight {xs : List (PoolNode TX S)}
    (h : ∀ x ∈ xs, LossWeightOk nthInvRoot config x.value x.weight) :
    ∃ ws, (xs.map (·.value)).mapM (Packing.batchLossWeight nthInvRoot config) = some ws ∧
      List.Forall₂ LossEq (xs.map (·.weight)) ws := by
  induction xs with
  | nil => exact ⟨[], rfl, .nil⟩
  | cons x xs ih =>
    obtain ⟨w, hw, hxw⟩ := (h x (.head _)).batchLossWeight
    obtain ⟨ws, hws, hall⟩ := ih fun y hy => h y (.tail _ hy)
    exact ⟨w :: ws, by simp [List.mapM_cons, hw, hws], .cons hxw hall⟩

omit [DecidableEq S] [Ord S] in
/-- `make_apply_outcome` on a node whose weight was right for its old batch gives a weight right
    for the new batch: a new first gas price rewrites the loss ratio, a new gas keeps it. -/
theorem makeApplyOutcome_lossWeightOk {T : Type} {oldInfo newInfo : PackInfo}
    {old : PackingBatch TX} {node f : PoolFields TX S} {out : T} {o : ApplyOpOutcome T}
    (h : makeApplyOutcome nthInvRoot oldInfo newInfo node config out = some (f, o))
    (hq : LossWeightOk nthInvRoot config old node.weight) (hold : old.packInfo = some oldInfo)
    (hnew : node.value.packInfo = some newInfo) :
    LossWeightOk nthInvRoot config f.value f.weight := by
  obtain ⟨hfp, hgas⟩ := PackingBatch.packInfo_eq_some hnew
  obtain ⟨hfp₀, hgas₀⟩ := PackingBatch.packInfo_eq_some hold
  -- the loss ratio of the old weight is that of the new batch's first gas price when it is kept
  have hkept : oldInfo.firstGasPrice = newInfo.firstGasPrice →
      ∃ p, node.value.firstGasPrice = some p ∧
        config.lossRatio nthInvRoot p = some node.weight.maxLossRatio := by
    intro hsame
    obtain ⟨p, hp, hlr⟩ := hq.maxLossRatio
    rw [hfp₀, Option.some.injEq] at hp
    exact ⟨p, by rw [hfp, ← hsame, hp], hlr⟩
  unfold makeApplyOutcome at h
  split at h
  · -- a new first gas price: every field but `min_gas_price` is rewritten
    simp only [Option.bind_eq_bind, Option.bind_eq_some_iff, Option.some.injEq,
      Prod.mk.injEq] at h
    obtain ⟨lr, hlr, rfl, rfl⟩ := h
    exact ⟨hgas.symm, ⟨_, hfp, hlr⟩, Nat.mul_comm _ _⟩
  · rename_i hsame
    have hsame : oldInfo.firstGasPrice = newInfo.firstGasPrice := not_not.mp hsame
    split at h
    · -- a new gas at the same price: the loss ratio is kept
      simp only [Option.some.injEq, Prod.mk.injEq] at h
      obtain ⟨rfl, rfl⟩ := h
      exact ⟨hgas.symm, hkept hsame, Nat.mul_comm _ _⟩
    · rename_i hgas'
      simp only [Option.some.injEq, Prod.mk.injEq] at h
      obtain ⟨rfl, rfl⟩ := h
      exact ⟨by rw [hq.gasLimit, hgas₀, not_not.mp hgas', hgas], hkept hsame, hq.weightedLossRatio⟩

omit [DecidableEq S] [Ord S] in
theorem makeNode_lossWeightOk {nextU64 : ρ → Nat × ρ} {b : PackingBatch TX} {rng rng' : ρ}
    {n : PoolNode TX S} (h : b.makeNode nthInvRoot nextU64 config rng = some (n, rng')) :
    LossWeightOk nthInvRoot config n.value n.weight := by
  simp only [PackingBatch.makeNode, Option.bind_eq_bind, Option.bind_eq_some_iff,
    Option.some.injEq, Prod.mk.injEq] at h
  obtain ⟨key, -, p, hp, lr, hlr, rfl, -⟩ := h
  exact ⟨rfl, ⟨p, hp, hlr⟩, rfl⟩

omit [Ord S] in
theorem insertUpdate_lossWeightOk {tx : TX} {n : PoolNode TX S} {f : PoolFields TX S}
    {o : ApplyOpOutcome (List TX × Except InsertError Unit)}
    (hq : LossWeightOk nthInvRoot config n.value n.weight)
    (h : insertUpdate nthInvRoot config tx n = some (f, .ok o)) :
    LossWeightOk nthInvRoot config f.value f.weight := by
  simp only [insertUpdate, Option.bind_eq_bind, Option.bind_eq_some_iff] at h
  obtain ⟨oldInfo, hold, ⟨value, out⟩, -, h⟩ := h
  obtain ⟨newInfo, hnew, ⟨f', o'⟩, hm, h⟩ := h
  simp only [Option.some.injEq, Prod.mk.injEq, Except.ok.injEq] at h
  obtain ⟨rfl, rfl⟩ := h
  exact makeApplyOutcome_lossWeightOk hm hq hold hnew

omit [DecidableEq S] [Ord S] in
theorem replaceUpdate_lossWeightOk {batch : PackingBatch TX} {n : PoolNode TX S}
    {f : PoolFields TX S} {o : ApplyOpOutcome (List TX)}
    (hq : LossWeightOk nthInvRoot config n.value n.weight)
    (h : replaceUpdate nthInvRoot config batch n = some (f, .ok o)) :
    LossWeightOk nthInvRoot config f.value f.weight := by
  simp only [replaceUpdate, Option.bind_eq_bind, Option.bind_eq_some_iff] at h
  obtain ⟨oldInfo, hold, newInfo, hnew, ⟨f', o'⟩, hm, h⟩ := h
  simp only [Option.some.injEq, Prod.mk.injEq, Except.ok.injEq] at h
  obtain ⟨rfl, rfl⟩ := h
  exact makeApplyOutcome_lossWeightOk hm hq hold hnew

omit [DecidableEq S] [Ord S] in
theorem splitOffUpdate_lossWeightOk {startNonce : Nat} {keepPrefix : Bool} {n : PoolNode TX S}
    {f : PoolFields TX S} {o : ApplyOpOutcome (List TX)}
    (hq : LossWeightOk nthInvRoot config n.value n.weight)
    (h : splitOffUpdate nthInvRoot config startNonce keepPrefix n = some (f, .ok o))
    (hdel : o.deleteItem = false) : LossWeightOk nthInvRoot config f.value f.weight := by
  simp only [splitOffUpdate, Option.bind_eq_bind, Option.bind_eq_some_iff] at h
  obtain ⟨oldInfo, hold, ⟨value, res⟩, -, h⟩ := h
  rcases res with ⟨⟩ | out
  · -- the batch is emptied and the node deleted
    simp only [PackingBatch.makeOutcomeOnDelete, Option.some.injEq, Prod.mk.injEq,
      Except.ok.injEq] at h
    obtain ⟨-, rfl⟩ := h
    cases hdel
  · simp only [Option.bind_eq_some_iff] at h
    obtain ⟨newInfo, hnew, ⟨f', o'⟩, hm, h⟩ := h
    simp only [Option.some.injEq, Prod.mk.injEq, Except.ok.injEq] at h
    obtain ⟨rfl, rfl⟩ := h
    exact makeApplyOutcome_lossWeightOk hm hq hold hnew

end LossWeight

namespace PackingPool

variable {nthInvRoot : Nat → Nat → Nat → Nat} {nextU64 : ρ → Nat × ρ}

/-- In every reachable pool each node's weight is right for its batch, but for
    `min_gas_price`. -/
theorem Reachable.lossWeightOk [Std.TransOrd S] [Std.LawfulEqOrd S] {pool : PackingPool TX S ρ}
    (hp : Reachable nthInvRoot nextU64 pool) :
    ∀ x ∈ entries pool.treapMap.root, LossWeightOk nthInvRoot pool.config x.value x.weight := by
  induction hp with
  | new config rng => nofun
  | @insert pool pool' tx r hp h ih =>
    obtain ⟨hc, hu⟩ := insert_eq_some h
    rw [hc]
    refine update_fields (fun v w => LossWeightOk nthInvRoot pool.config v w)
      (honestUpdate_insertUpdate _ _) hp.treapMap.inv ih
      (fun n f o hq hf _ => insertUpdate_lossWeightOk hq hf) (fun g f p ret g' hf => ?_) hu
    simp only [insertVacant, Option.bind_eq_bind, Option.bind_eq_some_iff] at hf
    obtain ⟨⟨m, g''⟩, hm, hf⟩ := hf
    simp only [Option.some.injEq, Prod.mk.injEq, Except.ok.injEq] at hf
    obtain ⟨⟨⟨rfl, -⟩, -⟩, -⟩ := hf
    exact makeNode_lossWeightOk hm
  | @replace pool pool' batch r hp h ih =>
    obtain ⟨sender, -, hc, hu⟩ := replace_eq_some h
    rw [hc]
    refine update_fields (fun v w => LossWeightOk nthInvRoot pool.config v w)
      (honestUpdate_replaceUpdate _ _) hp.treapMap.inv ih
      (fun n f o hq hf _ => replaceUpdate_lossWeightOk hq hf) (fun g f p ret g' hf => ?_) hu
    simp only [replaceVacant, Option.bind_eq_bind, Option.bind_eq_some_iff] at hf
    obtain ⟨⟨m, g''⟩, hm, hf⟩ := hf
    simp only [Option.some.injEq, Prod.mk.injEq, Except.ok.injEq] at hf
    obtain ⟨⟨⟨rfl, -⟩, -⟩, -⟩ := hf
    exact makeNode_lossWeightOk hm
  | @splitOff pool pool' sender startNonce keepPrefix r hp h ih =>
    obtain ⟨hc, res, hu⟩ := splitOff_eq_some h
    rw [hc]
    -- the insert closure of `split_off` never inserts
    exact update_fields (fun v w => LossWeightOk nthInvRoot pool.config v w)
      (honestUpdate_splitOffUpdate _ _ _) hp.treapMap.inv ih
      (fun n f o hq hf hdel => splitOffUpdate_lossWeightOk hq hf hdel)
      (fun g f p ret g' hf => by cases hf) hu

omit [PackingPoolTransaction TX S] [DecidableEq S] [Ord S] in
/-- `truncate_loss_ratio` reads the base weight of the search's result. -/
theorem truncateLossRatio_of_search {pool : PackingPool TX S ρ} {blockGasLimit : Nat}
    {r : SearchResult S Nat (PackingBatch TX) PackingPoolWeight PackingPoolWeight}
    (h : pool.treapMap.search (truncateSearch blockGasLimit) = some r) {w : PackingPoolWeight}
    (hw : r.baseWeight = some w) :
    pool.truncateLossRatio blockGasLimit = if w.gasLimit > blockGasLimit then
      some (w.weightedLossRatio / (w.gasLimit - blockGasLimit)) else none := by
  unfold truncateLossRatio
  rw [h]
  cases r <;> simp only [SearchResult.baseWeight, reduceCtorEq, Option.some.injEq] at hw
  all_goals subst hw; rfl

/-- `truncate_loss_ratio` refines the linear scan: on every reachable pool whose weighted loss
    ratios sum within a `U256`, it gives the ratio of the longest prefix of the batches, in the
    pool's order, whose running sums can all be sampled; and on a pool with a node the search
    ends at a node or past the last one, never in `Abort` or `LeftMost`. -/
theorem truncateLossRatio_eq_scanLossRatio [Std.TransOrd S] [Std.LawfulEqOrd S]
    {pool : PackingPool TX S ρ} (hp : Reachable nthInvRoot nextU64 pool)
    (hfit : (pool.treapMap.iter.map (·.weight.weightedLossRatio)).sum ≤ u256Max)
    (blockGasLimit : Nat) :
    scanLossRatio nthInvRoot pool.config (pool.treapMap.iter.map (·.value)) blockGasLimit =
        some (pool.truncateLossRatio blockGasLimit) ∧
      (pool.treapMap.root ≠ nil → ∃ r, pool.treapMap.search (truncateSearch blockGasLimit) =
        some r ∧ r.baseWeight.isSome) := by
  set ok := (canSample · blockGasLimit)
  have hok : ∀ n ∈ pool.treapMap.iter, LossWeightOk nthInvRoot pool.config n.value n.weight :=
    fun n hn => hp.lossWeightOk _ (mem_entries_of_mem (iter_eq_toList pool.treapMap ▸ hn))
  obtain ⟨ws, hws, hrel⟩ := mapM_batchLossWeight hok
  have hweights : (entries pool.treapMap.root).map NodeFields.weight =
      pool.treapMap.iter.map (·.weight) := by
    simp [entries, iter_eq_toList]
  -- rejection is for good along the pool's weights, and the scan over them is the scan over `ws`
  have hclosed : PrefixClosed ok ConsoliableWeight.empty
      ((entries pool.treapMap.root).map NodeFields.weight) := by
    rw [hweights]
    refine prefixClosed_canSample blockGasLimit (fun w hw => ?_) ?_
    · obtain ⟨n, hn, rfl⟩ := List.mem_map.mp hw
      exact (hok n hn).weightedLossRatio.le
    · simpa [List.map_map, Function.comp_def, ConsoliableWeight.empty] using hfit
  have hscan := prefixScan_rel ok LossEq (fun _ _ _ _ => lossEq_consolidate)
    (fun _ _ h => canSample_congr h blockGasLimit)
    (show LossEq ConsoliableWeight.empty ConsoliableWeight.empty from ⟨rfl, rfl, rfl⟩) hrel
  rw [← hweights] at hscan
  obtain ⟨hgas, hwlr, -⟩ := hscan
  simp only [scanLossRatio, hws, Option.bind_eq_bind, Option.bind_some]
  rw [← hgas, ← hwlr]
  have hsums := hp.treapMap.inv.sums
  cases hroot : pool.treapMap.root with
  | nil =>
    -- an empty pool: nothing is found and nothing is scanned
    refine ⟨?_, fun h => absurd rfl h⟩
    simp [truncateLossRatio, TreapMap.search, hroot, prefixScan, ConsoliableWeight.empty]
  | node n l r =>
    rw [hroot] at hsums hclosed
    obtain ⟨res, hres, hbase⟩ := accumulateWeightSearch_prefixSearch ok
      commWeight_packingPoolWeight hsums (canSample_empty blockGasLimit) hclosed
    have hsearch : pool.treapMap.search (truncateSearch blockGasLimit) = some res := by
      simp only [TreapMap.search, hroot]
      exact hres
    refine ⟨by rw [truncateLossRatio_of_search hsearch hbase], fun _ => ⟨res, hsearch, ?_⟩⟩
    rw [hbase]
    rfl

end PackingPool

/-- Sender `2`'s transaction of nonce `0` at gas price `3` and gas limit `2`. -/
def otherSenderTx : MockTransaction :=
  { id := 2, sender := 2, nonce := 0, gasPrice := 3, gasLimit := 2 }

/-- `oneTxPool` after `insert(otherSenderTx)`: two senders, whose batches come in the order
    `2, 1` with gas limits `2` and `1`. -/
def twoSenderPool : PackingPool MockTransaction Nat Nat :=
  ((oneTxPool.insert (fun _ _ _ => 0) countingRng otherSenderTx).map Prod.fst).getD oneTxPool

/-- At block gas limit `2` the first batch fits and the two do not: the search stops inside the
    pool, and both sides are the loss ratio of the two batches over the one unit of gas too
    many. -/
theorem truncateLossRatio_eq_scanLossRatio_at_twoSenderPool :
    (twoSenderPool.treapMap.iter.map (·.weight.weightedLossRatio)).sum ≤ u256Max ∧
      twoSenderPool.truncateLossRatio 2 = some 567137278201564105772291012386280352425 ∧
      scanLossRatio (fun _ _ _ => 0) twoSenderPool.config
          (twoSenderPool.treapMap.iter.map (·.value)) 2 =
          some (twoSenderPool.truncateLossRatio 2) ∧
        (twoSenderPool.treapMap.root ≠ nil → ∃ r,
          twoSenderPool.treapMap.search (truncateSearch 2) = some r ∧ r.baseWeight.isSome) := by
  have hfit : (twoSenderPool.treapMap.iter.map (·.weight.weightedLossRatio)).sum ≤ u256Max := by
    rw [iter_eq_toList]
    decide
  have hone : PackingPool.Reachable (fun _ _ _ => 0) countingRng oneTxPool :=
    .insert (.new degreeOneConfig 0)
      (show (PackingPool.new degreeOneConfig 0).insert (fun _ _ _ => 0) countingRng laterTx =
        some (oneTxPool, ([], .ok ())) from rfl)
  have htwo : PackingPool.Reachable (fun _ _ _ => 0) countingRng twoSenderPool :=
    .insert hone (show oneTxPool.insert (fun _ _ _ => 0) countingRng otherSenderTx =
      some (twoSenderPool, ([], .ok ())) from rfl)
  exact ⟨hfit, by decide, PackingPool.truncateLossRatio_eq_scanLossRatio htwo hfit 2⟩

end Mazze.Packing
