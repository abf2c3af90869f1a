/-
  The timer chain and its accumulative lca list (`consensus_inner/mod.rs`,
  `compute_timer_chain_tuple`, `update_timer_chain`, `compute_block_force_confirm`).

  `timer_chain_accumulative_lca[j]` is the force-confirm point after `j + β + 1` timer
  blocks (`β = timer_chain_beta`): the era genesis for `j ≤ β - 2`, and from `j = β - 1` on the
  lca `W_j` of the window `timer_chain[j-β+1..=j]` when it is higher than the entry before,
  else the entry before. `accumulativeLca` is that definition, computed from scratch; it is
  what the extend path of `update_timer_chain` appends, entry by entry
  (`extendAccumulativeLca_eq`).

  When the new timer block's past view forks the chain, `update_timer_chain` splices in the
  entries `compute_timer_chain_tuple` recomputes. Its first loop writes the era genesis for
  every window end `end < β`, one index further than the definition and than its own second
  loop, which tests `fork_at_index + i + 1 < β`.

  `update_timer_chain_extend`: the extend path keeps the list equal to the definition.

  Block heights and the link-cut-tree `lca` are read from the consensus graph; they are the
  fields of `TimerCtx`. The fork index and the chain of the past view are what the first half
  of `compute_timer_chain_tuple` computes from the graph; the functions here take them as
  arguments.
-/
import Mazze.Forest.Path
import Mathlib

namespace Mazze.Consensus

/-- `NULL`: the arena index of no block (`usize::MAX`). -/
def null : Nat := 18446744073709551615

/-- What the timer-chain code reads of `ConsensusGraphInner`: the era genesis, the parameter
    `timer_chain_beta`, block heights and the link-cut tree's `lca` (`NULL` across trees). -/
structure TimerCtx where
  curEraGenesis : Nat
  timerChainBeta : Nat
  height : Nat → Nat
  lca : Nat → Nat → Nat

/-- The timer-chain fields of `ConsensusGraphInner`. -/
structure TimerChainState where
  timerChain : List Nat
  timerChainAccumulativeLca : List Nat
  deriving DecidableEq, Repr

variable (ctx : TimerCtx)

/-- The inner loops `for j in lo..hi { if lca == NULL { break; } lca = self.lca(lca, c[j]); }`
    started from `start`. -/
def lcaFold (chain : List Nat) (start lo hi : Nat) : Nat :=
  (List.range' lo (hi - lo)).foldl
    (fun l j => if l = null then null else ctx.lca l (chain.getD j 0)) start

/-- `if lca != NULL && height[last_lca] < height[lca] { last_lca = lca }`. -/
def advance (last l : Nat) : Nat :=
  if l ≠ null ∧ ctx.height last < ctx.height l then l else last

/-! ## The definition from scratch -/

/-- `W_j`: the lca of `chain[j-β+1..=j]`, started from `chain[j]` and folded over the earlier
    entries in order, as the extend path folds it. -/
def windowLca (chain : List Nat) (j : Nat) : Nat :=
  lcaFold ctx chain (chain.getD j 0) (j + 1 - ctx.timerChainBeta) j

/-- Entry `j` of the accumulative lca list given the entry before it. -/
def accEntry (chain : List Nat) (prev j : Nat) : Nat :=
  if j + 2 ≤ ctx.timerChainBeta then ctx.curEraGenesis
  else advance ctx prev (windowLca ctx chain j)

/-- `acc[j]`, with `acc[-1]` the era genesis. -/
def accAt (chain : List Nat) : Nat → Nat
  | 0 => accEntry ctx chain ctx.curEraGenesis 0
  | j + 1 => accEntry ctx chain (accAt chain j) (j + 1)

/-- The accumulative lca list of a timer chain, from scratch: `chain.length - β` entries. -/
def accumulativeLca (chain : List Nat) : List Nat :=
  (List.range (chain.length - ctx.timerChainBeta)).map (accAt ctx chain)

/-! ## The code -/

/-- The first loop of the accumulative-lca half of `compute_timer_chain_tuple`: the entries
    whose windows lie in the old chain but past its old list. -/
def forkPrefixLca (s : TimerChainState) (forkAtIndex : Nat) (tmpChain : List Nat) :
    List Nat :=
  let β := ctx.timerChainBeta
  let c := s.timerChain
  let lo := max c.length β
  let hi := forkAtIndex + min tmpChain.length β
  ((List.range' lo (hi - lo)).foldl
    (fun (st : Nat × List Nat) i =>
      let last := st.1
      let out := st.2
      let wEnd := i - β
      if wEnd < β then (last, out ++ [ctx.curEraGenesis])
      else
        let last := advance ctx last (lcaFold ctx c (c.getD wEnd 0) (wEnd - β + 1) wEnd)
        (last, out ++ [last]))
    (s.timerChainAccumulativeLca.getLastD ctx.curEraGenesis, [])).2

/-- The second loop: the entries whose windows end in the new part `tmp_chain`. -/
def forkSuffixLca (s : TimerChainState) (forkAtIndex : Nat) (tmpChain : List Nat)
    (lastLca : Nat) : List Nat :=
  let β := ctx.timerChainBeta
  let c := s.timerChain
  ((List.range (tmpChain.length - β)).foldl
    (fun (st : Nat × List Nat) i =>
      let last := st.1
      let out := st.2
      if forkAtIndex + i + 1 < β then (last, out ++ [ctx.curEraGenesis])
      else
        let lo := if i < β - 1 then 0 else i + 1 - β
        let l := lcaFold ctx tmpChain (tmpChain.getD i 0) lo i
        let l := lcaFold ctx c l (forkAtIndex + i + 1 - β) forkAtIndex
        let last := advance ctx last l
        (last, out ++ [last]))
    (lastLca, [])).2

/-- The accumulative-lca half of `compute_timer_chain_tuple` (`tmp_lca`), for the fork index
    and past-view chain computed by its first half. -/
def computeTimerChainTupleLca (s : TimerChainState) (forkAtIndex : Nat)
    (tmpChain : List Nat) : List Nat :=
  let β := ctx.timerChainBeta
  let c := s.timerChain
  let tmpLca :=
    if tmpChain.length > c.length - forkAtIndex ∧ c.length - forkAtIndex < β then
      forkPrefixLca ctx s forkAtIndex tmpChain
    else []
  if tmpChain.length > β then
    let lastLca :=
      match tmpLca.getLast? with
      | some l => l
      | none =>
        if forkAtIndex = 0 then ctx.curEraGenesis
        else s.timerChainAccumulativeLca.getD (forkAtIndex - 1) 0
    tmpLca ++ forkSuffixLca ctx s forkAtIndex tmpChain lastLca
  else tmpLca

/-- `Vec::resize(n, 0)`. -/
def resizeZero (xs : List Nat) (n : Nat) : List Nat :=
  xs.take n ++ List.replicate (n - xs.length) 0

/-- The extend path of `update_timer_chain`, on the chain with the new block pushed. -/
def extendAccumulativeLca (chain acc : List Nat) : List Nat :=
  let β := ctx.timerChainBeta
  if chain.length ≥ 2 * β then
    let s := chain.length - 2 * β
    let e := chain.length - β
    let l := lcaFold ctx chain (chain.getD (e - 1) 0) s (e - 1)
    acc ++ [advance ctx (acc.getLastD ctx.curEraGenesis) l]
  else if chain.length > β then acc ++ [ctx.curEraGenesis]
  else acc

/-- `update_timer_chain` on the timer-chain fields, for a new block `me` whose past view forks
    the chain at `forkAtIndex` with the chain `tmpChain` beyond it; `meIsTimer` is
    `is_timer && !partial_invalid`. -/
def updateTimerChain (s : TimerChainState) (forkAtIndex : Nat) (tmpChain : List Nat)
    (me : Nat) (meIsTimer : Bool) : TimerChainState :=
  let extraLca := computeTimerChainTupleLca ctx s forkAtIndex tmpChain
  let chain := s.timerChain.take forkAtIndex ++ tmpChain
  let newSize :=
    if chain.length > ctx.timerChainBeta then chain.length - ctx.timerChainBeta else 0
  let acc := resizeZero s.timerChainAccumulativeLca newSize
  let acc := acc.take (newSize - extraLca.length) ++ extraLca
  if meIsTimer then
    ⟨chain ++ [me], extendAccumulativeLca ctx (chain ++ [me]) acc⟩
  else ⟨chain, acc⟩

/-- `compute_block_force_confirm` for a past view with fork index `forkAtIndex`, chain
    `tmpChain` and recomputed entries `extraLca`. -/
def computeBlockForceConfirm (s : TimerChainState) (forkAtIndex : Nat) (tmpChain extraLca : List Nat) :
    Nat :=
  let forkEndIndex := forkAtIndex + tmpChain.length
  match extraLca.getLast? with
  | some x => x
  | none =>
    if forkEndIndex > ctx.timerChainBeta then
      s.timerChainAccumulativeLca.getD (forkEndIndex - ctx.timerChainBeta - 1) 0
    else ctx.curEraGenesis

/-! ## The extend path keeps the definition -/

theorem lcaFold_congr {c c' : List Nat} {start lo hi : Nat}
    (h : ∀ j, lo ≤ j → j < hi → c.getD j 0 = c'.getD j 0) :
    lcaFold ctx c start lo hi = lcaFold ctx c' start lo hi := by
  unfold lcaFold
  apply List.foldl_ext
  intro l j hj
  rw [List.mem_range'_1] at hj
  rw [h j hj.1 (by omega)]

/-- A window that ends inside the chain does not see what is appended after it. -/
theorem windowLca_append {c : List Nat} {j : Nat} (x : Nat) (hj : j < c.length) :
    windowLca ctx (c ++ [x]) j = windowLca ctx c j := by
  unfold windowLca
  rw [List.getD_append _ _ _ _ hj]
  exact lcaFold_congr ctx fun i _ hi => List.getD_append _ _ _ _ (by omega)

theorem accAt_append {c : List Nat} (x : Nat) :
    ∀ {j : Nat}, j < c.length → accAt ctx (c ++ [x]) j = accAt ctx c j
  | 0, hj => by simp only [accAt, accEntry, windowLca_append ctx x hj]
  | j + 1, hj => by
    simp only [accAt, accEntry, windowLca_append ctx x hj, accAt_append x (Nat.lt_of_succ_lt hj)]

/-- Entries up to `β - 2` are the era genesis. -/
theorem accAt_of_add_two_le {c : List Nat} {j : Nat} (hj : j + 2 ≤ ctx.timerChainBeta) :
    accAt ctx c j = ctx.curEraGenesis := by
  cases j <;> simp only [accAt, accEntry, if_pos hj]

/-- From `β - 1` on, an entry advances the entry before it (the era genesis before the first)
    to the window lca. -/
theorem accAt_of_lt_add_two {c : List Nat} {j : Nat} (hj : ctx.timerChainBeta < j + 2) :
    accAt ctx c j =
      advance ctx (if j = 0 then ctx.curEraGenesis else accAt ctx c (j - 1)) (windowLca ctx c j) := by
  cases j <;> simp only [accAt, accEntry, if_neg (Nat.not_le.mpr hj)] <;> rfl

theorem accumulativeLca_append (c : List Nat) (x : Nat) :
    accumulativeLca ctx (c ++ [x]) =
      accumulativeLca ctx c ++
        if ctx.timerChainBeta ≤ c.length then
          [accAt ctx (c ++ [x]) (c.length - ctx.timerChainBeta)]
        else [] := by
  unfold accumulativeLca
  split
  · have hlen : (c ++ [x]).length - ctx.timerChainBeta = (c.length - ctx.timerChainBeta) + 1 := by
      simp only [List.length_append, List.length_singleton]; omega
    rw [hlen, List.range_succ, List.map_append, List.map_singleton]
    congr 1
    apply List.map_congr_left
    intro j hj
    rw [List.mem_range] at hj
    exact accAt_append ctx x (by omega)
  · have hlen : (c ++ [x]).length - ctx.timerChainBeta = 0 := by
      simp only [List.length_append, List.length_singleton]; omega
    rw [hlen, show c.length - ctx.timerChainBeta = 0 by omega]
    rfl

theorem getLastD_accumulativeLca {c : List Nat} {j : Nat} (hj : j + 1 = c.length - ctx.timerChainBeta)
    (d : Nat) : (accumulativeLca ctx c).getLastD d = accAt ctx c j := by
  unfold accumulativeLca
  rw [← hj, List.range_succ, List.map_append, List.map_singleton, List.getLastD_eq_getLast?,
    List.getLast?_append_of_ne_nil _ (List.cons_ne_nil _ _)]
  rfl

/-- The extend path of `update_timer_chain` appends exactly the next entry of the
    definition. -/
theorem extendAccumulativeLca_eq (c : List Nat) (x : Nat) :
    extendAccumulativeLca ctx (c ++ [x]) (accumulativeLca ctx c) =
      accumulativeLca ctx (c ++ [x]) := by
  rw [accumulativeLca_append]
  unfold extendAccumulativeLca
  simp only [List.length_append, List.length_singleton]
  by_cases hlong : c.length + 1 ≥ 2 * ctx.timerChainBeta
  · -- a full window: the new entry advances the last one to `W_n`
    rw [if_pos hlong, if_pos (by omega)]
    congr 2
    set n := c.length - ctx.timerChainBeta with hn
    have hwin : lcaFold ctx (c ++ [x]) ((c ++ [x]).getD (c.length + 1 - ctx.timerChainBeta - 1) 0)
        (c.length + 1 - 2 * ctx.timerChainBeta) (c.length + 1 - ctx.timerChainBeta - 1) =
        windowLca ctx (c ++ [x]) n := by
      unfold windowLca
      rw [show c.length + 1 - ctx.timerChainBeta - 1 = n by omega,
        show c.length + 1 - 2 * ctx.timerChainBeta = n + 1 - ctx.timerChainBeta by omega]
    rw [hwin, accAt_of_lt_add_two ctx (by omega)]
    congr 1
    rcases Nat.eq_zero_or_pos n with h0 | hpos
    · have hnil : accumulativeLca ctx c = [] := by
        unfold accumulativeLca
        rw [← hn, h0]
        rfl
      rw [if_pos h0, hnil]
      rfl
    · rw [if_neg (by omega), getLastD_accumulativeLca ctx (j := n - 1) (by omega),
        accAt_append ctx x (by omega)]
  · rw [if_neg hlong]
    by_cases hbeta : c.length + 1 > ctx.timerChainBeta
    · -- a window that starts before the chain: the era genesis
      rw [if_pos hbeta, if_pos (by omega), accAt_of_add_two_le ctx (by omega)]
    · rw [if_neg hbeta, if_neg (by omega), List.append_nil]

/-- `update_timer_chain` on a block that extends the chain (its past view forks at the end,
    with nothing beyond) keeps the accumulative lca list equal to the definition. -/
theorem update_timer_chain_extend (s : TimerChainState) (me : Nat)
    (hs : s.timerChainAccumulativeLca = accumulativeLca ctx s.timerChain) :
    updateTimerChain ctx s s.timerChain.length [] me true =
      ⟨s.timerChain ++ [me], accumulativeLca ctx (s.timerChain ++ [me])⟩ := by
  have hextra : computeTimerChainTupleLca ctx s s.timerChain.length [] = [] := by
    simp [computeTimerChainTupleLca]
  have hlen : (accumulativeLca ctx s.timerChain).length =
      s.timerChain.length - ctx.timerChainBeta := by
    simp [accumulativeLca]
  have hsize : (if s.timerChain.length > ctx.timerChainBeta then
      s.timerChain.length - ctx.timerChainBeta else 0) =
      s.timerChain.length - ctx.timerChainBeta := by
    split <;> omega
  simp only [updateTimerChain, hextra, List.take_length, List.append_nil, hsize,
    List.length_nil, Nat.sub_zero, if_true]
  rw [hs, resizeZero, List.take_of_length_le (Nat.le_of_eq hlen), hlen, Nat.sub_self,
    List.replicate_zero, List.append_nil, List.take_of_length_le (Nat.le_of_eq hlen),
    extendAccumulativeLca_eq]

/-- A chain of blocks `0 ← 1 ← 2 ← ⋯`, block `i` at height `i`, with `β = 2` and the tree's
    lca. -/
def chainParent : Nat → Option Nat
  | 0 => none
  | n + 1 => some n

def chainCtx : TimerCtx := ⟨0, 2, id, fun u v => (Forest.lca chainParent 8 u v).getD null⟩

/-- On that chain the list for `[1, 2, 3, 4]` is `[0, 1]`, and block `5` extends it. -/
theorem update_timer_chain_extend_on_chain :
    (⟨[1, 2, 3, 4], [0, 1]⟩ : TimerChainState).timerChainAccumulativeLca =
        accumulativeLca chainCtx [1, 2, 3, 4] ∧
      updateTimerChain chainCtx ⟨[1, 2, 3, 4], [0, 1]⟩ 4 [] 5 true =
        ⟨[1, 2, 3, 4] ++ [5], accumulativeLca chainCtx ([1, 2, 3, 4] ++ [5])⟩ :=
  ⟨by decide, update_timer_chain_extend chainCtx ⟨[1, 2, 3, 4], [0, 1]⟩ 5 (by decide)⟩

end Mazze.Consensus
