/-
  `PackingBatch::insert` gives back every transaction it takes out and leaves a batch within its
  constraints (`packing_batch.rs`, `pool_config.rs`).

  Model. `BatchFits config b` is what is asked of a batch: `BatchOk` (what `assert_constraints`
  checks), at most `address_tx_count` transactions, and at most `address_gas_limit` gas once
  there is more than one. `check_acceptable_batch` is read through `AcceptablePrefix`: the length
  and the gas of a prefix within both bounds; a transaction that stands in at an index is the list
  with that slot `set` (`checkAcceptableBatch_some`).

  What is proved:
  * the loop of `check_acceptable_batch` returns an acceptable prefix, and returns at all when no
    sum overflows (`checkAcceptableBatch_spec`);
  * each arm of `insert` as an equation under its guard (`insert_of_restart`,
    `insert_of_prepend`, `insert_of_reject`, `insert_of_append`, and the four arms of
    `insertReplace`), and what each keeps;
  * `insert_conserves_and_fits_of_top`: for a batch that fits and a transaction of its sender
    below `U256::MAX - 1`, when no `U256` addition of `insert` overflows (`start_nonce + n_txs`
    fits, and `address_gas_limit` plus any gas limit fits in a `U256`), `insert` returns; the old
    transactions and `tx` are a permutation of what it gives back (with `tx` when it fails) and
    the new batch, and the new batch fits;
  * `Built.fits_top`: every batch `new` and `insert` build fits, and `start_nonce + n_txs` does
    not overflow in it, so that `insert_conserves_and_fits` needs of a built batch only room for
    the gas limits;
  * `insert_overflows_total_gas_limit`: without that room the append arm panics on a batch of
    one transaction, when `total_gas_limit += gas_limit` passes `U256::MAX`.
-/
import Mazze.PackingPool.Batch

namespace Mazze.Packing

section ListFacts

variable {α : Type}

theorem sum_take_le (xs : List Nat) (n : Nat) : (xs.take n).sum ≤ xs.sum := by
  have hsplit := List.take_append_drop n xs
  conv_rhs => rw [← hsplit]
  rw [List.sum_append]
  omega

theorem sum_take_mono (xs : List Nat) {j k : Nat} (h : j ≤ k) :
    (xs.take j).sum ≤ (xs.take k).sum := by
  have hj : xs.take j = (xs.take k).take j := by simp [List.take_take, Nat.min_eq_left h]
  rw [hj]
  exact sum_take_le _ _

/-- A chain stays a chain when one slot is set to a value related to both neighbours. -/
theorem isChain_set {R : α → α → Prop} {xs : List α} (hc : xs.IsChain R) {i : Nat} {t : α}
    (hprev : ∀ h : i - 1 < xs.length, 0 < i → R xs[i - 1] t)
    (hnext : ∀ h : i + 1 < xs.length, R t xs[i + 1]) : (xs.set i t).IsChain R := by
  rw [List.isChain_iff_getElem] at hc ⊢
  intro j hj
  simp only [List.length_set] at hj
  simp only [List.getElem_set]
  by_cases hji : i = j
  · subst hji
    simpa using hnext hj
  · by_cases hij : i = j + 1
    · subst hij
      simpa using hprev (by omega) (by omega)
    · simpa [hji, hij] using hc j hj

open List in
/-- Setting slot `i` to `t` and giving back what stood there keeps every element. -/
theorem perm_set_append {xs : List α} {i : Nat} {a t : α} (h : xs[i]? = some a) :
    (xs ++ [t]).Perm (a :: xs.set i t) := by
  obtain ⟨hi, rfl⟩ := List.getElem?_eq_some_iff.mp h
  have hdecomp : xs = xs.take i ++ xs[i] :: xs.drop (i + 1) := by
    conv_lhs => rw [← List.take_append_drop i xs]
    rw [List.drop_eq_getElem_cons hi]
  rw [List.set_eq_take_append_cons_drop, if_pos hi]
  calc xs ++ [t]
      _ = xs.take i ++ xs[i] :: (xs.drop (i + 1) ++ [t]) := by
        conv_lhs => rw [hdecomp]
        simp only [List.append_assoc, List.cons_append]
      _ ~ xs[i] :: (xs.take i ++ (xs.drop (i + 1) ++ [t])) := perm_middle
      _ ~ xs[i] :: (xs.take i ++ t :: xs.drop (i + 1)) :=
        .cons _ (.append_left _ (perm_append_singleton _ _))

open List in
/-- Cutting a list anywhere and moving its front behind the back keeps every element. -/
theorem perm_append_drop_take (xs : List α) (t : α) (i : Nat) :
    (xs ++ [t]).Perm (xs.drop i ++ [t] ++ xs.take i) := by
  conv_lhs => rw [← List.take_append_drop i xs]
  rw [List.append_assoc]
  exact perm_append_comm

open List in
/-- Setting slot `i` to `t`, giving back what stood there, and cutting the result anywhere
    keeps every element. -/
theorem perm_set_drop_take {xs : List α} {i : Nat} {a t : α} (h : xs[i]? = some a) (j : Nat) :
    (xs ++ [t]).Perm (a :: (xs.set i t).drop j ++ (xs.set i t).take j) := by
  refine (perm_set_append h).trans (.cons _ ?_)
  conv_lhs => rw [← List.take_append_drop j (xs.set i t)]
  exact perm_append_comm

end ListFacts

@[simp] theorem except_isOk_ok {ε α : Type} (a : α) : (Except.ok a : Except ε α).isOk = true := rfl

@[simp] theorem except_isOk_error {ε α : Type} (e : ε) :
    (Except.error e : Except ε α).isOk = false := rfl

theorem u256Add_of_le {a b : Nat} (h : a + b ≤ u256Max) : u256Add a b = some (a + b) := by
  simp [u256Add, h]

theorem u256SaturatingAdd_of_le {a b : Nat} (h : a + b ≤ u256Max) :
    u256SaturatingAdd a b = a + b := by
  simp [u256SaturatingAdd, h]

/-- With a bound `c` such that `c + b` is a `U256`, the `saturating_add` check against `c` fails
    exactly when the sum exceeds `c`. -/
theorem lt_saturatingAdd_iff {a b c : Nat} (ha : a ≤ u256Max) (hc : c + b ≤ u256Max) :
    c < u256SaturatingAdd a b ↔ c < a + b := by
  simp only [u256SaturatingAdd]
  omega

variable {TX S : Type} [PackingPoolTransaction TX S]

/-- The fold of `update_total_limit` returns the sum when the sum is a `U256`. -/
theorem foldlM_u256Add (f : TX → Nat) :
    ∀ (xs : List TX) (a : Nat), a + (xs.map f).sum ≤ u256Max →
      xs.foldlM (fun acc x => u256Add acc (f x)) a = some (a + (xs.map f).sum)
  | [], a, _ => by simp
  | x :: xs, a, h => by
    simp only [List.map_cons, List.sum_cons] at h
    have hx : u256Add a (f x) = some (a + f x) := u256Add_of_le (by omega)
    simp only [List.foldlM_cons, hx, Option.bind_eq_bind, Option.bind_some, List.map_cons,
      List.sum_cons]
    rw [foldlM_u256Add f xs (a + f x) (by omega)]
    simp only [Nat.add_assoc]

theorem updateTotalLimit_of_le {b : PackingBatch TX} (h : (b.txs.map gasLimit).sum ≤ u256Max) :
    b.updateTotalLimit = some { b with totalGasLimit := (b.txs.map gasLimit).sum } := by
  simp [PackingBatch.updateTotalLimit, foldlM_u256Add gasLimit b.txs 0 (by simpa using h)]

namespace PackingPoolConfig

variable (config : PackingPoolConfig)

/-- Past the index it stands in at, a replacing transaction changes nothing. -/
theorem checkAcceptableBatchFrom_of_lt {r : TX} {i : Nat} (xs : List TX) :
    ∀ {idx total : Nat}, i < idx →
      config.checkAcceptableBatchFrom (some (r, i)) idx total xs =
        config.checkAcceptableBatchFrom none idx total xs := by
  induction xs with
  | nil => intros; rfl
  | cons x xs ih =>
    intro idx total h
    have ih' : ∀ t, config.checkAcceptableBatchFrom (some (r, i)) (idx + 1) t xs =
        config.checkAcceptableBatchFrom none (idx + 1) t xs := fun t => ih (by omega)
    have hne : (idx == i) = false := by simp; omega
    simp only [checkAcceptableBatchFrom, Option.filter_some, hne, ih']
    simp

/-- Before the index it stands in at, a replacing transaction is the list with that slot set. -/
theorem checkAcceptableBatchFrom_of_le {r : TX} {i : Nat} (xs : List TX) :
    ∀ {idx total : Nat}, idx ≤ i →
      config.checkAcceptableBatchFrom (some (r, i)) idx total xs =
        config.checkAcceptableBatchFrom none idx total (xs.set (i - idx) r) := by
  induction xs with
  | nil => intros; rfl
  | cons x xs ih =>
    intro idx total h
    rcases Nat.lt_or_eq_of_le h with hlt | rfl
    · -- the slot is further on
      have ih' : ∀ t, config.checkAcceptableBatchFrom (some (r, i)) (idx + 1) t xs =
          config.checkAcceptableBatchFrom none (idx + 1) t (xs.set (i - (idx + 1)) r) :=
        fun t => ih (by omega)
      have hset : (x :: xs).set (i - idx) r = x :: xs.set (i - (idx + 1)) r := by
        obtain ⟨k, hk⟩ : ∃ k, i - idx = k + 1 := ⟨i - idx - 1, by omega⟩
        rw [hk, List.set_cons_succ]
        congr 2
        omega
      have hne : (idx == i) = false := by simp; omega
      simp only [checkAcceptableBatchFrom, Option.filter_some, hne, ih', hset]
      simp
    · -- this slot
      have htail : ∀ t, config.checkAcceptableBatchFrom (some (r, idx)) (idx + 1) t xs =
          config.checkAcceptableBatchFrom none (idx + 1) t xs :=
        fun t => checkAcceptableBatchFrom_of_lt config xs (by omega)
      simp [checkAcceptableBatchFrom, Option.filter_some, htail]

/-- `check_acceptable_batch` with a transaction standing in at an index reads the list with
    that slot set. -/
theorem checkAcceptableBatch_some (txs : List TX) (r : TX) (i : Nat) :
    config.checkAcceptableBatch txs (some (r, i)) =
      config.checkAcceptableBatch (txs.set i r) none := by
  simpa [checkAcceptableBatch] using checkAcceptableBatchFrom_of_le config txs (r := r)
    (Nat.zero_le i)

/-- The invariant of the loop of `check_acceptable_batch`: from index `idx` with `total`
    counted within `address_gas_limit` (nothing counted at index zero), it returns an index `k`
    from `idx` on, within the list and the count, with the gas of the slots from `idx` to `k`
    added, within `address_gas_limit` unless `k` is one; from index zero it takes at least one
    transaction. -/
theorem checkAcceptableBatchFrom_spec (ys : List TX) :
    ∀ {idx total k g : Nat}, config.checkAcceptableBatchFrom none idx total ys = some (k, g) →
      total ≤ config.addressGasLimit → (idx = 0 → total = 0) →
      idx ≤ k ∧ k ≤ idx + ys.length ∧ k ≤ max idx config.addressTxCount ∧
        g = total + ((ys.take (k - idx)).map gasLimit).sum ∧
        (g ≤ config.addressGasLimit ∨ k = 1) ∧
        (idx = 0 → 0 < config.addressTxCount → ys ≠ [] → 0 < k) := by
  induction ys with
  | nil =>
    intro idx total k g h htotal _
    simp only [checkAcceptableBatchFrom, Option.some.injEq, Prod.mk.injEq] at h
    obtain ⟨rfl, rfl⟩ := h
    exact ⟨le_rfl, by simp, le_max_left _ _, by simp, .inl htotal, by simp⟩
  | cons y ys ih =>
    intro idx total k g h htotal hzero
    simp only [checkAcceptableBatchFrom, Option.filter_none, Option.map_none,
      Option.getD_none] at h
    split at h
    · -- the count is reached
      simp only [Option.some.injEq, Prod.mk.injEq] at h
      obtain ⟨rfl, rfl⟩ := h
      simp [htotal]
      omega
    · obtain ⟨newTotal, hadd, h⟩ := Option.bind_eq_some_iff.mp h
      have hnew : newTotal = total + gasLimit y := by
        simp only [u256Add] at hadd
        split at hadd <;> simp_all
      subst hnew
      split at h
      · split at h
        · -- one transaction over `address_gas_limit`
          simp only [Option.some.injEq, Prod.mk.injEq] at h
          obtain ⟨rfl, rfl⟩ := h
          simp_all
          omega
        · simp only [Option.some.injEq, Prod.mk.injEq] at h
          obtain ⟨rfl, rfl⟩ := h
          simp [htotal]
          omega
      · obtain ⟨h1, h2, h3, h4, h5, -⟩ := ih h (by omega) (by omega)
        refine ⟨by omega, by simp; omega, by omega, ?_, h5, fun _ _ _ => by omega⟩
        obtain ⟨j, hj⟩ : ∃ j, k - idx = j + 1 := ⟨k - idx - 1, by omega⟩
        have hj' : k - (idx + 1) = j := by omega
        rw [h4, hj, hj', List.take_succ_cons, List.map_cons, List.sum_cons]
        omega

/-- When the bound plus any gas limit is a `U256`, no sum of the loop overflows. -/
theorem checkAcceptableBatchFrom_isSome {ys : List TX}
    (hgas : ∀ y ∈ ys, config.addressGasLimit + gasLimit y ≤ u256Max) :
    ∀ {idx total : Nat}, total ≤ config.addressGasLimit →
      (config.checkAcceptableBatchFrom none idx total ys).isSome := by
  induction ys with
  | nil => intros; rfl
  | cons y ys ih =>
    intro idx total htotal
    have hy := hgas y (by simp)
    simp only [checkAcceptableBatchFrom, Option.filter_none, Option.map_none, Option.getD_none,
      u256Add_of_le (show total + gasLimit y ≤ u256Max by omega), Option.bind_some]
    split
    · rfl
    · split
      · split <;> rfl
      · exact ih (fun y hy => hgas y (by simp [hy])) (by omega)

/-- What `check_acceptable_batch` returns for `txs`: the length `k` of a prefix within the list
    and within `address_tx_count`, not empty when neither bound is zero, and its gas `g`, within
    `address_gas_limit` unless the prefix is one transaction. -/
structure AcceptablePrefix (txs : List TX) (k g : Nat) : Prop where
  pos : 0 < config.addressTxCount → txs ≠ [] → 0 < k
  le_length : k ≤ txs.length
  le_count : k ≤ config.addressTxCount
  gas_eq : g = ((txs.take k).map gasLimit).sum
  gas_le : 1 < k → g ≤ config.addressGasLimit

/-- `check_acceptable_batch` returns an acceptable prefix, and returns at all when the bound
    plus any gas limit is a `U256`. -/
theorem checkAcceptableBatch_spec {txs : List TX}
    (hgas : ∀ t ∈ txs, config.addressGasLimit + gasLimit t ≤ u256Max) :
    ∃ k g, config.checkAcceptableBatch txs none = some (k, g) ∧
      config.AcceptablePrefix txs k g := by
  obtain ⟨⟨k, g⟩, h⟩ :=
    Option.isSome_iff_exists.mp (checkAcceptableBatchFrom_isSome config hgas (Nat.zero_le _))
  obtain ⟨-, hlen, hcount, hsum, hle, hpos⟩ :=
    checkAcceptableBatchFrom_spec config txs h (Nat.zero_le _) (fun _ => rfl)
  refine ⟨k, g, h, ⟨hpos rfl, by omega, by omega, by simpa using hsum, fun hk => ?_⟩⟩
  omega

end PackingPoolConfig

/-- What `assert_constraints` checks of two neighbours: one sender, the next nonce and no lower
    gas price. `BatchOk` asks it along the batch. -/
def Follows (x y : TX) : Prop :=
  PackingPoolTransaction.sender x = PackingPoolTransaction.sender y ∧ nonce x + 1 = nonce y ∧
    gasPrice x ≤ gasPrice y

/-- Along a chain of `Follows` every transaction has the first one's sender, and the nonce `i`
    past the first one's. -/
theorem follows_getElem {first : TX} {rest : List TX} (hc : (first :: rest).IsChain Follows) :
    ∀ (i : Nat) (hi : i < rest.length + 1),
      PackingPoolTransaction.sender (first :: rest)[i] = PackingPoolTransaction.sender first ∧
        nonce (first :: rest)[i] = nonce first + i
  | 0, _ => ⟨rfl, rfl⟩
  | i + 1, hi => by
    obtain ⟨hs, hn⟩ := follows_getElem hc i (by omega)
    obtain ⟨hs', hn', -⟩ := hc.getElem i (by simpa using hi)
    exact ⟨hs'.symm.trans hs, by omega⟩

section Slot

variable {first tx : TX} {rest : List TX} (hc : (first :: rest).IsChain Follows)
  (hs : PackingPoolTransaction.sender tx = PackingPoolTransaction.sender first)
include hc hs

/-- A transaction of the sender with the nonce after slot `i` follows that slot when it is priced
    at least as it. -/
theorem follows_into_slot {i : Nat} (hi : i < rest.length + 1)
    (hn : nonce tx = nonce first + i + 1) (hp : gasPrice (first :: rest)[i] ≤ gasPrice tx) :
    Follows (first :: rest)[i] tx := by
  obtain ⟨hsi, hni⟩ := follows_getElem hc i hi
  exact ⟨hsi.trans hs.symm, by omega, hp⟩

/-- Slot `i` follows a transaction of the sender with the nonce before it when priced at least
    as it. -/
theorem follows_out_of_slot {i : Nat} (hi : i < rest.length + 1)
    (hn : nonce tx + 1 = nonce first + i) (hp : gasPrice tx ≤ gasPrice (first :: rest)[i]) :
    Follows tx (first :: rest)[i] := by
  obtain ⟨hsi, hni⟩ := follows_getElem hc i hi
  exact ⟨hs.trans hsi.symm, by omega, hp⟩

/-- With `tx` in slot `idx`, the prefix up to `j` is a chain when `tx` is priced within its
    neighbours inside the prefix. -/
theorem isChain_take_set {idx j : Nat} (hn : nonce tx = nonce first + idx) (hij : idx < j)
    (hprev : ∀ p, (first :: rest)[idx - 1]? = some p → 0 < idx → gasPrice p ≤ gasPrice tx)
    (hnext : idx + 1 < j → ∀ p, (first :: rest)[idx + 1]? = some p → gasPrice tx ≤ gasPrice p) :
    (((first :: rest).set idx tx).take j).IsChain Follows := by
  rw [List.take_set]
  apply isChain_set (hc.take j)
  · intro h hpos
    simp only [List.length_take, List.length_cons] at h
    simp only [List.getElem_take]
    have hi : idx - 1 < rest.length + 1 := by omega
    exact follows_into_slot (i := idx - 1) hc hs hi (by omega)
      (hprev _ (List.getElem?_eq_getElem hi) hpos)
  · intro h
    simp only [List.length_take, List.length_cons] at h
    simp only [List.getElem_take]
    have hi : idx + 1 < rest.length + 1 := by omega
    exact follows_out_of_slot (i := idx + 1) hc hs hi (by omega)
      (hnext (by omega) _ (List.getElem?_eq_getElem hi))

end Slot

/-- The constraints on a batch under a configuration: `BatchOk`, at most `address_tx_count`
    transactions, and at most `address_gas_limit` gas once there is more than one. -/
structure BatchFits (config : PackingPoolConfig) (b : PackingBatch TX) : Prop extends BatchOk b where
  count : b.len ≤ config.addressTxCount
  gas : 1 < b.len → b.totalGasLimit ≤ config.addressGasLimit

section Fits

variable {config : PackingPoolConfig}

theorem batchFits_of_chain {xs : List TX} (hne : xs ≠ []) (hc : xs.IsChain Follows)
    (hcount : xs.length ≤ config.addressTxCount)
    (hgas : 1 < xs.length → (xs.map gasLimit).sum ≤ config.addressGasLimit) :
    BatchFits config { txs := xs, totalGasLimit := (xs.map gasLimit).sum } :=
  { nonempty := hne, chain := hc, total := rfl, count := hcount, gas := hgas }

/-- A batch of one transaction fits any configuration that allows one. -/
theorem batchFits_new (tx : TX) (h : 0 < config.addressTxCount) :
    BatchFits config (PackingBatch.new tx) := by
  simpa [PackingBatch.new] using
    batchFits_of_chain (List.cons_ne_nil tx []) (.singleton tx)
      (show [tx].length ≤ config.addressTxCount from h) (by simp)

variable {b : PackingBatch TX}

theorem BatchFits.count_pos (hb : BatchFits config b) : 0 < config.addressTxCount := by
  have hlen : 0 < b.txs.length := List.length_pos_iff.mpr hb.nonempty
  have := hb.count
  simp only [PackingBatch.len] at this
  omega

/-- A non-empty prefix of a batch that fits fits, with its gas summed again. -/
theorem BatchFits.take (hb : BatchFits config b) {j : Nat} (hj : 0 < j) :
    BatchFits config
      { txs := b.txs.take j, totalGasLimit := ((b.txs.take j).map gasLimit).sum } := by
  have hcount := hb.count
  have hgas := hb.gas
  simp only [PackingBatch.len] at hcount hgas
  refine batchFits_of_chain ?_ (hb.chain.take j) ?_ ?_
  · simpa [List.take_eq_nil_iff, hb.nonempty] using Nat.pos_iff_ne_zero.mp hj
  · simp only [List.length_take]
    omega
  · intro hlen
    have hlt : 1 < b.txs.length := by simp at hlen; omega
    calc ((b.txs.take j).map gasLimit).sum
        _ ≤ (b.txs.map gasLimit).sum := by rw [List.map_take]; exact sum_take_le _ _
        _ = b.totalGasLimit := hb.total.symm
        _ ≤ config.addressGasLimit := hgas hlt

/-- When the bound plus any gas limit is a `U256`, so is a fitting batch's total. -/
theorem BatchFits.total_le (hb : BatchFits config b)
    (hgas : ∀ t ∈ b.txs, config.addressGasLimit + gasLimit t ≤ u256Max) :
    b.totalGasLimit ≤ u256Max := by
  obtain ⟨first, rest, hxs⟩ := List.exists_cons_of_ne_nil hb.nonempty
  have hfirst := hgas first (by simp [hxs])
  by_cases hlen : 1 < b.len
  · have := hb.gas hlen
    omega
  · have hrest : rest = [] := by
      simp only [PackingBatch.len, hxs, List.length_cons] at hlen
      exact List.eq_nil_of_length_eq_zero (by omega)
    rw [hb.total, hxs, hrest]
    simpa using (by omega : gasLimit first ≤ u256Max)

section Prefix

variable {ys : List TX} {k g : Nat} (hacc : config.AcceptablePrefix ys k g)
include hacc

/-- A non-empty part of an acceptable prefix that is a chain fits. -/
theorem PackingPoolConfig.AcceptablePrefix.batchFits {j : Nat} (hj : 0 < j) (hjk : j ≤ k)
    (hc : (ys.take j).IsChain Follows) :
    BatchFits config { txs := ys.take j, totalGasLimit := ((ys.take j).map gasLimit).sum } := by
  have hlen : 0 < ys.length := by have := hacc.le_length; omega
  refine batchFits_of_chain ?_ hc ?_ ?_
  · simp only [ne_eq, List.take_eq_nil_iff, not_or]
    exact ⟨by omega, List.ne_nil_of_length_pos hlen⟩
  · simp only [List.length_take]
    have := hacc.le_count
    omega
  · intro hj1
    simp only [List.length_take] at hj1
    calc ((ys.take j).map gasLimit).sum
        _ ≤ ((ys.take k).map gasLimit).sum := by
          simp only [List.map_take]
          exact sum_take_mono _ hjk
        _ = g := hacc.gas_eq.symm
        _ ≤ config.addressGasLimit := hacc.gas_le (by omega)

/-- When the bound plus any gas limit is a `U256`, so is the gas of a non-empty part of an
    acceptable prefix. -/
theorem PackingPoolConfig.AcceptablePrefix.sum_take_le {j : Nat} (hj : 0 < j) (hjk : j ≤ k)
    (hgas : ∀ t ∈ ys, config.addressGasLimit + gasLimit t ≤ u256Max) :
    ((ys.take j).map gasLimit).sum ≤ u256Max := by
  have hlen : 0 < ys.length := by have := hacc.le_length; omega
  obtain ⟨y, ys', rfl⟩ := List.exists_cons_of_ne_nil (List.ne_nil_of_length_pos hlen)
  have hy := hgas y (by simp)
  by_cases hj1 : 1 < j
  · have hle : ((List.take j (y :: ys')).map gasLimit).sum ≤ g := by
      rw [hacc.gas_eq, List.map_take, List.map_take]
      exact sum_take_mono _ hjk
    have := hacc.gas_le (by omega)
    omega
  · obtain rfl : j = 1 := by omega
    simpa using (by omega : gasLimit y ≤ u256Max)

end Prefix

end Fits

namespace PackingBatch

/-! ### The arms of `insert`

Each arm as an equation under its guard, for a batch `first :: rest` and a transaction of its
sender below `U256::MAX - 1`. -/

section Arms

variable [DecidableEq S] {config : PackingPoolConfig} {b : PackingBatch TX} {tx first : TX}
  {rest : List TX}
  (hb : b.txs = first :: rest)
  (hs : PackingPoolTransaction.sender tx = PackingPoolTransaction.sender first)
  (hlarge : nonce tx < u256Max - 1)
include hb hs hlarge

/-- Well below the batch, or one below it at a higher gas price, `tx` starts a new batch and the
    old one is given back whole. -/
theorem insert_of_restart
    (h : nonce tx + 1 < nonce first ∨
      (nonce tx + 1 = nonce first ∧ gasPrice first < gasPrice tx)) :
    b.insert tx config = some (new tx, b.txs, .ok ()) := by
  simp [insert, sender, startNonce, hb, hs, h, Nat.not_le.mpr hlarge]

/-- One below the batch at no higher gas price, `tx` is put first and the acceptable prefix is
    kept. -/
theorem insert_of_prepend (hn : nonce tx + 1 = nonce first) (hp : gasPrice tx ≤ gasPrice first)
    {k g : Nat} (hk : config.checkAcceptableBatch (tx :: b.txs) none = some (k, g))
    (hkl : k ≤ b.txs.length + 1) :
    b.insert tx config =
      some ({ txs := (tx :: b.txs).take k, totalGasLimit := g }, (tx :: b.txs).drop k, .ok ()) := by
  rw [hb] at hk hkl ⊢
  simp only [List.length_cons] at hkl
  simp [insert, sender, startNonce, hb, hs, hn, hp, Nat.not_le.mpr hlarge, Nat.not_lt.mpr hp, hk,
    vecSplitOff, hkl]

section Tail

/-! From the batch's first nonce on, where `start_nonce + n_txs` is a `U256`. -/

variable (hlow : nonce first ≤ nonce tx) (hend : nonce first + b.len ≤ u256Max)
include hlow hend

/-- Past the batch's end, or at its end when the count, the last gas price or the gas limit
    stops it, `insert` changes nothing and fails. -/
theorem insert_of_reject {last : TX} (hlast : b.txs.getLast? = some last)
    (h : nonce first + b.len < nonce tx ∨
      (nonce tx = nonce first + b.len ∧ (config.addressTxCount ≤ b.len ∨
        gasPrice tx < gasPrice last ∨
        config.addressGasLimit < u256SaturatingAdd b.totalGasLimit (gasLimit tx)))) :
    ∃ e, b.insert tx config = some (b, [], .error e) := by
  have hA : ¬ nonce tx + 1 < nonce first := by omega
  have hB : nonce tx + 1 ≠ nonce first := by omega
  rw [hb] at hlast
  rcases h with h | ⟨hn, h⟩
  · exact ⟨.largeNonce, by simp [insert, sender, startNonce, hb, hs, Nat.not_le.mpr hlarge, hA,
      hB, u256Add_of_le hend, h]⟩
  · -- the append arm, stopped by one of its three checks
    simp only [insert, sender, startNonce, hb, hs, List.head?_cons, Option.map_some,
      Option.bind_eq_bind, Option.bind_some, List.getElem?_cons_zero, ne_eq, not_true_eq_false,
      if_false, Nat.not_le.mpr hlarge, hA, hB, false_or, false_and, u256Add_of_le hend, ← hn,
      lt_irrefl, if_true, hlast]
    split_ifs with hc hp hg
    · exact ⟨_, rfl⟩
    · exact ⟨_, rfl⟩
    · exact ⟨_, rfl⟩
    · omega

omit hlow in
/-- At the batch's end, within the count, at no lower gas price than the last and within the
    gas limit, `tx` is appended. -/
theorem insert_of_append {last : TX} (hlast : b.txs.getLast? = some last)
    (hn : nonce tx = nonce first + b.len) (hc : b.len < config.addressTxCount)
    (hp : gasPrice last ≤ gasPrice tx)
    (hg : b.totalGasLimit + gasLimit tx ≤ config.addressGasLimit)
    (hmax : config.addressGasLimit ≤ u256Max) :
    b.insert tx config =
      some ({ txs := b.txs ++ [tx], totalGasLimit := b.totalGasLimit + gasLimit tx }, [], .ok ()) := by
  have hA : ¬ nonce tx + 1 < nonce first := by omega
  have hB : nonce tx + 1 ≠ nonce first := by omega
  have hsum : b.totalGasLimit + gasLimit tx ≤ u256Max := by omega
  rw [hb] at hlast ⊢
  simp [insert, sender, startNonce, hb, hs, Nat.not_le.mpr hlarge, hA, hB, u256Add_of_le hend,
    ← hn, Nat.not_le.mpr hc, hlast, Nat.not_lt.mpr hp, u256SaturatingAdd_of_le hsum,
    Nat.not_lt.mpr hg, u256Add_of_le hsum]

/-- Inside the batch, `tx` replaces the transaction of its nonce (`insertReplace`). -/
theorem insert_of_replace (hhigh : nonce tx < nonce first + b.len) :
    b.insert tx config = b.insertReplace tx config (nonce tx - nonce first) := by
  have hA : ¬ nonce tx + 1 < nonce first := by omega
  have hB : nonce tx + 1 ≠ nonce first := by omega
  simp [insert, sender, startNonce, hb, hs, Nat.not_le.mpr hlarge, hA, hB, u256Add_of_le hend,
    Nat.not_lt.mpr hhigh.le, hhigh.ne]

end Tail

end Arms

/-! ### The arms of `insertReplace`

`tx` replaces the transaction at index `idx` of the batch. -/

section Replace

variable {config : PackingPoolConfig} {b : PackingBatch TX} {tx : TX} {idx : Nat}

/-- Past index zero, the gas price check against the slot before `idx` passes. -/
theorem insertReplace_price_check (hi : idx ≤ b.txs.length)
    (hnd : ∀ p, b.txs[idx - 1]? = some p → 0 < idx → gasPrice p ≤ gasPrice tx) (hpos : 0 < idx) :
    b.txs[idx - 1]?.map (fun prev => decide (gasPrice tx < gasPrice prev)) = some false := by
  obtain ⟨p, hp⟩ : ∃ p, b.txs[idx - 1]? = some p := ⟨_, List.getElem?_eq_getElem (by omega)⟩
  simp [hp, Nat.not_lt.mpr (hnd p hp hpos)]

/-- Below the gas price of the slot before, the batch is cut before `idx` and `tx` is refused. -/
theorem insertReplace_of_decreasing (hpos : 0 < idx) {p : TX} (hp : b.txs[idx - 1]? = some p)
    (hlt : gasPrice tx < gasPrice p) (hi : idx ≤ b.txs.length)
    (hsum : ((b.txs.take idx).map gasLimit).sum ≤ u256Max) :
    b.insertReplace tx config idx =
      some ({ txs := b.txs.take idx, totalGasLimit := ((b.txs.take idx).map gasLimit).sum },
        b.txs.drop idx, .error .decreasingGasPrice) := by
  have hu := updateTotalLimit_of_le (b := { b with txs := b.txs.take idx }) hsum
  simp only at hu
  simp [insertReplace, hpos, hp, hlt, vecSplitOff, hi, hu]

/-- When the acceptable prefix with `tx` in place ends at or before `idx`, the batch is cut
    before `idx` and `tx` is refused. -/
theorem insertReplace_of_exceed (hi : idx ≤ b.txs.length)
    (hnd : ∀ p, b.txs[idx - 1]? = some p → 0 < idx → gasPrice p ≤ gasPrice tx) {k g : Nat}
    (hk : config.checkAcceptableBatch b.txs (some (tx, idx)) = some (k, g)) (hki : k ≤ idx)
    (hsum : ((b.txs.take idx).map gasLimit).sum ≤ u256Max) :
    b.insertReplace tx config idx =
      some ({ txs := b.txs.take idx, totalGasLimit := ((b.txs.take idx).map gasLimit).sum },
        b.txs.drop idx, .error .exceedAddrGasLimit) := by
  have hu := updateTotalLimit_of_le (b := { b with txs := b.txs.take idx }) hsum
  simp only at hu
  simp +contextual [insertReplace, insertReplace_price_check hi hnd, hk, hki, vecSplitOff, hi, hu]

/-- When the next transaction is priced below `tx`, the batch with `tx` in place is cut after
    it; the replaced transaction and the cut ones are given back. -/
theorem insertReplace_of_next_lower (hi : idx < b.txs.length)
    (hnd : ∀ p, b.txs[idx - 1]? = some p → 0 < idx → gasPrice p ≤ gasPrice tx) {k g : Nat}
    (hk : config.checkAcceptableBatch b.txs (some (tx, idx)) = some (k, g)) (hki : idx < k)
    {nx : TX} (hnx : b.txs[idx + 1]? = some nx) (hlt : gasPrice nx < gasPrice tx)
    (hsum : (((b.txs.set idx tx).take (idx + 1)).map gasLimit).sum ≤ u256Max) :
    b.insertReplace tx config idx =
      some (
        { txs := (b.txs.set idx tx).take (idx + 1)
          totalGasLimit := (((b.txs.set idx tx).take (idx + 1)).map gasLimit).sum },
        b.txs[idx] :: (b.txs.set idx tx).drop (idx + 1), .ok ()) := by
  have hu := updateTotalLimit_of_le (b := { b with txs := (b.txs.set idx tx).take (idx + 1) }) hsum
  simp only at hu
  have hnx' : (b.txs.set idx tx)[idx + 1]? = some nx := by
    rw [List.getElem?_set_ne (by omega)]
    exact hnx
  simp +contextual [insertReplace, insertReplace_price_check hi.le hnd, hk, Nat.not_le.mpr hki,
    List.getElem?_eq_getElem hi, hnx', hlt, vecSplitOff, Nat.succ_le_of_lt hi, hu]

/-- Otherwise the batch with `tx` in place is cut at the end of its acceptable prefix; the
    replaced transaction and the cut ones are given back. -/
theorem insertReplace_of_fits (hi : idx < b.txs.length)
    (hnd : ∀ p, b.txs[idx - 1]? = some p → 0 < idx → gasPrice p ≤ gasPrice tx) {k g : Nat}
    (hk : config.checkAcceptableBatch b.txs (some (tx, idx)) = some (k, g)) (hki : idx < k)
    (hnext : ∀ nx, b.txs[idx + 1]? = some nx → gasPrice tx ≤ gasPrice nx)
    (hkl : k ≤ b.txs.length) :
    b.insertReplace tx config idx =
      some ({ txs := (b.txs.set idx tx).take k, totalGasLimit := g },
        b.txs[idx] :: (b.txs.set idx tx).drop k, .ok ()) := by
  have hnext' : (b.txs[idx + 1]?.map fun nx => decide (gasPrice nx < gasPrice tx)).getD
      false = false := by
    cases hnx : b.txs[idx + 1]? with
    | none => rfl
    | some nx => simp [Nat.not_lt.mpr (hnext nx hnx)]
  simp +contextual [insertReplace, insertReplace_price_check hi.le hnd, hk, Nat.not_le.mpr hki,
    List.getElem?_eq_getElem hi, hnext', vecSplitOff, hkl]

end Replace

/-! ### What each arm keeps -/

section Keeps

variable {config : PackingPoolConfig} {b : PackingBatch TX} {tx first : TX} {rest : List TX}

/-- The replace arm gives back every transaction it takes out and leaves a batch that fits. -/
theorem insertReplace_conserves_and_fits {idx : Nat} (hfits : BatchFits config b)
    (hb : b.txs = first :: rest)
    (hs : PackingPoolTransaction.sender tx = PackingPoolTransaction.sender first)
    (hn : nonce tx = nonce first + idx) (hi : idx < b.txs.length)
    (hgas : ∀ t ∈ tx :: b.txs, config.addressGasLimit + gasLimit t ≤ u256Max) :
    ∃ b' out st, b.insertReplace tx config idx = some (b', out, st) ∧
      (b.txs ++ [tx]).Perm (out ++ (if st.isOk then [] else [tx]) ++ b'.txs) ∧
      BatchFits config b' := by
  have hc : (first :: rest).IsChain Follows := hb ▸ hfits.chain
  have htotal : (b.txs.map gasLimit).sum ≤ u256Max :=
    hfits.total ▸ hfits.total_le fun t ht => hgas t (.tail _ ht)
  have hsumi : ((b.txs.take idx).map gasLimit).sum ≤ u256Max := by
    rw [List.map_take]
    exact (sum_take_le _ _).trans htotal
  by_cases hdec : ∃ p, b.txs[idx - 1]? = some p ∧ 0 < idx ∧ gasPrice tx < gasPrice p
  · -- below the slot before: the batch is cut before `idx`
    obtain ⟨p, hp, hpos, hlt⟩ := hdec
    exact ⟨_, _, _, insertReplace_of_decreasing hpos hp hlt hi.le hsumi,
      by simpa using perm_append_drop_take b.txs tx idx,
      hfits.take hpos⟩
  have hnd : ∀ p, b.txs[idx - 1]? = some p → 0 < idx → gasPrice p ≤ gasPrice tx :=
    fun p hp hpos => Nat.not_lt.mp fun hlt => hdec ⟨p, hp, hpos, hlt⟩
  -- the acceptable prefix of the batch with `tx` in place
  have hgas' : ∀ t ∈ b.txs.set idx tx, config.addressGasLimit + gasLimit t ≤ u256Max := by
    intro t ht
    rcases List.mem_or_eq_of_mem_set ht with ht | rfl
    · exact hgas t (.tail _ ht)
    · exact hgas t (.head _)
  obtain ⟨k, g, hk, hacc⟩ := config.checkAcceptableBatch_spec hgas'
  rw [← PackingPoolConfig.checkAcceptableBatch_some] at hk
  have hkpos : 0 < k := hacc.pos hfits.count_pos (by simp [hb])
  by_cases hki : k ≤ idx
  · -- the prefix ends before `idx`: the batch is cut there
    exact ⟨_, _, _, insertReplace_of_exceed hi.le hnd hk hki hsumi,
      by simpa using perm_append_drop_take b.txs tx idx,
      hfits.take (by omega)⟩
  have hkl : k ≤ b.txs.length := by simpa using hacc.le_length
  by_cases hnext : ∃ nx, b.txs[idx + 1]? = some nx ∧ gasPrice nx < gasPrice tx
  · -- the next transaction is priced below `tx`: the batch is cut after `tx`
    obtain ⟨nx, hnx, hlt⟩ := hnext
    have hchain : ((b.txs.set idx tx).take (idx + 1)).IsChain Follows := by
      rw [hb]
      exact isChain_take_set hc hs hn (by omega) (hb ▸ hnd) (by omega)
    exact ⟨_, _, _, insertReplace_of_next_lower hi hnd hk (by omega) hnx hlt
        (hacc.sum_take_le (by omega) (by omega) hgas'),
      by simpa using perm_set_drop_take (List.getElem?_eq_getElem hi) (idx + 1),
      hacc.batchFits (by omega) (by omega) hchain⟩
  · -- the batch with `tx` in place is cut at the end of the prefix
    have hnext' : ∀ nx, b.txs[idx + 1]? = some nx → gasPrice tx ≤ gasPrice nx :=
      fun nx hnx => Nat.not_lt.mp fun hlt => hnext ⟨nx, hnx, hlt⟩
    have hchain : ((b.txs.set idx tx).take k).IsChain Follows := by
      rw [hb]
      exact isChain_take_set hc hs hn (by omega) (hb ▸ hnd) fun _ => hb ▸ hnext'
    have hfk := hacc.batchFits hkpos le_rfl hchain
    rw [← hacc.gas_eq] at hfk
    exact ⟨_, _, _, insertReplace_of_fits hi hnd hk (by omega) hnext' hkl,
      by simpa using perm_set_drop_take (List.getElem?_eq_getElem hi) k, hfk⟩

/-- `PackingBatch::insert` gives back every transaction it takes out and leaves a batch that
    fits, from a batch that fits and a transaction of its sender below `U256::MAX - 1`, when no
    `U256` addition overflows: `start_nonce + n_txs` is a `U256` (the batch has one transaction,
    or all its nonces are below `U256::MAX`), and `address_gas_limit` plus any gas limit is a
    `U256`. -/
theorem insert_conserves_and_fits_of_top [DecidableEq S] (hfits : BatchFits config b)
    (hsender : b.sender = some (PackingPoolTransaction.sender tx))
    (hlarge : nonce tx < u256Max - 1) (htop : b.len ≤ 1 ∨ ∀ t ∈ b.txs, nonce t < u256Max)
    (hgas : ∀ t ∈ tx :: b.txs, config.addressGasLimit + gasLimit t ≤ u256Max) :
    ∃ b' out st, b.insert tx config = some (b', out, st) ∧
      (b.txs ++ [tx]).Perm (out ++ (if st.isOk then [] else [tx]) ++ b'.txs) ∧
      BatchFits config b' := by
  obtain ⟨first, rest, hb⟩ := List.exists_cons_of_ne_nil hfits.nonempty
  have hs : PackingPoolTransaction.sender tx = PackingPoolTransaction.sender first := by
    simpa [sender, hb] using hsender.symm
  have hc : (first :: rest).IsChain Follows := hb ▸ hfits.chain
  have hcount := hfits.count_pos
  by_cases hA : nonce tx + 1 < nonce first ∨
      (nonce tx + 1 = nonce first ∧ gasPrice first < gasPrice tx)
  · -- `tx` starts a new batch
    exact ⟨_, _, _, insert_of_restart hb hs hlarge hA, by simp [new], batchFits_new tx hcount⟩
  by_cases hB : nonce tx + 1 = nonce first
  · -- `tx` goes first and the acceptable prefix is kept
    have hp : gasPrice tx ≤ gasPrice first := by omega
    obtain ⟨k, g, hk, hacc⟩ := config.checkAcceptableBatch_spec hgas
    have hchain : ((tx :: b.txs).take k).IsChain Follows := by
      rw [hb]
      exact (List.isChain_cons_cons.mpr ⟨⟨hs, hB, hp⟩, hc⟩).take k
    have hfk := hacc.batchFits (hacc.pos hcount (List.cons_ne_nil _ _)) le_rfl hchain
    rw [← hacc.gas_eq] at hfk
    refine ⟨_, _, _, insert_of_prepend hb hs hlarge hB hp hk (by simpa using hacc.le_length), ?_,
      hfk⟩
    simp only [except_isOk_ok, if_true, List.append_nil]
    refine (List.perm_append_singleton tx b.txs).trans ?_
    conv_lhs => rw [← List.take_append_drop k (tx :: b.txs)]
    exact List.perm_append_comm
  -- from the batch's first nonce on, where `start_nonce + n_txs` is a `U256`
  have hlow : nonce first ≤ nonce tx := by omega
  have hlen : b.len = rest.length + 1 := by simp [len, hb]
  have hlen' : b.txs.length = rest.length + 1 := by simp [hb]
  have hlastn := follows_getElem hc rest.length (by omega)
  have hend : nonce first + b.len ≤ u256Max := by
    rcases htop with hone | hall
    · -- one transaction, whose nonce is at most that of `tx`
      omega
    · have htopn : nonce (first :: rest)[rest.length] < u256Max := hall _ (by simp [hb])
      omega
  have hlast : b.txs.getLast? = some (first :: rest)[rest.length] := by
    simp [hb, List.getLast?_eq_getElem?]
  have htotal := hfits.total_le fun t ht => hgas t (.tail _ ht)
  rcases Nat.lt_or_ge (nonce tx) (nonce first + b.len) with hE | hge
  · -- `tx` replaces the transaction of its nonce
    rw [insert_of_replace hb hs hlarge hlow hend hE]
    exact insertReplace_conserves_and_fits hfits hb hs (by omega) (by omega) hgas
  have hmax : config.addressGasLimit + gasLimit tx ≤ u256Max := hgas tx (.head _)
  by_cases hok : nonce tx = nonce first + b.len ∧ b.len < config.addressTxCount ∧
      gasPrice (first :: rest)[rest.length] ≤ gasPrice tx ∧
      b.totalGasLimit + gasLimit tx ≤ config.addressGasLimit
  · -- `tx` is appended
    obtain ⟨hn, hcnt, hp, hg⟩ := hok
    refine ⟨_, _, _, insert_of_append hb hs hlarge hend hlast hn hcnt hp hg (by omega), by simp, ?_⟩
    have htot : b.totalGasLimit + gasLimit tx = ((b.txs ++ [tx]).map gasLimit).sum := by
      simp [hfits.total]
    rw [htot]
    refine batchFits_of_chain (by simp) ?_ (by simp [len] at hcnt ⊢; omega)
      (fun _ => by rw [← htot]; exact hg)
    refine List.isChain_append.mpr ⟨hfits.chain, .singleton _, fun x hx y hy => ?_⟩
    rw [hlast, Option.mem_some_iff] at hx
    simp only [List.head?_cons, Option.mem_some_iff] at hy
    subst hx hy
    exact follows_into_slot hc hs (by omega) (by omega) hp
  · -- `tx` is refused and nothing changes
    have hrefuse : nonce first + b.len < nonce tx ∨
        (nonce tx = nonce first + b.len ∧ (config.addressTxCount ≤ b.len ∨
          gasPrice tx < gasPrice (first :: rest)[rest.length] ∨
          config.addressGasLimit < u256SaturatingAdd b.totalGasLimit (gasLimit tx))) := by
      rw [lt_saturatingAdd_iff htotal hmax]
      omega
    obtain ⟨e, he⟩ := insert_of_reject hb hs hlarge hlow hend hlast hrefuse
    exact ⟨_, _, _, he, by simp, hfits⟩

end Keeps

/-! ### Batches built by `new` and `insert` -/

/-- The batches `PackingBatch::new` and `insert` build under `config`: each insert is of a
    transaction of the batch's sender below `U256::MAX - 1`, and `address_gas_limit` plus its gas
    limit, or that of any transaction of the batch, is a `U256`. -/
inductive Built [DecidableEq S] (config : PackingPoolConfig) : PackingBatch TX → Prop
  | new (tx : TX) (hcount : 0 < config.addressTxCount) : Built config (PackingBatch.new tx)
  | insert {b b' : PackingBatch TX} {tx : TX} {out : List TX} {st : Except InsertError Unit}
      (hb : Built config b) (hsender : b.sender = some (PackingPoolTransaction.sender tx))
      (hlarge : nonce tx < u256Max - 1)
      (hgas : ∀ t ∈ tx :: b.txs, config.addressGasLimit + gasLimit t ≤ u256Max)
      (h : b.insert tx config = some (b', out, st)) : Built config b'

/-- A built batch fits, and `start_nonce + n_txs` never overflows in it: only a batch of one
    transaction, made by `new`, can hold a nonce of `U256::MAX` or more, since `insert` refuses
    nonces from `U256::MAX - 1` on and keeps only transactions it was given. -/
theorem Built.fits_top [DecidableEq S] {config : PackingPoolConfig} {b : PackingBatch TX}
    (h : Built config b) :
    BatchFits config b ∧ (b.len ≤ 1 ∨ ∀ t ∈ b.txs, nonce t < u256Max) := by
  induction h with
  | new tx hcount => exact ⟨batchFits_new tx hcount, Or.inl (by simp [len, PackingBatch.new])⟩
  | @insert b b' tx out st _ hsender hlarge hgas h ih =>
    obtain ⟨hfits, htop⟩ := ih
    obtain ⟨b₁, out₁, st₁, h₁, hperm, hfits₁⟩ :=
      insert_conserves_and_fits_of_top hfits hsender hlarge htop hgas
    rw [h₁, Option.some.injEq, Prod.mk.injEq] at h
    obtain ⟨rfl, -⟩ := h
    -- what the batch keeps was in it or is `tx`
    have hsub : ∀ t ∈ b₁.txs, t ∈ b.txs ++ [tx] := fun t ht =>
      hperm.mem_iff.mpr (List.mem_append_right _ ht)
    have hkept : (∀ t ∈ b.txs, nonce t < u256Max) → ∀ t ∈ b₁.txs, nonce t < u256Max := by
      intro hall t ht
      rcases List.mem_append.mp (hsub t ht) with ht | ht
      · exact hall t ht
      · rw [List.mem_singleton.mp ht]
        omega
    refine ⟨hfits₁, ?_⟩
    obtain ⟨first, rest, hb⟩ := List.exists_cons_of_ne_nil hfits.nonempty
    have hs : PackingPoolTransaction.sender tx = PackingPoolTransaction.sender first := by
      simpa [sender, hb] using hsender.symm
    by_cases hlow : nonce tx + 1 < nonce first
    · -- well below the batch: `tx` starts a new one
      rw [insert_of_restart hb hs hlarge (Or.inl hlow), Option.some.injEq, Prod.mk.injEq] at h₁
      rw [← h₁.1]
      exact Or.inl (by simp [len, PackingBatch.new])
    · -- otherwise the batch's nonces are below `U256::MAX` already
      refine Or.inr (hkept ?_)
      rcases htop with hone | hall
      · have hrest : rest = [] := by
          simpa [len, hb] using hone
        intro t ht
        rw [hb, hrest, List.mem_singleton] at ht
        subst ht
        omega
      · exact hall

/-- `PackingBatch::insert` on a batch built by `new` and `insert`, and a transaction of its
    sender below `U256::MAX - 1` whose gas limit, like those of the batch, leaves room for
    `address_gas_limit` in a `U256`: it gives back every transaction it takes out and leaves a
    batch that fits. -/
theorem insert_conserves_and_fits [DecidableEq S] {config : PackingPoolConfig}
    {b : PackingBatch TX} {tx : TX} (hbuilt : Built config b)
    (hsender : b.sender = some (PackingPoolTransaction.sender tx))
    (hlarge : nonce tx < u256Max - 1)
    (hgas : ∀ t ∈ tx :: b.txs, config.addressGasLimit + gasLimit t ≤ u256Max) :
    ∃ b' out st, b.insert tx config = some (b', out, st) ∧
      (b.txs ++ [tx]).Perm (out ++ (if st.isOk then [] else [tx]) ++ b'.txs) ∧
      BatchFits config b' := by
  obtain ⟨hfits, htop⟩ := hbuilt.fits_top
  exact insert_conserves_and_fits_of_top hfits hsender hlarge htop hgas

/-- The configuration of the crate's tests, with room for three transactions. -/
def threeTxConfig : PackingPoolConfig :=
  { addressGasLimit := 3000000, addressTxCount := 3, lossRatioDegree := 1 }

/-- Three transactions of sender `1` at nonces `5, 6, 7`. -/
def threeTxBatch : PackingBatch MockTransaction :=
  { txs := [⟨1, 1, 5, 1, 1⟩, ⟨2, 1, 6, 2, 1⟩, ⟨3, 1, 7, 3, 1⟩], totalGasLimit := 3 }

/-- A transaction in place of the middle one of `threeTxBatch`. -/
def middleTx : MockTransaction := ⟨4, 1, 6, 2, 1⟩

/-- `threeTxBatch` is `new` of its first transaction with the other two appended. -/
theorem threeTxBatch_built : Built threeTxConfig threeTxBatch := by
  let tx₁ : MockTransaction := ⟨1, 1, 5, 1, 1⟩
  let tx₂ : MockTransaction := ⟨2, 1, 6, 2, 1⟩
  let tx₃ : MockTransaction := ⟨3, 1, 7, 3, 1⟩
  have h₁ : Built threeTxConfig (PackingBatch.new tx₁) := .new tx₁ (by decide)
  have h₂ : Built threeTxConfig ⟨[tx₁, tx₂], 2⟩ :=
    .insert h₁ (show _ = some (PackingPoolTransaction.sender tx₂) from rfl) (by decide)
      (by decide) rfl
  exact .insert h₂ (show _ = some (PackingPoolTransaction.sender tx₃) from rfl) (by decide)
    (by decide) rfl

theorem insert_conserves_and_fits_at_threeTxBatch :
    Built threeTxConfig threeTxBatch ∧
      ∃ b' out st, threeTxBatch.insert middleTx threeTxConfig = some (b', out, st) ∧
        (threeTxBatch.txs ++ [middleTx]).Perm
          (out ++ (if st.isOk then [] else [middleTx]) ++ b'.txs) ∧
        BatchFits threeTxConfig b' :=
  ⟨threeTxBatch_built,
    insert_conserves_and_fits threeTxBatch_built rfl (by decide) (by decide)⟩

/-- `address_gas_limit = U256::MAX`, room for two transactions. -/
def maxGasConfig : PackingPoolConfig :=
  { addressGasLimit := u256Max, addressTxCount := 2, lossRatioDegree := 1 }

/-- A transaction of gas limit `U256::MAX` at nonce `0`, and the next one, of gas limit `1`. -/
def fullGasTx : MockTransaction := ⟨1, 1, 0, 1, u256Max⟩

def oneGasTx : MockTransaction := ⟨2, 1, 1, 1, 1⟩

/-- Without room for the gas limits the append arm panics on a batch `new` makes:
    `total_gas_limit.saturating_add(1)` is `U256::MAX`, which `address_gas_limit` allows, and
    then `total_gas_limit += 1` overflows. -/
theorem insert_overflows_total_gas_limit :
    Built maxGasConfig (PackingBatch.new fullGasTx) ∧
      (PackingBatch.new fullGasTx).sender = some (PackingPoolTransaction.sender oneGasTx) ∧
      nonce oneGasTx < u256Max - 1 ∧
      ¬ maxGasConfig.addressGasLimit + gasLimit oneGasTx ≤ u256Max ∧
      (PackingBatch.new fullGasTx).insert oneGasTx maxGasConfig = none :=
  ⟨.new fullGasTx (by decide), rfl, by decide, by decide, rfl⟩

end PackingBatch

end Mazze.Packing
