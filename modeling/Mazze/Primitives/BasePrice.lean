/-
  The base-price rule of block headers (`primitives/src/block_header/base_price.rs`).

  `computeNextPrice` is the consensus rule checked in block verification: the next base price
  moves from the last one by `gas_delta * last / target / 8`, at least 1, in the direction of
  the gas used, with the gas used clamped at twice the target. `estimateGasUsedBoundary`
  inverts it in closed form: for a price `p` it returns the largest gas whose next price is
  below `p` and the smallest gas whose next price is above `p`.

  U256 values are natural numbers here. Every U256 operation of these functions stays below
  `2^256` when `16 * T * (L + 1) < 2^256`, so on that range the natural-number functions are
  the U256 ones; the results below hold for every `T ≥ 1`, `L` and `p`.

  Main results:
  * `boundary_exact`: for every gas `g ≤ 2T`, `f g < p` iff `g ≤ lo`, and `f g > p` iff
    `up ≤ g`, with `(lo, up) = estimateGasUsedBoundary T p L`.
  * `next_price_boundary`: the claim as a whole, with monotonicity of `f` on `[0, 2T]` and
    `estimateMaxPossibleGas` the largest gas whose next price is at most `p`.
-/
import Mathlib

namespace Mazze.Primitives

/-- `BASE_PRICE_CHANGE_DENOMINATOR`. -/
def basePriceChangeDenominator : Nat := 8

/-- `U256::checked_sub`: `none` when the subtraction would underflow. -/
def checkedSub (a b : Nat) : Option Nat :=
  if b ≤ a then some (a - b) else none

/-- `compute_next_price`. -/
def computeNextPrice (gasTarget gasActual lastBasePrice minBasePrice : Nat) : Nat :=
  let gasActual := if gasActual > gasTarget * 2 then gasTarget * 2 else gasActual
  let nextBasePrice :=
    if gasTarget = 0 ∨ gasTarget = gasActual then lastBasePrice
    else
      let (gasDelta, deltaSign) :=
        if gasActual > gasTarget then (gasActual - gasTarget, true)
        else (gasTarget - gasActual, false)
      let priceDelta := gasDelta * lastBasePrice / gasTarget / basePriceChangeDenominator
      let priceDelta := if priceDelta = 0 then 1 else priceDelta
      if deltaSign then lastBasePrice + priceDelta
      else if lastBasePrice ≠ 0 then lastBasePrice - priceDelta
      else 0
  max nextBasePrice minBasePrice

/-- `estimate_gas_used_boundary`. -/
def estimateGasUsedBoundary (gasTarget currentBasePrice lastBasePrice : Nat) :
    Option Nat × Option Nat :=
  if gasTarget = 0 then (none, some 1)
  else if lastBasePrice = 0 then
    if currentBasePrice = 0 then (none, some (gasTarget + 1))
    else if currentBasePrice = 1 then (some gasTarget, some (gasTarget * 2 + 1))
    else (some (gasTarget * 2), none)
  else
    let maxPriceDelta := max 1 (lastBasePrice / basePriceChangeDenominator)
    let upperBasePrice := lastBasePrice + maxPriceDelta
    let lowerBasePrice := lastBasePrice - maxPriceDelta
    if currentBasePrice > upperBasePrice then (some (gasTarget * 2), none)
    else if currentBasePrice < lowerBasePrice then (none, some 0)
    else if currentBasePrice = lastBasePrice then (some (gasTarget - 1), some (gasTarget + 1))
    else
      let (priceDelta, deltaSign) :=
        if currentBasePrice > lastBasePrice then (currentBasePrice - lastBasePrice, true)
        else (lastBasePrice - currentBasePrice, false)
      let lowerBound :=
        if priceDelta = 1 then 0
        else (priceDelta * gasTarget * basePriceChangeDenominator - 1) / lastBasePrice
      let upperBound :=
        ((priceDelta + 1) * gasTarget * basePriceChangeDenominator + lastBasePrice - 1) /
          lastBasePrice
      if deltaSign then
        (some (gasTarget + lowerBound), some (min (gasTarget + upperBound) (gasTarget * 2 + 1)))
      else
        (checkedSub gasTarget upperBound, some (gasTarget - lowerBound))

/-- `estimate_max_possible_gas`. -/
def estimateMaxPossibleGas (gasTarget currentBasePrice lastBasePrice : Nat) : Nat :=
  match (estimateGasUsedBoundary gasTarget currentBasePrice lastBasePrice).2 with
  | none => gasTarget * 2
  | some 0 => 0
  | some (x + 1) => x

/-! ## The price step -/

/-- The price move `compute_next_price` makes for a gas distance `d` from the target:
    `d * L / T / 8`, raised to 1 when it is 0. -/
def priceStep (T L d : Nat) : Nat :=
  if d * L / T / basePriceChangeDenominator = 0 then 1
  else d * L / T / basePriceChangeDenominator

theorem priceStep_eq (T L d : Nat) : priceStep T L d = max 1 (d * L / (T * 8)) := by
  unfold priceStep basePriceChangeDenominator
  rw [Nat.div_div_eq_div_mul]
  generalize d * L / (T * 8) = x
  split <;> omega

theorem one_le_priceStep (T L d : Nat) : 1 ≤ priceStep T L d := by
  rw [priceStep_eq]; omega

/-- Below a bound of at least 2, the step is below it exactly when `d * L` is. -/
theorem priceStep_lt_iff {T L d k : Nat} (hT : 0 < T) (hk : 2 ≤ k) :
    priceStep T L d < k ↔ d * L < k * T * 8 := by
  rw [priceStep_eq, Nat.mul_assoc, ← Nat.div_lt_iff_lt_mul (by omega)]
  omega

/-- Above a bound of at least 1, the step is above it exactly when `d * L` reaches the next
    multiple. -/
theorem lt_priceStep_iff {T L d k : Nat} (hT : 0 < T) (hk : 1 ≤ k) :
    k < priceStep T L d ↔ (k + 1) * T * 8 ≤ d * L := by
  rw [priceStep_eq, Nat.mul_assoc, ← Nat.le_div_iff_mul_le (by omega)]
  omega

/-- Within the clamp the step never exceeds `max 1 (L / 8)`. -/
theorem priceStep_le_max {T L d : Nat} (hT : 0 < T) (hd : d ≤ T) :
    priceStep T L d ≤ max 1 (L / 8) := by
  have hmul : d * L / (T * 8) ≤ T * L / (T * 8) :=
    Nat.div_le_div_right (Nat.mul_le_mul_right L hd)
  have hcancel : T * L / (T * 8) = L / 8 := Nat.mul_div_mul_left L 8 hT
  rw [hcancel] at hmul
  rw [priceStep_eq]
  generalize d * L / (T * 8) = x at *
  omega

/-! ## Floor and ceiling divisions of the boundary -/

theorem le_pred_div_iff {d m L : Nat} (hL : 0 < L) (hm : 0 < m) :
    d ≤ (m - 1) / L ↔ d * L < m := by
  rw [Nat.le_div_iff_mul_le hL]
  omega

theorem ceil_div_le_iff {d m L : Nat} (hL : 0 < L) :
    (m + L - 1) / L ≤ d ↔ m ≤ d * L := by
  rw [Nat.div_le_iff_le_mul_add_pred hL, Nat.mul_comm L d]
  omega

theorem one_le_ceil_div {m L : Nat} (hL : 0 < L) (hm : 0 < m) : 1 ≤ (m + L - 1) / L := by
  rw [Nat.le_div_iff_mul_le hL]
  omega

/-! ## The next price on `[0, 2T]` -/

theorem computeNextPrice_target (T L : Nat) : computeNextPrice T T L 0 = L := by
  simp [computeNextPrice]
  omega

theorem computeNextPrice_above {T L g : Nat} (hT : T < g) (hg : g ≤ T * 2) :
    computeNextPrice T g L 0 = L + priceStep T L (g - T) := by
  have hne : T ≠ g := by omega
  simp [computeNextPrice, priceStep, Nat.not_lt.mpr hg, hT, hne]
  omega

theorem computeNextPrice_below {T L g : Nat} (hg : g < T) :
    computeNextPrice T g L 0 = if L = 0 then 0 else L - priceStep T L (T - g) := by
  have hne : T ≠ g := by omega
  have hT : T ≠ 0 := by omega
  have hle : ¬ g > T * 2 := by omega
  simp [computeNextPrice, priceStep, hle, Nat.not_lt.mpr hg.le, hne, hT]

/-! ## The boundary, branch by branch -/

/-- The pair `(lo, up)` is exact for the price `p` at the gas `g`: the next price is below
    `p` exactly up to `lo`, and above `p` exactly from `up`. -/
def BoundaryExact (T L p : Nat) (bound : Option Nat × Option Nat) (g : Nat) : Prop :=
  (computeNextPrice T g L 0 < p ↔ ∃ b, bound.1 = some b ∧ g ≤ b) ∧
    (p < computeNextPrice T g L 0 ↔ ∃ c, bound.2 = some c ∧ c ≤ g)

theorem estimateGasUsedBoundary_rise {T L p : Nat} (hT : T ≠ 0) (hL : L ≠ 0) (hp : L < p)
    (hp' : p ≤ L + max 1 (L / 8)) :
    estimateGasUsedBoundary T p L =
      (some (T + if p - L = 1 then 0 else ((p - L) * T * 8 - 1) / L),
        some (min (T + ((p - L + 1) * T * 8 + L - 1) / L) (T * 2 + 1))) := by
  have hne : p ≠ L := by omega
  simp [estimateGasUsedBoundary, basePriceChangeDenominator, hT, hL, hp, hne,
    Nat.not_lt.mpr hp']
  omega

theorem boundaryExact_rise {T L p g : Nat} (hT : 0 < T) (hL : 0 < L) (hp : L < p)
    (hp' : p ≤ L + max 1 (L / 8)) (hg : g ≤ T * 2) :
    BoundaryExact T L p (estimateGasUsedBoundary T p L) g := by
  rw [estimateGasUsedBoundary_rise (by omega) (by omega) hp hp']
  have hub : 1 ≤ ((p - L + 1) * T * 8 + L - 1) / L := one_le_ceil_div hL (by positivity)
  simp only [BoundaryExact, Option.some.injEq, exists_eq_left']
  rcases Nat.lt_or_ge T g with hgt | hle
  · -- above the target the price rises by one step
    rw [computeNextPrice_above hgt hg]
    have hceil := ceil_div_le_iff (d := g - T) (m := (p - L + 1) * T * 8) hL
    have hstep := lt_priceStep_iff (L := L) (d := g - T) hT (Nat.le_sub_of_add_le' hp)
    constructor
    · by_cases hk : p - L = 1
      · have := one_le_priceStep T L (g - T)
        simp only [hk, if_true]
        omega
      · have hlt := priceStep_lt_iff (L := L) (d := g - T) hT (k := p - L) (by omega)
        have hfloor := le_pred_div_iff (d := g - T) (m := (p - L) * T * 8) hL
          (Nat.mul_pos (Nat.mul_pos (by omega) hT) (by decide))
        rw [if_neg hk]
        omega
    · omega
  · -- at or below the target the price does not rise
    have hf : computeNextPrice T g L 0 ≤ L := by
      rcases Nat.lt_or_ge g T with hlt | hge
      · rw [computeNextPrice_below hlt]; split <;> omega
      · rw [show g = T by omega, computeNextPrice_target]
    constructor
    · constructor
      · intro; exact Nat.le_trans hle (Nat.le_add_right _ _)
      · intro; omega
    · omega

@[simp] theorem checkedSub_eq_some {a b c : Nat} : checkedSub a b = some c ↔ b ≤ a ∧ a - b = c := by
  unfold checkedSub
  split <;> simp [*]

theorem estimateGasUsedBoundary_fall {T L p : Nat} (hT : T ≠ 0) (hL : L ≠ 0) (hp : p < L)
    (hp' : L - max 1 (L / 8) ≤ p) :
    estimateGasUsedBoundary T p L =
      (checkedSub T (((L - p + 1) * T * 8 + L - 1) / L),
        some (T - if L - p = 1 then 0 else ((L - p) * T * 8 - 1) / L)) := by
  have hne : p ≠ L := by omega
  have hnot : ¬ p > L + max 1 (L / 8) := by omega
  simp [estimateGasUsedBoundary, basePriceChangeDenominator, hT, hL, hne, hnot,
    Nat.not_lt.mpr hp', Nat.not_lt.mpr hp.le]

/-- The next price is at least `L` from the target on. -/
theorem le_computeNextPrice_of_ge {T L g : Nat} (hgT : T ≤ g) (hg : g ≤ T * 2) :
    L ≤ computeNextPrice T g L 0 := by
  rcases Nat.lt_or_ge T g with hgt | hle
  · rw [computeNextPrice_above hgt hg]; omega
  · rw [show g = T by omega, computeNextPrice_target]

/-- The next price is at most `L` up to the target. -/
theorem computeNextPrice_le_of_le {T L g : Nat} (hgT : g ≤ T) :
    computeNextPrice T g L 0 ≤ L := by
  rcases Nat.lt_or_ge g T with hlt | hge
  · rw [computeNextPrice_below hlt]; split <;> omega
  · rw [show g = T by omega, computeNextPrice_target]

theorem boundaryExact_fall {T L p g : Nat} (hT : 0 < T) (hL : 0 < L) (hp : p < L)
    (hp' : L - max 1 (L / 8) ≤ p) (hg : g ≤ T * 2) :
    BoundaryExact T L p (estimateGasUsedBoundary T p L) g := by
  rw [estimateGasUsedBoundary_fall (by omega) (by omega) hp hp']
  have hub : 1 ≤ ((L - p + 1) * T * 8 + L - 1) / L := one_le_ceil_div hL (by positivity)
  simp only [BoundaryExact, Option.some.injEq, exists_eq_left', checkedSub_eq_some]
  rcases Nat.lt_or_ge g T with hlt | hge
  · -- below the target the price falls by one step, which is at most `L`
    rw [computeNextPrice_below hlt, if_neg (by omega)]
    have hs := one_le_priceStep T L (T - g)
    have hmax := priceStep_le_max (L := L) hT (Nat.sub_le T g)
    have hceil := ceil_div_le_iff (d := T - g) (m := (L - p + 1) * T * 8) hL
    have hstep := lt_priceStep_iff (L := L) (d := T - g) hT (k := L - p) (by omega)
    constructor
    · constructor
      · intro h
        exact ⟨_, ⟨by omega, rfl⟩, by omega⟩
      · rintro ⟨b, ⟨hb, rfl⟩, hgb⟩
        omega
    · by_cases hk : L - p = 1
      · simp only [hk, if_true]
        omega
      · have hlt' := priceStep_lt_iff (L := L) (d := T - g) hT (k := L - p) (by omega)
        have hfloor := le_pred_div_iff (d := T - g) (m := (L - p) * T * 8) hL
          (Nat.mul_pos (Nat.mul_pos (by omega) hT) (by decide))
        rw [if_neg hk]
        omega
  · -- from the target on the price does not fall
    have hf := le_computeNextPrice_of_ge (L := L) hge hg
    constructor
    · constructor
      · intro; omega
      · rintro ⟨b, ⟨hb, rfl⟩, hgb⟩
        omega
    · constructor
      · intro; exact Nat.le_trans (Nat.sub_le _ _) hge
      · intro; omega

/-- Up to the target the price falls by at most `max 1 (L / 8)`. -/
theorem sub_max_le_computeNextPrice {T L g : Nat} (hT : 0 < T) (hg : g ≤ T * 2) :
    L - max 1 (L / 8) ≤ computeNextPrice T g L 0 := by
  rcases Nat.lt_or_ge g T with hlt | hge
  · have := priceStep_le_max (L := L) hT (Nat.sub_le T g)
    rw [computeNextPrice_below hlt]
    split <;> omega
  · have := le_computeNextPrice_of_ge (L := L) hge hg
    omega

/-- From the target on the price rises by at most `max 1 (L / 8)`. -/
theorem computeNextPrice_le_add_max {T L g : Nat} (hT : 0 < T) (hg : g ≤ T * 2) :
    computeNextPrice T g L 0 ≤ L + max 1 (L / 8) := by
  rcases Nat.lt_or_ge T g with hgt | hle
  · have := priceStep_le_max (L := L) hT (d := g - T) (by omega)
    rw [computeNextPrice_above hgt hg]
    omega
  · have := computeNextPrice_le_of_le (L := L) hle
    omega

theorem estimateGasUsedBoundary_last {T L : Nat} (hT : T ≠ 0) (hL : L ≠ 0) :
    estimateGasUsedBoundary T L L = (some (T - 1), some (T + 1)) := by
  simp [estimateGasUsedBoundary, hT, hL]

theorem boundaryExact_last {T L g : Nat} (hT : 0 < T) (hL : 0 < L) (hg : g ≤ T * 2) :
    BoundaryExact T L L (estimateGasUsedBoundary T L L) g := by
  rw [estimateGasUsedBoundary_last (by omega) (by omega)]
  simp only [BoundaryExact, Option.some.injEq, exists_eq_left']
  rcases Nat.lt_trichotomy g T with hlt | rfl | hgt
  · have hs := one_le_priceStep T L (T - g)
    have hmax := priceStep_le_max (L := L) hT (Nat.sub_le T g)
    rw [computeNextPrice_below hlt, if_neg (by omega)]
    omega
  · rw [computeNextPrice_target]
    omega
  · have hs := one_le_priceStep T L (g - T)
    rw [computeNextPrice_above hgt hg]
    omega

theorem boundaryExact_above {T L p g : Nat} (hT : 0 < T) (hL : 0 < L)
    (hp : L + max 1 (L / 8) < p) (hg : g ≤ T * 2) :
    BoundaryExact T L p (estimateGasUsedBoundary T p L) g := by
  have hb : estimateGasUsedBoundary T p L = (some (T * 2), none) := by
    simp [estimateGasUsedBoundary, basePriceChangeDenominator, Nat.pos_iff_ne_zero.mp hT,
      Nat.pos_iff_ne_zero.mp hL, hp]
  have hf := computeNextPrice_le_add_max (L := L) hT hg
  rw [hb]
  simp only [BoundaryExact, Option.some.injEq, exists_eq_left', reduceCtorEq, false_and,
    exists_false, iff_false]
  omega

theorem boundaryExact_below {T L p g : Nat} (hT : 0 < T) (hL : 0 < L)
    (hp : p < L - max 1 (L / 8)) (hg : g ≤ T * 2) :
    BoundaryExact T L p (estimateGasUsedBoundary T p L) g := by
  have hb : estimateGasUsedBoundary T p L = (none, some 0) := by
    have hnot : ¬ p > L + max 1 (L / 8) := by omega
    simp [estimateGasUsedBoundary, basePriceChangeDenominator, Nat.pos_iff_ne_zero.mp hT,
      Nat.pos_iff_ne_zero.mp hL, hp, hnot]
  have hf := sub_max_le_computeNextPrice (L := L) hT hg
  rw [hb]
  simp only [BoundaryExact, Option.some.injEq, exists_eq_left', reduceCtorEq, false_and,
    exists_false, iff_false]
  omega

/-- With `L = 0` the next price is 1 above the target and 0 elsewhere. -/
theorem computeNextPrice_zero_last {T g : Nat} (hg : g ≤ T * 2) :
    computeNextPrice T g 0 0 = if T < g then 1 else 0 := by
  rcases Nat.lt_or_ge T g with hgt | hle
  · rw [computeNextPrice_above hgt hg, priceStep_eq, if_pos hgt]
    simp
  · rw [if_neg (Nat.not_lt.mpr hle)]
    have := computeNextPrice_le_of_le (L := 0) hle
    omega

theorem boundaryExact_zero_last {T p g : Nat} (hT : 0 < T) (hg : g ≤ T * 2) :
    BoundaryExact T 0 p (estimateGasUsedBoundary T p 0) g := by
  have hT0 : T ≠ 0 := Nat.pos_iff_ne_zero.mp hT
  unfold BoundaryExact
  rw [computeNextPrice_zero_last hg]
  rcases Nat.lt_trichotomy p 1 with hp | rfl | hp
  · obtain rfl : p = 0 := by omega
    simp [estimateGasUsedBoundary, hT0]
    split <;> omega
  · simp [estimateGasUsedBoundary, hT0]
    split <;> omega
  · have hp0 : p ≠ 0 := by omega
    have hp1 : p ≠ 1 := by omega
    simp [estimateGasUsedBoundary, hT0, hp0, hp1]
    split <;> omega

/-! ## The claim -/

/-- Every branch of `estimate_gas_used_boundary` is exact on `[0, 2T]`. -/
theorem boundary_exact {T L p g : Nat} (hT : 0 < T) (hg : g ≤ T * 2) :
    BoundaryExact T L p (estimateGasUsedBoundary T p L) g := by
  rcases Nat.eq_zero_or_pos L with rfl | hL
  · exact boundaryExact_zero_last hT hg
  rcases Nat.lt_or_ge (L + max 1 (L / 8)) p with hup | hup
  · exact boundaryExact_above hT hL hup hg
  rcases Nat.lt_or_ge p (L - max 1 (L / 8)) with hlo | hlo
  · exact boundaryExact_below hT hL hlo hg
  rcases Nat.lt_trichotomy p L with hlt | rfl | hgt
  · exact boundaryExact_fall hT hL hlt hlo hg
  · exact boundaryExact_last hT hL hg
  · exact boundaryExact_rise hT hL hgt hup hg

/-- The upper boundary never passes `2T + 1`. -/
theorem boundary_upper_le {T L p c : Nat} (hT : 0 < T)
    (hc : (estimateGasUsedBoundary T p L).2 = some c) : c ≤ T * 2 + 1 := by
  have hT0 : T ≠ 0 := Nat.pos_iff_ne_zero.mp hT
  rcases Nat.eq_zero_or_pos L with rfl | hL
  · simp only [estimateGasUsedBoundary, hT0, if_true, if_false] at hc
    split at hc <;> [skip; split at hc] <;> simp at hc <;> omega
  rcases Nat.lt_or_ge (L + max 1 (L / 8)) p with hup | hup
  · simp [estimateGasUsedBoundary, basePriceChangeDenominator, hT0,
      Nat.pos_iff_ne_zero.mp hL, hup] at hc
  rcases Nat.lt_or_ge p (L - max 1 (L / 8)) with hlo | hlo
  · have hnot : ¬ p > L + max 1 (L / 8) := by omega
    simp [estimateGasUsedBoundary, basePriceChangeDenominator, hT0,
      Nat.pos_iff_ne_zero.mp hL, hlo, hnot] at hc
    omega
  rcases Nat.lt_trichotomy p L with hlt | rfl | hgt
  · rw [estimateGasUsedBoundary_fall hT0 (by omega) hlt hlo] at hc
    simp only [Option.some.injEq] at hc
    omega
  · rw [estimateGasUsedBoundary_last hT0 (by omega)] at hc
    simp only [Option.some.injEq] at hc
    omega
  · rw [estimateGasUsedBoundary_rise hT0 (by omega) hgt hup] at hc
    simp only [Option.some.injEq] at hc
    omega

/-- The next price is non-decreasing in the gas used on `[0, 2T]`: a decrease between two
    gas values would put the smaller one past the upper boundary of the larger one's price. -/
theorem computeNextPrice_mono {T L g₁ g₂ : Nat} (hT : 0 < T) (h12 : g₁ ≤ g₂)
    (hg : g₂ ≤ T * 2) : computeNextPrice T g₁ L 0 ≤ computeNextPrice T g₂ L 0 := by
  refine Nat.le_of_not_lt fun hlt => ?_
  obtain ⟨c, hc, hcg⟩ :=
    (boundary_exact (p := computeNextPrice T g₂ L 0) hT (h12.trans hg)).2.1 hlt
  exact Nat.lt_irrefl _ ((boundary_exact hT hg).2.2 ⟨c, hc, hcg.trans h12⟩)

/-- `estimate_max_possible_gas` is the largest gas in `[0, 2T]` whose next price is at most
    `p`, and 0 when there is none. -/
theorem estimateMaxPossibleGas_spec {T L p : Nat} (hT : 0 < T) :
    ((∃ g ≤ T * 2, computeNextPrice T g L 0 ≤ p) →
      IsGreatest {g | g ≤ T * 2 ∧ computeNextPrice T g L 0 ≤ p}
        (estimateMaxPossibleGas T p L)) ∧
    ((∀ g ≤ T * 2, p < computeNextPrice T g L 0) → estimateMaxPossibleGas T p L = 0) := by
  have hexact := fun g (hg : g ≤ T * 2) => (boundary_exact (L := L) (p := p) hT hg).2
  unfold estimateMaxPossibleGas
  generalize hup : (estimateGasUsedBoundary T p L).2 = up at hexact
  rcases up with _ | _ | c
  · -- no gas prices above `p`: the whole range qualifies
    have hall : ∀ g ≤ T * 2, computeNextPrice T g L 0 ≤ p := fun g hg =>
      Nat.le_of_not_lt fun h => by simpa using (hexact g hg).1 h
    exact ⟨fun _ => ⟨⟨le_rfl, hall _ le_rfl⟩, fun g hg => hg.1⟩,
      fun h => absurd (h _ le_rfl) (Nat.not_lt.mpr (hall _ le_rfl))⟩
  · -- every gas prices above `p`
    have hnone : ∀ g ≤ T * 2, p < computeNextPrice T g L 0 := fun g hg =>
      (hexact g hg).2 ⟨0, rfl, Nat.zero_le g⟩
    exact ⟨fun ⟨g, hg, hp⟩ => absurd hp (Nat.not_le.mpr (hnone g hg)), fun _ => rfl⟩
  · -- gas prices above `p` exactly from `c + 1` on
    dsimp only
    have hc := boundary_upper_le hT hup
    have hiff : ∀ g ≤ T * 2, computeNextPrice T g L 0 ≤ p ↔ g ≤ c := fun g hg => by
      rw [← Nat.not_lt, hexact g hg]
      simp only [Option.some.injEq, exists_eq_left', Nat.not_le]
      omega
    refine ⟨fun _ => ⟨⟨by omega, (hiff c (by omega)).2 le_rfl⟩, fun g hg => ?_⟩,
      fun h => absurd ((hiff c (by omega)).2 le_rfl) (Nat.not_le.mpr (h c (by omega)))⟩
    exact (hiff g hg.1).1 hg.2

/-- The base-price boundary is the exact preimage of the update rule: on every gas
    `g ∈ [0, 2T]` the next price is below `p` exactly up to the lower boundary and above `p`
    exactly from the upper one; hence the rule is monotone there and
    `estimate_max_possible_gas` is the largest gas with next price at most `p` (or 0). -/
def BoundaryPreimage (T L p : Nat) : Prop :=
  (∀ g ≤ 2 * T,
    (computeNextPrice T g L 0 < p ↔ ∃ b, (estimateGasUsedBoundary T p L).1 = some b ∧ g ≤ b) ∧
    (computeNextPrice T g L 0 > p ↔ ∃ c, (estimateGasUsedBoundary T p L).2 = some c ∧ g ≥ c)) ∧
  (∀ g₁ g₂, g₁ ≤ g₂ → g₂ ≤ 2 * T → computeNextPrice T g₁ L 0 ≤ computeNextPrice T g₂ L 0) ∧
  ((∃ g ≤ 2 * T, computeNextPrice T g L 0 ≤ p) →
    IsGreatest {g | g ≤ 2 * T ∧ computeNextPrice T g L 0 ≤ p} (estimateMaxPossibleGas T p L)) ∧
  ((∀ g ≤ 2 * T, p < computeNextPrice T g L 0) → estimateMaxPossibleGas T p L = 0)

theorem base_price_boundary_preimage (T L p : Nat) (hT : 1 ≤ T) : BoundaryPreimage T L p := by
  have h2 : 2 * T = T * 2 := Nat.mul_comm 2 T
  rw [BoundaryPreimage, h2]
  exact ⟨fun g hg => boundary_exact hT hg, fun _ _ h12 hg => computeNextPrice_mono hT h12 hg,
    (estimateMaxPossibleGas_spec hT).1, (estimateMaxPossibleGas_spec hT).2⟩

theorem base_price_boundary_preimage_at_one : 1 ≤ 1 ∧ BoundaryPreimage 1 8 9 :=
  ⟨le_rfl, base_price_boundary_preimage 1 8 9 le_rfl⟩

end Mazze.Primitives
