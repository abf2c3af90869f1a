/-
  `sqrt_u256` and `power_two_fractional` of the `mazze_math` crate (`lib.rs`).

  `U256` values are natural numbers below `2 ^ 256`, and `U256::bits` is `Nat.size`. `U256`
  multiplication and addition panic on overflow, and so do `as_u64` of a value of more than 64
  bits and a `u64` addition that overflows; each such panic is `none`. `u64::sqrt` (the `num`
  crate's `Roots`) is the floor square root `Nat.sqrt`. A `U256` left shift drops the bits
  shifted out (`% 2 ^ 256`).

  Main results:
  * `newtonLoop_eq`: from a guess at or above the floor root, the Newton loop of `sqrt_u256`
    returns the floor root, unless the guess's square overflows, and then it panics at once.
  * `sqrtU256_eq`: `sqrt_u256 x` is the floor square root of `x` for every `x` below
    `(2 ^ 32 - 1) ^ 2 * 2 ^ 192`, and panics for every larger `U256`: the first guess for a
    256-bit input whose top word is at least `(2 ^ 32 - 1) ^ 2` is `2 ^ 128`, whose square
    overflows.
  * `powerTwoFractional_decrease`: with `increase = false`, `power_two_fractional` never panics;
    its base stays at most `2 ^ 254`.
-/
import Mazze.Arith.Newton
import Mathlib

namespace Mazze.Math

open Mazze.Arith

/-- `as_u64` of a `U256`, which panics on a value of more than 64 bits. -/
def asU64 (x : Nat) : Option Nat := if x < 2 ^ 64 then some x else none

/-- `u64` addition, which panics on overflow. -/
def u64Add (a b : Nat) : Option Nat := if a + b < 2 ^ 64 then some (a + b) else none

theorem asU64_of_lt {x : Nat} (h : x < 2 ^ 64) : asU64 x = some x := if_pos h

theorem asU64_of_le {x : Nat} (h : 2 ^ 64 ≤ x) : asU64 x = none := if_neg (Nat.not_lt.mpr h)

theorem u64Add_of_lt {a b : Nat} (h : a + b < 2 ^ 64) : u64Add a b = some (a + b) := if_pos h

/-- The loop `while root * root > input { root = (input / root + root) / 2 }` of `sqrt_u256`.
The product and the sum are `U256` operations; `input / root` cannot divide by zero, as
`root * root > input`. -/
def newtonLoop (input root : Nat) : Option Nat :=
  if 2 ^ 256 ≤ root * root then none
  else if h : input < root * root then
    if 2 ^ 256 ≤ input / root + root then none
    else newtonLoop input ((input / root + root) / 2)
  else some root
termination_by root
decreasing_by exact sqrt_newtonStep_lt h

/-- `sqrt_u256`. -/
def sqrtU256 (input : Nat) : Option Nat := do
  let bits := input.size
  if bits ≤ 64 then
    let word ← asU64 input
    return Nat.sqrt word
  -- the top 64 or 63 bits, so that the number of bits below them is even
  let significantBits := 64 - bits % 2
  let restBits := bits - significantBits
  let significantWord ← asU64 (input >>> restBits)
  let rootWord ← u64Add (Nat.sqrt significantWord) 1
  newtonLoop input (rootWord <<< (restBits / 2) % 2 ^ 256)

/-- The first statement of a round of `power_two_fractional`: if bit `i` of `ratio` is set
(`ratio & (1 << i) != 0`), the base is doubled (`base <<= 1`) or halved (`base >>= 1`). -/
def roundBase (ratio : Nat) (increase : Bool) (base i : Nat) : Nat :=
  if ratio.testBit i then (if increase then base <<< 1 % 2 ^ 256 else base >>> 1) else base

/-- One round of the loop of `power_two_fractional`: the base, doubled or halved by bit `i` of
`ratio`, is replaced by its square root shifted up by 127 bits. -/
def powerTwoRound (ratio : Nat) (increase : Bool) (base i : Nat) : Option Nat := do
  let root ← sqrtU256 (roundBase ratio increase base i)
  return root <<< 127 % 2 ^ 256

/-- `power_two_fractional`. -/
def powerTwoFractional (ratio : Nat) (increase : Bool) (precision : Nat) : Option Nat :=
  -- `assert!(precision <= 127)`
  if 127 < precision then none
  else do
    let base ← (List.range 64).foldlM (powerTwoRound ratio increase) (2 ^ 254)
    return base >>> (254 - precision)

/-! ## The Newton loop -/

theorem newtonLoop_eq (input : Nat) {root : Nat} (hle : Nat.sqrt input ≤ root) :
    newtonLoop input root = if 2 ^ 256 ≤ root * root then none else some (Nat.sqrt input) := by
  induction root using Nat.strong_induction_on with
  | _ root ih =>
    rw [newtonLoop]
    by_cases hover : 2 ^ 256 ≤ root * root
    · rw [if_pos hover, if_pos hover]
    rw [if_neg hover, if_neg hover]
    by_cases hgt : input < root * root
    · -- one more step: the next guess is smaller, still at or above the root, and its
      -- square does not overflow either
      have hpos : root ≠ 0 := by
        rintro rfl
        simp at hgt
      have hdiv : input / root < root := (Nat.div_lt_iff_lt_mul (Nat.pos_of_ne_zero hpos)).mpr hgt
      have hroot : root < 2 ^ 128 :=
        Nat.mul_self_lt_mul_self_iff.mp (by rw [← pow_add]; omega)
      have hsum : ¬ 2 ^ 256 ≤ input / root + root := by omega
      have hstep := sqrt_newtonStep_lt hgt
      have hnext : ¬ 2 ^ 256 ≤ (input / root + root) / 2 * ((input / root + root) / 2) := by
        have := Nat.mul_self_le_mul_self hstep.le
        omega
      rw [dif_pos hgt, if_neg hsum, ih _ hstep (sqrt_le_newtonStep input hpos), if_neg hnext]
    · rw [dif_neg hgt, eq_sqrt_of_le hle (Nat.le_of_not_lt hgt)]

/-! ## `sqrt_u256` -/

/-- `rest_bits` of `sqrt_u256`: the bits of `x` below its top 64 or 63 bits, an even number. -/
def restBits (x : Nat) : Nat := x.size - (64 - x.size % 2)

/-- The first guess of `sqrt_u256` for an input of more than 64 bits: the root of the top word,
plus one, shifted back by half the bits below the top word. -/
def firstGuess (x : Nat) : Nat := (Nat.sqrt (x >>> restBits x) + 1) * 2 ^ (restBits x / 2)

section Sqrt

variable {x : Nat}

theorem sqrtU256_of_size_le (h : x.size ≤ 64) : sqrtU256 x = some (Nat.sqrt x) := by
  simp only [sqrtU256]
  rw [if_pos h, asU64_of_lt (Nat.size_le.mp h)]
  rfl

theorem restBits_even (x : Nat) : restBits x % 2 = 0 := by
  unfold restBits
  omega

theorem restBits_le (hx : x < 2 ^ 256) : restBits x ≤ 192 := by
  have := Nat.size_le.mpr hx
  unfold restBits
  omega

/-- The top word of a wide input has at most 64 bits. -/
theorem topWord_lt (x : Nat) : x >>> restBits x < 2 ^ 64 := by
  rw [Nat.shiftRight_eq_div_pow, Nat.div_lt_iff_lt_mul (Nat.two_pow_pos _), ← pow_add]
  exact Nat.lt_of_lt_of_le (Nat.lt_size_self x) (Nat.pow_le_pow_right (by norm_num)
    (by unfold restBits; omega))

theorem sqrt_topWord_lt (x : Nat) : Nat.sqrt (x >>> restBits x) + 1 ≤ 2 ^ 32 :=
  Nat.sqrt_lt.mpr (by have := topWord_lt x; omega)

theorem firstGuess_lt (hx : x < 2 ^ 256) : firstGuess x < 2 ^ 256 := by
  have hpow : 2 ^ (restBits x / 2) ≤ 2 ^ 96 :=
    Nat.pow_le_pow_right (by norm_num) (by have := restBits_le hx; omega)
  have := Nat.mul_le_mul (sqrt_topWord_lt x) hpow
  unfold firstGuess
  omega

/-- In the wide branch, `sqrt_u256` runs the Newton loop from `firstGuess`. -/
theorem sqrtU256_of_lt_size (hb : 64 < x.size) (hx : x < 2 ^ 256) :
    sqrtU256 x = newtonLoop x (firstGuess x) := by
  have hword := topWord_lt x
  have hroot := sqrt_topWord_lt x
  simp only [sqrtU256]
  rw [if_neg (Nat.not_le.mpr hb)]
  simp only [Option.bind_eq_bind, show x.size - (64 - x.size % 2) = restBits x from rfl,
    asU64_of_lt hword, Option.bind_some]
  rw [u64Add_of_lt (by omega), Option.bind_some, Nat.shiftLeft_eq, ← firstGuess,
    Nat.mod_eq_of_lt (firstGuess_lt hx)]

/-- Half the rest, twice: `2 ^ (rest / 2)` squared is `2 ^ rest`. -/
theorem pow_half_mul_self (x : Nat) :
    2 ^ (restBits x / 2) * 2 ^ (restBits x / 2) = 2 ^ restBits x := by
  rw [← pow_add]
  have := restBits_even x
  congr 1
  omega

theorem firstGuess_mul_self (x : Nat) :
    firstGuess x * firstGuess x =
      (Nat.sqrt (x >>> restBits x) + 1) * (Nat.sqrt (x >>> restBits x) + 1) * 2 ^ restBits x := by
  rw [firstGuess, ← pow_half_mul_self x]
  ring

/-- The first guess is above the floor root of the input. -/
theorem sqrt_lt_firstGuess (x : Nat) : Nat.sqrt x < firstGuess x := by
  rw [Nat.sqrt_lt, firstGuess_mul_self x]
  have hw : x < (x >>> restBits x + 1) * 2 ^ restBits x := by
    rw [Nat.shiftRight_eq_div_pow, Nat.mul_comm]
    exact Nat.lt_mul_div_succ x (Nat.two_pow_pos _)
  have hsq := Nat.lt_succ_sqrt (x >>> restBits x)
  calc x < (x >>> restBits x + 1) * 2 ^ restBits x := hw
    _ ≤ _ := Nat.mul_le_mul_right _ hsq

/-- The first guess's square overflows `U256` exactly when the input is at least
`(2 ^ 32 - 1) ^ 2 * 2 ^ 192`. Below 256 bits it never does: the square is less than the input
plus `2 ^ 225`. With 256 bits the top word is `x / 2 ^ 192`, and its root plus one reaches
`2 ^ 32` exactly when the word reaches `(2 ^ 32 - 1) ^ 2`. -/
theorem firstGuess_overflow_iff (hb : 64 < x.size) (hx : x < 2 ^ 256) :
    2 ^ 256 ≤ firstGuess x * firstGuess x ↔ (2 ^ 32 - 1) ^ 2 * 2 ^ 192 ≤ x := by
  rw [firstGuess_mul_self x]
  have hsize : x.size ≤ 256 := Nat.size_le.mpr hx
  by_cases h256 : x.size = 256
  · have hrest : restBits x = 192 := by
      unfold restBits
      omega
    rw [hrest, Nat.shiftRight_eq_div_pow]
    constructor
    · intro h
      have h64 : 2 ^ 64 ≤ (Nat.sqrt (x / 2 ^ 192) + 1) * (Nat.sqrt (x / 2 ^ 192) + 1) := by
        rw [show (2 : Nat) ^ 256 = 2 ^ 64 * 2 ^ 192 by norm_num] at h
        exact Nat.le_of_mul_le_mul_right h (Nat.two_pow_pos _)
      have h32 : 2 ^ 32 ≤ Nat.sqrt (x / 2 ^ 192) + 1 :=
        Nat.mul_self_le_mul_self_iff.mp (by rw [← pow_add]; exact h64)
      have hword : (2 ^ 32 - 1) ^ 2 ≤ x / 2 ^ 192 := Nat.le_sqrt'.mp (by omega)
      exact (Nat.le_div_iff_mul_le (Nat.two_pow_pos _)).mp hword
    · intro h
      have hword : (2 ^ 32 - 1) ^ 2 ≤ x / 2 ^ 192 :=
        (Nat.le_div_iff_mul_le (Nat.two_pow_pos _)).mpr h
      have h32 : 2 ^ 32 ≤ Nat.sqrt (x / 2 ^ 192) + 1 := by
        have := Nat.le_sqrt'.mpr hword
        omega
      have h64 := Nat.mul_le_mul h32 h32
      calc 2 ^ 256 = 2 ^ 32 * 2 ^ 32 * 2 ^ 192 := by norm_num
        _ ≤ _ := Nat.mul_le_mul_right _ h64
  · -- below 256 bits: the input is below `2 ^ 255`, and the square stays below `2 ^ 256`
    have hx255 : x < 2 ^ 255 := Nat.size_le.mp (by omega)
    have hbound : 2 ^ 255 ≤ (2 ^ 32 - 1) ^ 2 * 2 ^ 192 := by norm_num
    have hsq := Nat.sqrt_le (x >>> restBits x)
    have hroot := sqrt_topWord_lt x
    have hword : x >>> restBits x * 2 ^ restBits x ≤ x := by
      rw [Nat.shiftRight_eq_div_pow]
      exact Nat.div_mul_le_self x _
    have hpow : 2 ^ restBits x ≤ 2 ^ 192 := Nat.pow_le_pow_right (by norm_num) (restBits_le hx)
    have hexpand : (Nat.sqrt (x >>> restBits x) + 1) * (Nat.sqrt (x >>> restBits x) + 1) *
        2 ^ restBits x ≤ x + 2 ^ 33 * 2 ^ 192 := by
      have hlow : (Nat.sqrt (x >>> restBits x) + 1) * (Nat.sqrt (x >>> restBits x) + 1) ≤
          x >>> restBits x + 2 ^ 33 := by
        nlinarith
      calc _ ≤ (x >>> restBits x + 2 ^ 33) * 2 ^ restBits x := Nat.mul_le_mul_right _ hlow
        _ = x >>> restBits x * 2 ^ restBits x + 2 ^ 33 * 2 ^ restBits x := Nat.add_mul _ _ _
        _ ≤ x + 2 ^ 33 * 2 ^ 192 := Nat.add_le_add hword (Nat.mul_le_mul_left _ hpow)
    constructor
    · intro h
      omega
    · intro h
      omega

theorem sqrtU256_eq (hx : x < 2 ^ 256) :
    sqrtU256 x = if (2 ^ 32 - 1) ^ 2 * 2 ^ 192 ≤ x then none else some (Nat.sqrt x) := by
  by_cases hb : x.size ≤ 64
  · have hx64 : x < 2 ^ 64 := Nat.size_le.mp hb
    rw [sqrtU256_of_size_le hb, if_neg (by omega)]
  · have hb' : 64 < x.size := Nat.lt_of_not_le hb
    rw [sqrtU256_of_lt_size hb' hx, newtonLoop_eq x (sqrt_lt_firstGuess x).le]
    exact if_congr (firstGuess_overflow_iff hb' hx) rfl rfl

end Sqrt

/-! ## `power_two_fractional` -/

section PowerTwo

variable (ratio : Nat) (increase : Bool)

theorem roundBase_lt {base : Nat} (hb : base < 2 ^ 256) (i : Nat) :
    roundBase ratio increase base i < 2 ^ 256 := by
  unfold roundBase
  split
  · split
    · exact Nat.mod_lt _ (Nat.two_pow_pos _)
    · rw [Nat.shiftRight_eq_div_pow]
      omega
  · exact hb

/-- A round panics exactly when its base reaches the bound of `sqrtU256_eq`. -/
theorem powerTwoRound_eq {base : Nat} (hb : base < 2 ^ 256) (i : Nat) :
    powerTwoRound ratio increase base i =
      if (2 ^ 32 - 1) ^ 2 * 2 ^ 192 ≤ roundBase ratio increase base i then none
      else some (Nat.sqrt (roundBase ratio increase base i) * 2 ^ 127 % 2 ^ 256) := by
  simp only [powerTwoRound, Option.bind_eq_bind, Option.pure_def,
    sqrtU256_eq (roundBase_lt ratio increase hb i)]
  split <;> simp [Nat.shiftLeft_eq]

/-- Halving never lets a base of at most `2 ^ 254` grow: the root of such a base is at most
`2 ^ 127`, and shifted back it is at most `2 ^ 254` again. -/
theorem powerTwoRound_decrease {base : Nat} (hb : base ≤ 2 ^ 254) (i : Nat) :
    ∃ base', powerTwoRound ratio false base i = some base' ∧ base' ≤ 2 ^ 254 := by
  have hround : roundBase ratio false base i ≤ 2 ^ 254 := by
    unfold roundBase
    split
    · rw [if_neg Bool.false_ne_true, Nat.shiftRight_eq_div_pow]
      omega
    · exact hb
  have hroot : Nat.sqrt (roundBase ratio false base i) ≤ 2 ^ 127 :=
    Nat.le_of_lt_succ (Nat.sqrt_lt'.mpr (by
      calc roundBase ratio false base i ≤ 2 ^ 254 := hround
        _ < (2 ^ 127 + 1) ^ 2 := by norm_num))
  have hshift : Nat.sqrt (roundBase ratio false base i) * 2 ^ 127 ≤ 2 ^ 254 :=
    calc _ ≤ 2 ^ 127 * 2 ^ 127 := Nat.mul_le_mul_right _ hroot
      _ = 2 ^ 254 := by norm_num
  refine ⟨Nat.sqrt (roundBase ratio false base i) * 2 ^ 127 % 2 ^ 256, ?_, ?_⟩
  · rw [powerTwoRound_eq ratio false (by omega) i, if_neg (by omega)]
  · rw [Nat.mod_eq_of_lt (by omega)]
    exact hshift

/-- The loop of `power_two_fractional` with `increase = false`: every round keeps the base at
most `2 ^ 254`, so the fold never panics. -/
theorem foldlM_powerTwoRound_decrease (rounds : List Nat) {base : Nat} (hb : base ≤ 2 ^ 254) :
    ∃ base', rounds.foldlM (powerTwoRound ratio false) base = some base' ∧ base' ≤ 2 ^ 254 := by
  induction rounds generalizing base with
  | nil => exact ⟨base, rfl, hb⟩
  | cons i rounds ih =>
    obtain ⟨next, hnext, hle⟩ := powerTwoRound_decrease ratio hb i
    obtain ⟨base', hrun, hle'⟩ := ih hle
    exact ⟨base', by simp [List.foldlM_cons, hnext, hrun], hle'⟩

/-- `power_two_fractional(ratio, false, precision)` never panics for `precision ≤ 127`. -/
theorem powerTwoFractional_decrease_isSome {precision : Nat} (hp : precision ≤ 127) :
    (powerTwoFractional ratio false precision).isSome := by
  obtain ⟨base, hrun, -⟩ := foldlM_powerTwoRound_decrease ratio (List.range 64) (le_refl _)
  unfold powerTwoFractional
  rw [if_neg (Nat.not_lt.mpr hp)]
  simp only [Option.bind_eq_bind, hrun, Option.bind_some, Option.pure_def, Option.isSome_some]

/-- The ratio whose low 32 bits are all set, at the largest precision: with `increase = false`
    the rounds go through. -/
theorem powerTwoFractional_decrease_isSome_at_max :
    (127 : Nat) ≤ 127 ∧ (powerTwoFractional (2 ^ 32 - 1) false 127).isSome :=
  ⟨le_rfl, powerTwoFractional_decrease_isSome (2 ^ 32 - 1) le_rfl⟩

/-- A round as `powerTwoRound_eq` describes it, with the root taken by `Nat.nthRoot 2`, whose
Newton iteration is structural and so evaluates in the kernel. -/
def powerTwoRoundSpec (base i : Nat) : Option Nat :=
  if (2 ^ 32 - 1) ^ 2 * 2 ^ 192 ≤ roundBase ratio increase base i then none
  else some (Nat.nthRoot 2 (roundBase ratio increase base i) * 2 ^ 127 % 2 ^ 256)

theorem powerTwoRoundSpec_lt {base i b : Nat}
    (h : powerTwoRoundSpec ratio increase base i = some b) :
    b < 2 ^ 256 := by
  unfold powerTwoRoundSpec at h
  split at h
  · cases h
  · cases h
    exact Nat.mod_lt _ (Nat.two_pow_pos _)

theorem foldlM_powerTwoRound_eq_spec (rounds : List Nat) {base : Nat} (hb : base < 2 ^ 256) :
    rounds.foldlM (powerTwoRound ratio increase) base =
      rounds.foldlM (powerTwoRoundSpec ratio increase) base := by
  induction rounds generalizing base with
  | nil => rfl
  | cons i rounds ih =>
    have hround :
        powerTwoRound ratio increase base i = powerTwoRoundSpec ratio increase base i := by
      rw [powerTwoRound_eq ratio increase hb i, powerTwoRoundSpec, sqrt_eq_nthRoot_two]
    simp only [List.foldlM_cons, hround]
    cases hspec : powerTwoRoundSpec ratio increase base i with
    | none => rfl
    | some b => exact ih (powerTwoRoundSpec_lt ratio increase hspec)

end PowerTwo

/-- The first 32 rounds with the low 32 bits of `ratio` set and `increase = true` double the base
each time; its roots come ever closer to `2 ^ 255`, and the doubled base of round 31 is past the
bound of `sqrtU256_eq`. -/
theorem foldlM_powerTwoRoundSpec_panics :
    (List.range 32).foldlM (powerTwoRoundSpec (2 ^ 32 - 1) true) (2 ^ 254) = none := by
  decide +kernel


/-- Below bit 32, a ratio whose low 32 bits are set picks the same bases as `2 ^ 32 - 1`. -/
theorem roundBase_of_low_bits {ratio : Nat} (hr : ratio % 2 ^ 32 = 2 ^ 32 - 1) (increase : Bool)
    (base : Nat) {i : Nat} (hi : i < 32) :
    roundBase ratio increase base i = roundBase (2 ^ 32 - 1) increase base i := by
  have hbit : ratio.testBit i = true := by
    have h := Nat.testBit_mod_two_pow ratio 32 i
    rw [hr, Nat.testBit_two_pow_sub_one, decide_eq_true hi, Bool.true_and] at h
    exact h.symm
  have hmask : (2 ^ 32 - 1).testBit i = true := by
    rw [Nat.testBit_two_pow_sub_one]
    exact decide_eq_true hi
  simp only [roundBase, hbit, hmask]

theorem foldlM_powerTwoRoundSpec_of_low_bits {ratio : Nat} (hr : ratio % 2 ^ 32 = 2 ^ 32 - 1)
    (increase : Bool) (rounds : List Nat) (hlt : ∀ i ∈ rounds, i < 32) (base : Nat) :
    rounds.foldlM (powerTwoRoundSpec ratio increase) base =
      rounds.foldlM (powerTwoRoundSpec (2 ^ 32 - 1) increase) base := by
  induction rounds generalizing base with
  | nil => simp only [List.foldlM_nil]
  | cons i rounds ih =>
    have hround : powerTwoRoundSpec ratio increase base i =
        powerTwoRoundSpec (2 ^ 32 - 1) increase base i := by
      unfold powerTwoRoundSpec
      rw [roundBase_of_low_bits hr increase base (hlt i List.mem_cons_self)]
    rw [List.foldlM_cons, List.foldlM_cons, hround]
    cases powerTwoRoundSpec (2 ^ 32 - 1) increase base i with
    | none => simp only [Option.bind_eq_bind, Option.bind_none]
    | some b =>
      simp only [Option.bind_eq_bind, Option.bind_some]
      exact ih (fun j hj => hlt j (List.mem_cons_of_mem i hj)) b

/-- `power_two_fractional(ratio, true, precision)` panics for every ratio whose low 32 bits are
set: its first 32 rounds already do. -/
theorem powerTwoFractional_panics {ratio : Nat} (hr : ratio % 2 ^ 32 = 2 ^ 32 - 1)
    (precision : Nat) : powerTwoFractional ratio true precision = none := by
  have hfirst : (List.range 32).foldlM (powerTwoRound ratio true) (2 ^ 254) = none := by
    rw [foldlM_powerTwoRound_eq_spec ratio true _ (by norm_num),
      foldlM_powerTwoRoundSpec_of_low_bits hr true _ (fun i hi => List.mem_range.mp hi)]
    exact foldlM_powerTwoRoundSpec_panics
  have hsplit : List.range 64 = List.range 32 ++ (List.range 32).map (32 + ·) :=
    @List.range_add 32 32
  unfold powerTwoFractional
  split
  · rfl
  · simp only [hsplit, List.foldlM_append, Option.bind_eq_bind, hfirst, Option.bind_none]

/-- `sqrt_u256` is the floor square root below `(2 ^ 32 - 1) ^ 2 * 2 ^ 192` and panics from there
up to `U256::MAX`; `power_two_fractional` with `increase = true` panics for every ratio whose low
32 bits are set, at every precision. -/
theorem sqrtU256_floor_root_or_panic :
    (∀ x, x < 2 ^ 256 →
      sqrtU256 x = if (2 ^ 32 - 1) ^ 2 * 2 ^ 192 ≤ x then none else some (Nat.sqrt x)) ∧
    (∀ ratio precision, ratio % 2 ^ 32 = 2 ^ 32 - 1 →
      powerTwoFractional ratio true precision = none) :=
  ⟨fun _ hx => sqrtU256_eq hx, fun _ precision hr => powerTwoFractional_panics hr precision⟩

theorem sqrtU256_floor_root_or_panic_at_max :
    sqrtU256 (2 ^ 256 - 1) = none ∧ powerTwoFractional (2 ^ 32 - 1) true 127 = none :=
  ⟨(sqrtU256_floor_root_or_panic.1 _ (by norm_num)).trans (if_pos (by norm_num)),
    sqrtU256_floor_root_or_panic.2 _ _ (by norm_num)⟩

end Mazze.Math
