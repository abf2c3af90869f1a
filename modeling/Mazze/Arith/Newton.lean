/-
  Newton's method for integer roots.

  `newtonStep k a r` is the Newton step `(a / r ^ k + k * r) / (k + 1)` towards the
  `(k + 1)`-th root of `a` from the guess `r`. From a positive guess the step never falls below
  the floor root (`nthRoot_le_newtonStep`, from Mathlib's bound on the same step), and from a
  guess whose power exceeds `a` it goes strictly down (`newtonStep_lt`). A guess at or above the
  floor root whose power is at most `a` is the floor root (`eq_nthRoot_of_le`). A loop that steps
  while the power exceeds `a` therefore stops at the floor root. The square root is the case
  `k = 1`, where `Nat.nthRoot 2` is `Nat.sqrt` (`sqrt_eq_nthRoot_two`).
-/
import Mathlib

namespace Mazze.Arith

/-- One Newton step towards the `(k + 1)`-th root of `a` from the guess `r`. -/
def newtonStep (k a r : Nat) : Nat := (a / r ^ k + k * r) / (k + 1)

theorem newtonStep_one (a r : Nat) : newtonStep 1 a r = (a / r + r) / 2 := by
  simp [newtonStep]

theorem nthRoot_le_newtonStep (k a : Nat) {r : Nat} (hr : r ≠ 0) :
    Nat.nthRoot (k + 1) a ≤ newtonStep k a r := by
  have h := Nat.nthRoot.lt_pow_go_succ_aux (a := a) (n := k) hr
  have hlt : Nat.nthRoot (k + 1) a < newtonStep k a r + 1 :=
    (Nat.nthRoot_lt_iff (Nat.succ_ne_zero k)).mpr h
  omega

theorem newtonStep_lt {k a r : Nat} (h : a < r ^ (k + 1)) : newtonStep k a r < r := by
  have hpos : 0 < r ^ k := Nat.pos_of_ne_zero (by
    intro h0
    simp [pow_succ, h0] at h)
  have hdiv : a / r ^ k < r := by
    rw [Nat.div_lt_iff_lt_mul hpos, ← pow_succ']
    exact h
  have hsum : a / r ^ k + k * r < r * (k + 1) := by
    rw [Nat.mul_succ, Nat.mul_comm r k]
    omega
  exact (Nat.div_lt_iff_lt_mul (Nat.succ_pos k)).mpr hsum

theorem eq_nthRoot_of_le {k a r : Nat} (hle : Nat.nthRoot (k + 1) a ≤ r)
    (hpow : r ^ (k + 1) ≤ a) : r = Nat.nthRoot (k + 1) a :=
  Nat.le_antisymm ((Nat.le_nthRoot_iff (Nat.succ_ne_zero k)).mpr hpow) hle

theorem sqrt_eq_nthRoot_two (a : Nat) : Nat.sqrt a = Nat.nthRoot 2 a := by
  symm
  rw [Nat.eq_sqrt']
  exact ⟨Nat.pow_nthRoot_le (Or.inl two_ne_zero), Nat.lt_pow_nthRoot_add_one two_ne_zero a⟩

/-- The square-root step from a positive guess stays at or above `Nat.sqrt`. -/
theorem sqrt_le_newtonStep (a : Nat) {r : Nat} (hr : r ≠ 0) :
    Nat.sqrt a ≤ (a / r + r) / 2 := by
  rw [sqrt_eq_nthRoot_two, ← newtonStep_one]
  exact nthRoot_le_newtonStep 1 a hr

theorem sqrt_newtonStep_lt {a r : Nat} (h : a < r * r) : (a / r + r) / 2 < r := by
  rw [← newtonStep_one]
  exact newtonStep_lt (by rw [pow_two]; exact h)

/-- A guess at or above `Nat.sqrt a` whose square is at most `a` is `Nat.sqrt a`. -/
theorem eq_sqrt_of_le {a r : Nat} (hle : Nat.sqrt a ≤ r) (hsq : r * r ≤ a) : r = Nat.sqrt a :=
  Nat.le_antisymm (Nat.le_sqrt.mpr hsq) hle

end Mazze.Arith
