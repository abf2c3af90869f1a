/-
  The checksum of base32 addresses (`mazze_addr/src/checksum.rs`): the BCH code of cashaddr over
  5-bit symbols, with a 40-bit state kept in a `u64`.

  Model. `polymodStep c d` is one turn of the loop of `polymod`, on `u64` and `u8` as the source
  has them; `polymod v` folds it from `1` and flips the lowest bit. `checksumSymbols chk` are the
  eight 5-bit groups of `chk`, highest first, as `mazze_addr_encode` writes them.

  What is proved:
  * every state of the loop is below `2 ^ 40` (`polymodStep_lt`);
  * a step is linear in the bits that the generator does not see: xoring the state with
    `x < 2 ^ 35` xors the next state with `x <<< 5`, and the symbol is xored in last
    (`polymodStep_xor`, `polymodStep_symbol`);
  * so symbols after any state add the number they spell to the state that zero symbols reach
    (`foldl_polymodStep_symbols`), and the eight symbols of `polymod (v ++ [0; 8])` appended to
    `v` make `polymod` zero (`polymod_append_checksumSymbols`), whatever `v` is.
-/
import Mazze.Bits.Groups

namespace Mazze.Addr

open Mazze.Bits

/-- The generator terms of one turn of `polymod`, chosen by the five bits shifted out. -/
def generator (c0 : UInt8) : UInt64 :=
  (if c0 &&& 0x01 != 0 then 0x98f2bc8e61 else 0) ^^^
  (if c0 &&& 0x02 != 0 then 0x79b76d99e2 else 0) ^^^
  (if c0 &&& 0x04 != 0 then 0xf33e5fb3c4 else 0) ^^^
  (if c0 &&& 0x08 != 0 then 0xae2eabe2a8 else 0) ^^^
  (if c0 &&& 0x10 != 0 then 0x1e4f43e470 else 0)

/-- One turn of the loop of `polymod`. -/
def polymodStep (c : UInt64) (d : UInt8) : UInt64 :=
  let c0 := (c >>> 35).toUInt8
  let c := ((c &&& 0x07ffffffff) <<< 5) ^^^ d.toUInt64
  let c := if c0 &&& 0x01 != 0 then c ^^^ 0x98f2bc8e61 else c
  let c := if c0 &&& 0x02 != 0 then c ^^^ 0x79b76d99e2 else c
  let c := if c0 &&& 0x04 != 0 then c ^^^ 0xf33e5fb3c4 else c
  let c := if c0 &&& 0x08 != 0 then c ^^^ 0xae2eabe2a8 else c
  if c0 &&& 0x10 != 0 then c ^^^ 0x1e4f43e470 else c

/-- `polymod`. -/
def polymod (v : List UInt8) : UInt64 := v.foldl polymodStep 1 ^^^ 1

/-- The eight 5-bit groups of a checksum, highest first: the symbols `mazze_addr_encode` writes
    after the payload. -/
def checksumSymbols (checksum : UInt64) : List UInt8 :=
  (List.range 8).reverse.map fun i => ((checksum >>> (i * 5).toUInt64) &&& 31).toUInt8

theorem ite_xor_eq_xor_ite (p : Prop) [Decidable p] (c k : UInt64) :
    (if p then c ^^^ k else c) = c ^^^ (if p then k else 0) := by
  split <;> simp

/-- A turn of the loop: the shifted low 35 bits, the symbol, and the generator terms. -/
theorem polymodStep_eq (c : UInt64) (d : UInt8) :
    polymodStep c d =
      ((c &&& 0x07ffffffff) <<< 5) ^^^ d.toUInt64 ^^^ generator (c >>> 35).toUInt8 := by
  simp only [polymodStep, ite_xor_eq_xor_ite]
  simp only [generator, UInt64.xor_assoc]

theorem generator_lt (c0 : UInt8) : (generator c0).toNat < 2 ^ 40 := by
  simp only [generator, UInt64.toNat_xor]
  repeat' apply Nat.xor_lt_two_pow
  all_goals split <;> decide

/-- Every state of the loop is below `2 ^ 40`. -/
theorem polymodStep_lt (c : UInt64) (d : UInt8) : (polymodStep c d).toNat < 2 ^ 40 := by
  rw [polymodStep_eq]
  have hlow : (c &&& 0x07ffffffff).toNat < 2 ^ 35 := by
    rw [UInt64.toNat_and]
    exact lt_of_le_of_lt Nat.and_le_right (by decide)
  have hshift : ((c &&& 0x07ffffffff) <<< 5).toNat < 2 ^ 40 := by
    rw [UInt64.toNat_shiftLeft, Nat.shiftLeft_eq]
    simp only [show (5 : UInt64).toNat % 64 = 5 from rfl]
    exact lt_of_le_of_lt (Nat.mod_le _ _) (by omega)
  have hd : d.toUInt64.toNat < 2 ^ 40 := by
    rw [UInt8.toNat_toUInt64]
    exact lt_trans d.toNat_lt (by decide)
  rw [UInt64.toNat_xor, UInt64.toNat_xor]
  exact Nat.xor_lt_two_pow (Nat.xor_lt_two_pow hshift hd) (generator_lt _)

/-! ### Linearity -/

/-- Xoring the state with a number below `2 ^ 35` leaves the five bits the generator reads alone,
    and xors the next state with that number shifted by five. -/
theorem polymodStep_xor (c x : UInt64) (d : UInt8) (hx : x.toNat < 2 ^ 35) :
    polymodStep (c ^^^ x) d = polymodStep c d ^^^ (x <<< 5) := by
  have htop : (c ^^^ x) >>> 35 = c >>> 35 := by
    have hzero : x >>> 35 = 0 := by
      apply UInt64.toNat_inj.mp
      simpa [UInt64.toNat_shiftRight, Nat.shiftRight_eq_div_pow] using hx
    rw [UInt64.shiftRight_xor, hzero, UInt64.xor_zero]
  have hlow : (c ^^^ x) &&& 0x07ffffffff = (c &&& 0x07ffffffff) ^^^ x := by
    apply UInt64.toNat_inj.mp
    rw [UInt64.toNat_and, UInt64.toNat_xor, UInt64.toNat_xor, UInt64.toNat_and,
      Nat.and_xor_distrib_right]
    congr 1
    exact Nat.and_two_pow_sub_one_of_lt_two_pow hx
  rw [polymodStep_eq, polymodStep_eq, htop, hlow, UInt64.shiftLeft_xor]
  ac_rfl

/-- The symbol is xored in after the shift. -/
theorem polymodStep_symbol (c : UInt64) (d : UInt8) :
    polymodStep c d = polymodStep c 0 ^^^ d.toUInt64 := by
  rw [polymodStep_eq, polymodStep_eq]
  have hzero : (0 : UInt8).toUInt64 = 0 := rfl
  rw [hzero, UInt64.xor_zero]
  ac_rfl

/-- A multiple of `32` below `2 ^ 40` xored with a symbol is their sum. -/
theorem toNat_shiftLeft_five_xor {x : UInt64} {d : UInt8} (hx : x.toNat < 2 ^ 35)
    (hd : d.toNat < 32) : ((x <<< 5) ^^^ d.toUInt64).toNat = x.toNat * 2 ^ 5 + d.toNat := by
  have hshift : (x <<< 5).toNat = x.toNat * 2 ^ 5 := by
    rw [UInt64.toNat_shiftLeft, Nat.shiftLeft_eq]
    exact Nat.mod_eq_of_lt (by simp only [show (5 : UInt64).toNat % 64 = 5 from rfl]; omega)
  rw [UInt64.toNat_xor, hshift, UInt8.toNat_toUInt64]
  exact mul_two_pow_xor_eq_add hd

/-- Symbols after a state xored with `x` reach the state that as many zero symbols reach, xored
    with the number that `x` and then the symbols spell, while that number fits 40 bits. -/
theorem foldl_polymodStep_symbols (s : List UInt8) (hs : ∀ d ∈ s, d.toNat < 32) :
    ∀ (c x : UInt64),
      x.toNat * 2 ^ (5 * s.length) + groupsValue 5 (s.map UInt8.toNat) < 2 ^ 40 →
      s.foldl polymodStep (c ^^^ x) =
        (List.replicate s.length 0).foldl polymodStep c ^^^
          UInt64.ofNat (x.toNat * 2 ^ (5 * s.length) + groupsValue 5 (s.map UInt8.toNat)) := by
  induction s with
  | nil =>
    intro c x _
    simp [UInt64.ofNat_toNat]
  | cons d s ih =>
    intro c x hb
    have hd : d.toNat < 32 := hs d (by simp)
    simp only [List.length_cons, List.map_cons, groupsValue_cons, List.length_map] at hb
    -- the shifted-in number stays below `2 ^ 35` before the last symbol
    have hx : x.toNat < 2 ^ 35 := by
      have hpow : 2 ^ 5 ≤ 2 ^ (5 * (s.length + 1)) := Nat.pow_le_pow_right (by decide) (by omega)
      have : x.toNat * 2 ^ 5 < 2 ^ 35 * 2 ^ 5 :=
        lt_of_le_of_lt (Nat.mul_le_mul_left _ hpow) (by omega)
      exact Nat.lt_of_mul_lt_mul_right this
    have hx' := toNat_shiftLeft_five_xor hx hd
    have hstep : polymodStep (c ^^^ x) d = polymodStep c 0 ^^^ ((x <<< 5) ^^^ d.toUInt64) := by
      rw [polymodStep_xor c x d hx, polymodStep_symbol]
      ac_rfl
    have hval : ((x <<< 5) ^^^ d.toUInt64).toNat * 2 ^ (5 * s.length) +
        groupsValue 5 (s.map UInt8.toNat) =
        x.toNat * 2 ^ (5 * (s.length + 1)) +
          (d.toNat * 2 ^ (5 * s.length) + groupsValue 5 (s.map UInt8.toNat)) := by
      rw [hx', Nat.mul_add 5 s.length 1, Nat.pow_add]
      ring
    rw [List.foldl_cons, hstep, ih (fun d hd => hs d (.tail _ hd)) _ _ (by rw [hval]; exact hb),
      hval]
    simp [List.replicate_succ, List.map_cons, groupsValue_cons]

/-! ### The checksum symbols -/

theorem checksumSymbols_lt (checksum : UInt64) : ∀ d ∈ checksumSymbols checksum, d.toNat < 32 := by
  intro d hd
  simp only [checksumSymbols, List.mem_map] at hd
  obtain ⟨i, -, rfl⟩ := hd
  rw [UInt64.toNat_toUInt8, UInt64.toNat_and]
  exact lt_of_le_of_lt (Nat.mod_le _ _) (lt_of_le_of_lt Nat.and_le_right (by decide))

@[simp] theorem length_checksumSymbols (checksum : UInt64) :
    (checksumSymbols checksum).length = 8 := rfl

/-- Below `2 ^ 40`, the eight symbols spell the checksum back. -/
theorem groupsValue_checksumSymbols {checksum : UInt64} (h : checksum.toNat < 2 ^ 40) :
    groupsValue 5 ((checksumSymbols checksum).map UInt8.toNat) = checksum.toNat := by
  simp only [checksumSymbols, List.range_succ, List.range_zero,
    List.reverse_cons, List.reverse_nil, List.nil_append, List.cons_append, List.map_cons,
    List.map_nil, groupsValue, List.foldl_cons, List.foldl_nil, UInt64.toNat_toUInt8,
    UInt64.toNat_and, UInt64.toNat_shiftRight, Nat.shiftRight_eq_div_pow]
  simp only [show (31 : UInt64).toNat = 2 ^ 5 - 1 from rfl, Nat.and_two_pow_sub_one_eq_mod]
  norm_num
  -- the symbols are the base-32 digits: fold them back from the top one
  have hsym : ∀ n : Nat, n % 32 % 256 = n % 32 := fun n => Nat.mod_eq_of_lt (by omega)
  have hfold : ∀ a : Nat, checksum.toNat / (a * 32) * 32 + checksum.toNat / a % 32 =
      checksum.toNat / a := fun a => by
    rw [← Nat.div_div_eq_div_mul, Nat.div_add_mod']
  have htop : checksum.toNat / 34359738368 % 32 % 256 = checksum.toNat / 34359738368 := by
    rw [hsym]
    exact Nat.mod_eq_of_lt (Nat.div_lt_of_lt_mul (by omega))
  rw [htop]
  simp only [hsym]
  rw [show (34359738368 : Nat) = 1073741824 * 32 from rfl, hfold,
    show (1073741824 : Nat) = 33554432 * 32 from rfl, hfold,
    show (33554432 : Nat) = 1048576 * 32 from rfl, hfold,
    show (1048576 : Nat) = 32768 * 32 from rfl, hfold,
    show (32768 : Nat) = 1024 * 32 from rfl, hfold,
    show (1024 : Nat) = 32 * 32 from rfl, hfold, Nat.div_add_mod']

/-- The state after eight zero symbols, whatever comes before, is below `2 ^ 40`. -/
theorem foldl_zeros_lt (c : UInt64) :
    ((List.replicate 8 (0 : UInt8)).foldl polymodStep c).toNat < 2 ^ 40 := by
  rw [show List.replicate 8 (0 : UInt8) = List.replicate 7 0 ++ [0] from rfl, List.foldl_append,
    List.foldl_cons, List.foldl_nil]
  exact polymodStep_lt _ _

/-- **The checksum checks.** The eight symbols of `polymod (v ++ [0; 8])` appended to `v` make
    `polymod` zero. -/
theorem polymod_append_checksumSymbols (v : List UInt8) :
    polymod (v ++ checksumSymbols (polymod (v ++ List.replicate 8 0))) = 0 := by
  set c := v.foldl polymodStep 1
  set z := (List.replicate 8 (0 : UInt8)).foldl polymodStep c
  have hchk : polymod (v ++ List.replicate 8 0) = z ^^^ 1 := by
    simp only [polymod, List.foldl_append, c, z]
  have hlt : (z ^^^ 1).toNat < 2 ^ 40 := by
    rw [UInt64.toNat_xor]
    exact Nat.xor_lt_two_pow (foldl_zeros_lt c) (by decide)
  have hsym := foldl_polymodStep_symbols (checksumSymbols (z ^^^ 1)) (checksumSymbols_lt _) c 0
  rw [groupsValue_checksumSymbols hlt] at hsym
  simp only [UInt64.xor_zero, UInt64.toNat_zero, Nat.zero_mul, Nat.zero_add,
    length_checksumSymbols, UInt64.ofNat_toNat] at hsym
  rw [hchk, polymod, List.foldl_append, hsym hlt]
  simp [z, ← UInt64.xor_assoc]

end Mazze.Addr
