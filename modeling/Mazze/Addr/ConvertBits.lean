/-
  `convert_bits` (`mazze_addr/src/lib.rs`): a stream of `inbits`-bit groups regrouped into
  `outbits`-bit groups through a `u16` accumulator.

  Model. `acc : u16` and `num : u8` as the source has them. The `assert!` on the widths, and the
  division by `outbits` of the capacity computation, panic (`none`). The `while` loop takes at
  most `num` turns, since each one lowers `num` by `outbits > 0`: that is its fuel.

  What is proved (`Bits.groupsValue` reads a list of groups as a number):
  * a turn of either loop keeps the bit stream: the groups out, shifted by the `num` bits held,
    plus the accumulator, spell what has been read (`drainGroups_spec`, `convertStep_spec`,
    `foldl_convertStep_spec`);
  * from bytes to 5-bit symbols with padding, and back without, gives the bytes again
    (`convertBits_eight_five`, `convertBits_five_eight`).
-/
import Mazze.Addr.Consts
import Mazze.Bits.Groups

namespace Mazze.Addr

open Mazze.Bits

/-- `groupmask` of `convert_bits`: the low `outbits` bits. -/
def groupmask (outbits : UInt8) : UInt16 := (1 <<< outbits.toUInt16) - 1

/-- The `while` loop of `convert_bits`: while `num ≥ outbits`, push the top `outbits` bits of
    `acc` and clear them. -/
def drainGroups (outbits : UInt8) :
    Nat → UInt16 → UInt8 → List UInt8 → UInt16 × UInt8 × List UInt8
  | 0, acc, num, ret => (acc, num, ret)
  | fuel + 1, acc, num, ret =>
    if outbits ≤ num then
      let ret := ret ++ [(acc >>> (num - outbits).toUInt16).toUInt8]
      let acc := acc &&& ~~~(groupmask outbits <<< (num - outbits).toUInt16)
      drainGroups outbits fuel acc (num - outbits) ret
    else (acc, num, ret)

/-- A turn of the `for` loop of `convert_bits`: shift `d` in, then drain. -/
def convertStep (inbits outbits : UInt8)
    (s : UInt16 × UInt8 × List UInt8) (d : UInt8) : UInt16 × UInt8 × List UInt8 :=
  let acc := (s.1 <<< inbits.toUInt16) ||| d.toUInt16
  let num := s.2.1 + inbits
  drainGroups outbits num.toNat acc num s.2.2

/-- `convert_bits`. -/
def convertBits (data : List UInt8) (inbits outbits : UInt8) (pad : Bool) :
    Option (Except DecodingError (List UInt8)) :=
  if ¬ (inbits ≤ 8 ∧ outbits ≤ 8) ∨ outbits = 0 then none
  else
    let (acc, num, ret) := data.foldl (convertStep inbits outbits) (0, 0, [])
    if pad then
      -- the bits left, padded with zeros to a group
      some (.ok (if 0 < num then ret ++ [(acc <<< (outbits - num).toUInt16).toUInt8] else ret))
    else
      let padding := (data.length * inbits.toNat % outbits.toNat).toUInt8
      if inbits ≤ num ∨ acc ≠ 0 then some (.error (.invalidPadding inbits padding acc))
      else some (.ok ret)

/-! ### The machine steps as arithmetic -/

section Machine

variable {o : UInt8}

theorem toNat_groupmask (ho : o.toNat ≤ 8) : (groupmask o).toNat = 2 ^ o.toNat - 1 := by
  have hshift : ((1 : UInt16) <<< o.toUInt16).toNat = 2 ^ o.toNat := by
    rw [UInt16.toNat_shiftLeft, UInt8.toNat_toUInt16, UInt16.toNat_one,
      Nat.mod_eq_of_lt (show o.toNat < 16 by omega), Nat.shiftLeft_eq, Nat.one_mul]
    exact Nat.mod_eq_of_lt (Nat.pow_lt_pow_right (by decide) (by omega))
  rw [groupmask, UInt16.toNat_sub, hshift]
  have hpos := Nat.one_le_two_pow (n := o.toNat)
  have hlt : 2 ^ o.toNat ≤ 2 ^ 8 := Nat.pow_le_pow_right (by decide) ho
  rw [UInt16.toNat_one]
  omega

/-- The top group: `acc >> k`, cast to `u8`, of a number with `o ≤ 8` bits above `k`. -/
theorem toNat_shiftRight_toUInt8 {acc : UInt16} {k : UInt8} (hk : k.toNat < 16)
    (hacc : acc.toNat < 2 ^ (k.toNat + o.toNat)) (ho : o.toNat ≤ 8) :
    (acc >>> k.toUInt16).toUInt8.toNat = acc.toNat / 2 ^ k.toNat := by
  rw [UInt16.toNat_toUInt8, UInt16.toNat_shiftRight, UInt8.toNat_toUInt16, Nat.mod_eq_of_lt hk,
    Nat.shiftRight_eq_div_pow]
  apply Nat.mod_eq_of_lt
  have hdiv : acc.toNat / 2 ^ k.toNat < 2 ^ o.toNat := by
    rw [Nat.div_lt_iff_lt_mul (Nat.two_pow_pos _), ← Nat.pow_add, Nat.add_comm]
    exact hacc
  exact lt_of_lt_of_le hdiv (Nat.pow_le_pow_right (by decide) ho)

/-- Clearing the top group leaves the `k` bits below it. -/
theorem toNat_and_not_groupmask {acc : UInt16} {k : UInt8} (hk : k.toNat < 16)
    (hacc : acc.toNat < 2 ^ (k.toNat + o.toNat)) (hko : k.toNat + o.toNat ≤ 16) (ho : o.toNat ≤ 8) :
    (acc &&& ~~~(groupmask o <<< k.toUInt16)).toNat = acc.toNat % 2 ^ k.toNat := by
  have hmask : (groupmask o <<< k.toUInt16).toNat =
      (2 ^ o.toNat - 1) * 2 ^ k.toNat := by
    rw [UInt16.toNat_shiftLeft, toNat_groupmask ho, UInt8.toNat_toUInt16, Nat.mod_eq_of_lt hk,
      Nat.shiftLeft_eq]
    apply Nat.mod_eq_of_lt
    calc (2 ^ o.toNat - 1) * 2 ^ k.toNat < 2 ^ o.toNat * 2 ^ k.toNat :=
          Nat.mul_lt_mul_of_pos_right (by have := Nat.one_le_two_pow (n := o.toNat); omega)
            (Nat.two_pow_pos _)
      _ = 2 ^ (k.toNat + o.toNat) := by rw [Nat.pow_add, Nat.mul_comm]
      _ ≤ 2 ^ 16 := Nat.pow_le_pow_right (by decide) hko
  rw [UInt16.toNat_and, UInt16.toNat_not, hmask]
  exact and_not_groupmask hacc hko

/-- Shifting a group of `i` bits in below a number of `num` bits, with `num + i ≤ 16`. -/
theorem toNat_shiftLeft_or {acc : UInt16} {d i : UInt8} {num : Nat} (hi : i.toNat < 16)
    (hacc : acc.toNat < 2 ^ num) (hd : d.toNat < 2 ^ i.toNat) (hsum : num + i.toNat ≤ 16) :
    ((acc <<< i.toUInt16) ||| d.toUInt16).toNat = acc.toNat * 2 ^ i.toNat + d.toNat := by
  have hshift : (acc <<< i.toUInt16).toNat = acc.toNat * 2 ^ i.toNat := by
    rw [UInt16.toNat_shiftLeft, UInt8.toNat_toUInt16, Nat.mod_eq_of_lt hi, Nat.shiftLeft_eq]
    apply Nat.mod_eq_of_lt
    calc acc.toNat * 2 ^ i.toNat < 2 ^ num * 2 ^ i.toNat :=
          Nat.mul_lt_mul_of_pos_right hacc (Nat.two_pow_pos _)
      _ = 2 ^ (num + i.toNat) := (Nat.pow_add _ _ _).symm
      _ ≤ 2 ^ 16 := Nat.pow_le_pow_right (by decide) hsum
  rw [UInt16.toNat_or, hshift, UInt8.toNat_toUInt16, Nat.mul_comm,
    ← Nat.two_pow_add_eq_or_of_lt hd]

/-- The padding group: `acc << k`, cast to `u8`, of a number of `num` bits with `num + k ≤ 8`. -/
theorem toNat_shiftLeft_toUInt8 {acc : UInt16} {k : UInt8} {num : Nat}
    (hacc : acc.toNat < 2 ^ num) (hk : num + k.toNat ≤ 8) :
    (acc <<< k.toUInt16).toUInt8.toNat = acc.toNat * 2 ^ k.toNat := by
  have hlt : acc.toNat * 2 ^ k.toNat < 2 ^ 8 :=
    calc acc.toNat * 2 ^ k.toNat < 2 ^ num * 2 ^ k.toNat :=
          Nat.mul_lt_mul_of_pos_right hacc (Nat.two_pow_pos _)
      _ = 2 ^ (num + k.toNat) := (Nat.pow_add _ _ _).symm
      _ ≤ 2 ^ 8 := Nat.pow_le_pow_right (by decide) hk
  rw [UInt16.toNat_toUInt8, UInt16.toNat_shiftLeft, UInt8.toNat_toUInt16,
    Nat.mod_eq_of_lt (by omega : k.toNat < 16), Nat.shiftLeft_eq,
    Nat.mod_eq_of_lt (by omega : acc.toNat * 2 ^ k.toNat < 2 ^ 16), Nat.mod_eq_of_lt hlt]

end Machine

/-! ### The loops keep the bit stream -/

/-- The state `(acc, num, ret)` of `convert_bits` between turns: the groups `ret` of `o` bits,
    then the `num` bits held in `acc`, spell the number `v` of `n` bits. -/
structure Regrouped (o n v : Nat) (s : UInt16 × UInt8 × List UInt8) : Prop where
  acc_lt : s.1.toNat < 2 ^ s.2.1.toNat
  groups_lt : ∀ g ∈ s.2.2, g.toNat < 2 ^ o
  bits : o * s.2.2.length + s.2.1.toNat = n
  value : groupsValue o (s.2.2.map UInt8.toNat) * 2 ^ s.2.1.toNat + s.1.toNat = v

theorem regrouped_start (o : Nat) : Regrouped o 0 0 (0, 0, []) :=
  ⟨by decide, by simp, by simp, by simp⟩

section Drain

variable {outbits : UInt8} (hpos : 0 < outbits.toNat) (h8 : outbits.toNat ≤ 8)
include hpos h8

/-- A turn of the `while` loop moves the top group from `acc` to `ret`. -/
theorem Regrouped.drain {n v : Nat} {acc : UInt16} {num : UInt8} {ret : List UInt8}
    (h : Regrouped outbits.toNat n v (acc, num, ret)) (hle : outbits ≤ num)
    (h16 : num.toNat ≤ 16) :
    Regrouped outbits.toNat n v (acc &&& ~~~(groupmask outbits <<< (num - outbits).toUInt16),
      num - outbits, ret ++ [(acc >>> (num - outbits).toUInt16).toUInt8]) := by
  have hle' := UInt8.le_iff_toNat_le.mp hle
  have hk : (num - outbits).toNat = num.toNat - outbits.toNat := UInt8.toNat_sub_of_le _ _ hle
  have hsplit : (num - outbits).toNat + outbits.toNat = num.toNat := by omega
  have hacc : acc.toNat < 2 ^ ((num - outbits).toNat + outbits.toNat) := hsplit ▸ h.acc_lt
  have htop := toNat_shiftRight_toUInt8 (by omega) hacc h8
  have hlow := toNat_and_not_groupmask (by omega) hacc (by omega) h8
  constructor
  · -- the bits below the top group
    simp only [hlow]
    exact Nat.mod_lt _ (Nat.two_pow_pos _)
  · intro g hg
    rcases List.mem_append.mp hg with hg | hg
    · exact h.groups_lt g hg
    · rw [List.mem_singleton.mp hg, htop, Nat.div_lt_iff_lt_mul (Nat.two_pow_pos _),
        ← Nat.pow_add, Nat.add_comm]
      exact hacc
  · have hbits : outbits.toNat * ret.length + num.toNat = n := h.bits
    simp only [List.length_append, List.length_singleton, hk]
    rw [Nat.mul_add]
    omega
  · have hval := h.value
    simp only [List.map_append, List.map_singleton, groupsValue_append_singleton, htop, hlow]
    rw [← hval, ← hsplit]
    calc (groupsValue outbits.toNat (ret.map UInt8.toNat) * 2 ^ outbits.toNat
            + acc.toNat / 2 ^ (num - outbits).toNat) * 2 ^ (num - outbits).toNat
            + acc.toNat % 2 ^ (num - outbits).toNat
          = groupsValue outbits.toNat (ret.map UInt8.toNat)
              * 2 ^ ((num - outbits).toNat + outbits.toNat)
            + (2 ^ (num - outbits).toNat * (acc.toNat / 2 ^ (num - outbits).toNat)
              + acc.toNat % 2 ^ (num - outbits).toNat) := by rw [Nat.pow_add]; ring
      _ = _ := by rw [Nat.div_add_mod]

/-- The `while` loop: with fuel at least `num`, it drains `acc` below `outbits` bits and keeps the
    stream. -/
theorem drainGroups_spec (fuel : Nat) {n v : Nat} {acc : UInt16} {num : UInt8} {ret : List UInt8}
    (h : Regrouped outbits.toNat n v (acc, num, ret)) (h16 : num.toNat ≤ 16)
    (hfuel : num.toNat ≤ fuel) :
    Regrouped outbits.toNat n v (drainGroups outbits fuel acc num ret) ∧
      (drainGroups outbits fuel acc num ret).2.1 < outbits := by
  -- the fuel is the number of bits held: each turn lowers it by `outbits ≥ 1`
  induction fuel generalizing acc num ret with
  | zero =>
    have hnum : num.toNat = 0 := by omega
    exact ⟨h, UInt8.lt_iff_toNat_lt.mpr (by simp only [drainGroups]; omega)⟩
  | succ fuel ih =>
    unfold drainGroups
    by_cases hle : outbits ≤ num
    · have hk : (num - outbits).toNat = num.toNat - outbits.toNat :=
        UInt8.toNat_sub_of_le _ _ hle
      rw [if_pos hle]
      exact ih (h.drain hpos h8 hle h16) (by omega) (by omega)
    · rw [if_neg hle]
      exact ⟨h, UInt8.lt_iff_toNat_lt.mpr (Nat.lt_of_not_le (mt UInt8.le_iff_toNat_le.mpr hle))⟩

end Drain

section Step

variable {inbits outbits : UInt8} (hpos : 0 < outbits.toNat) (h8 : outbits.toNat ≤ 8)
  (hi : inbits.toNat ≤ 8)
include hpos h8 hi

/-- A turn of the `for` loop appends the `inbits` bits of `d` to the stream. -/
theorem convertStep_spec {n v : Nat} {s : UInt16 × UInt8 × List UInt8}
    (h : Regrouped outbits.toNat n v s) (hnum : s.2.1 < outbits) {d : UInt8}
    (hd : d.toNat < 2 ^ inbits.toNat) :
    Regrouped outbits.toNat (n + inbits.toNat) (v * 2 ^ inbits.toNat + d.toNat)
        (convertStep inbits outbits s d) ∧ (convertStep inbits outbits s d).2.1 < outbits := by
  obtain ⟨acc, num, ret⟩ := s
  have hnum' : num.toNat < outbits.toNat := UInt8.lt_iff_toNat_lt.mp hnum
  have hadd : (num + inbits).toNat = num.toNat + inbits.toNat := by
    rw [UInt8.toNat_add]
    exact Nat.mod_eq_of_lt (by omega)
  have hacc : acc.toNat < 2 ^ num.toNat := h.acc_lt
  have hin := toNat_shiftLeft_or (by omega) hacc hd (by omega)
  -- the state once `d` is shifted in, before the `while` loop
  have hshifted : Regrouped outbits.toNat (n + inbits.toNat) (v * 2 ^ inbits.toNat + d.toNat)
      ((acc <<< inbits.toUInt16) ||| d.toUInt16, num + inbits, ret) := by
    constructor
    · simp only [hin, hadd]
      exact mul_two_pow_add_lt hacc hd
    · exact h.groups_lt
    · have hbits : outbits.toNat * ret.length + num.toNat = n := h.bits
      simp only [hadd]
      omega
    · have hval : groupsValue outbits.toNat (ret.map UInt8.toNat) * 2 ^ num.toNat + acc.toNat = v :=
        h.value
      simp only [hin, hadd, ← hval, Nat.pow_add]
      ring
  have h16 : (num + inbits).toNat ≤ 16 := by omega
  exact drainGroups_spec hpos h8 _ hshifted h16 le_rfl

/-- The `for` loop over `data`: the stream is `data`, `inbits` bits each, and fewer than
    `outbits` bits are left in `acc`. -/
theorem foldl_convertStep_spec (data : List UInt8) (hd : ∀ d ∈ data, d.toNat < 2 ^ inbits.toNat) :
    Regrouped outbits.toNat (inbits.toNat * data.length)
        (groupsValue inbits.toNat (data.map UInt8.toNat))
        (data.foldl (convertStep inbits outbits) (0, 0, [])) ∧
      (data.foldl (convertStep inbits outbits) (0, 0, [])).2.1 < outbits := by
  -- induction on the input from its end: a turn appends one group to the stream
  induction data using List.reverseRecOn with
  | nil => exact ⟨regrouped_start _, UInt8.lt_iff_toNat_lt.mpr hpos⟩
  | append_singleton data d ih =>
    obtain ⟨h, hnum⟩ := ih fun x hx => hd x (List.mem_append_left _ hx)
    rw [List.foldl_append, List.foldl_cons, List.foldl_nil, List.map_append, List.map_singleton,
      groupsValue_append_singleton, List.length_append, List.length_singleton, Nat.mul_succ]
    exact convertStep_spec hpos h8 hi h hnum (hd d (List.mem_append_right _ (List.mem_singleton_self d)))

end Step

/-! ### Bytes to symbols and back -/

/-- `convert_bits(data, 8, 5, true)`, as `mazze_addr_encode` calls it: 5-bit groups that spell
    the bytes followed by `p < 5` zero bits. -/
theorem convertBits_eight_five (data : List UInt8) :
    ∃ groups p, convertBits data 8 5 true = some (.ok groups) ∧ (∀ g ∈ groups, g.toNat < 32) ∧
      p < 5 ∧ 5 * groups.length = 8 * data.length + p ∧
      groupsValue 5 (groups.map UInt8.toNat) = groupsValue 8 (data.map UInt8.toNat) * 2 ^ p := by
  obtain ⟨h, hnum⟩ := foldl_convertStep_spec (show 0 < (5 : UInt8).toNat by decide)
    (show (5 : UInt8).toNat ≤ 8 by decide) (show (8 : UInt8).toNat ≤ 8 by decide) data
    fun d _ => d.toNat_lt
  rw [convertBits, if_neg (by decide)]
  generalize data.foldl (convertStep 8 5) (0, 0, []) = s at h hnum ⊢
  obtain ⟨acc, num, ret⟩ := s
  have hacc : acc.toNat < 2 ^ num.toNat := h.acc_lt
  have hgroups : ∀ g ∈ ret, g.toNat < 32 := h.groups_lt
  have hbits : 5 * ret.length + num.toNat = 8 * data.length := h.bits
  have hval : groupsValue 5 (ret.map UInt8.toNat) * 2 ^ num.toNat + acc.toNat =
      groupsValue 8 (data.map UInt8.toNat) := h.value
  have hnum' : num.toNat < 5 := UInt8.lt_iff_toNat_lt.mp hnum
  by_cases hzero : 0 < num
  · -- the bits left are padded with zeros to a last group
    have hpos : 0 < num.toNat := UInt8.lt_iff_toNat_lt.mp hzero
    have hk : (5 - num).toNat = 5 - num.toNat := UInt8.toNat_sub_of_le _ _ (UInt8.le_of_lt hnum)
    have hpad := toNat_shiftLeft_toUInt8 (k := 5 - num) hacc (by omega)
    refine ⟨ret ++ [(acc <<< (5 - num).toUInt16).toUInt8], 5 - num.toNat, by simp [hzero], ?_,
      by omega, ?_, ?_⟩
    · intro g hg
      rcases List.mem_append.mp hg with hg | hg
      · exact hgroups g hg
      · rw [List.mem_singleton.mp hg, hpad, hk]
        have := mul_two_pow_add_lt (b := 0) hacc (Nat.two_pow_pos (5 - num.toNat))
        rw [Nat.add_zero, show num.toNat + (5 - num.toNat) = 5 by omega] at this
        exact this
    · simp only [List.length_append, List.length_singleton]
      omega
    · simp only [List.map_append, List.map_singleton, groupsValue_append_singleton, hpad, hk, ← hval]
      calc groupsValue 5 (ret.map UInt8.toNat) * 2 ^ 5 + acc.toNat * 2 ^ (5 - num.toNat)
          = groupsValue 5 (ret.map UInt8.toNat) * 2 ^ (num.toNat + (5 - num.toNat))
              + acc.toNat * 2 ^ (5 - num.toNat) := by rw [show num.toNat + (5 - num.toNat) = 5 by omega]
        _ = _ := by rw [Nat.pow_add]; ring
  · -- no bits left: the groups are exact
    have hnum0 : num.toNat = 0 := by
      have := UInt8.lt_iff_toNat_lt.not.mp hzero
      simp only [UInt8.toNat_zero] at this
      omega
    refine ⟨ret, 0, by simp [hzero], hgroups, by decide, by omega, ?_⟩
    rw [hnum0] at hacc hval
    rw [← hval]
    simp only [Nat.pow_zero, Nat.mul_one]
    omega

/-- `convert_bits(groups, 5, 8, false)`, as `mazze_addr_decode` calls it: symbols that spell bytes
    followed by `p < 5` zero bits give those bytes. -/
theorem convertBits_five_eight {groups data : List UInt8} {p : Nat}
    (hg : ∀ g ∈ groups, g.toNat < 32) (hp : p < 5)
    (hlen : 5 * groups.length = 8 * data.length + p)
    (hval : groupsValue 5 (groups.map UInt8.toNat) = groupsValue 8 (data.map UInt8.toNat) * 2 ^ p) :
    convertBits groups 5 8 false = some (.ok data) := by
  obtain ⟨h, hnum⟩ := foldl_convertStep_spec (show 0 < (8 : UInt8).toNat by decide)
    (show (8 : UInt8).toNat ≤ 8 by decide) (show (5 : UInt8).toNat ≤ 8 by decide) groups hg
  rw [convertBits, if_neg (by decide)]
  generalize groups.foldl (convertStep 5 8) (0, 0, []) = s at h hnum ⊢
  obtain ⟨acc, num, ret⟩ := s
  have hbits : 8 * ret.length + num.toNat = 5 * groups.length := h.bits
  have hnum' : num.toNat < 8 := UInt8.lt_iff_toNat_lt.mp hnum
  -- the bits left in `acc` are exactly the padding
  have hpn : num.toNat = p := by omega
  have hlen' : ret.length = data.length := by omega
  have hacc : acc.toNat < 2 ^ p := hpn ▸ h.acc_lt
  have hstream : groupsValue 8 (ret.map UInt8.toNat) * 2 ^ p + acc.toNat =
      groupsValue 8 (data.map UInt8.toNat) * 2 ^ p := by
    rw [← hval, ← hpn]
    exact h.value
  obtain ⟨hacc0, hret⟩ := mul_two_pow_add_eq hacc hstream
  have hret' : ret = data := by
    apply List.map_injective_iff.mpr fun _ _ => UInt8.toNat_inj.mp
    exact groupsValue_inj 8 (by decide) (by simp [hlen']) (by simpa using h.groups_lt)
      (fun y hy => by obtain ⟨b, _, rfl⟩ := List.mem_map.mp hy; exact b.toNat_lt) hret
  have hacc' : acc = 0 := UInt16.toNat_inj.mp hacc0
  have hkeep : ¬ ((5 : UInt8) ≤ num ∨ acc ≠ 0) := by
    rw [UInt8.le_iff_toNat_le]
    simp only [hacc', ne_eq, not_true_eq_false, or_false]
    show ¬ 5 ≤ num.toNat
    omega
  simp only [Bool.false_eq_true, if_false, if_neg hkeep, hret']

/-- Encoding bytes to symbols and decoding them gives the bytes back. -/
theorem convertBits_roundtrip (data : List UInt8) :
    ∃ groups, convertBits data 8 5 true = some (.ok groups) ∧ (∀ g ∈ groups, g.toNat < 32) ∧
      convertBits groups 5 8 false = some (.ok data) := by
  obtain ⟨groups, p, henc, hg, hp, hlen, hval⟩ := convertBits_eight_five data
  exact ⟨groups, henc, hg, convertBits_five_eight hg hp hlen hval⟩

end Mazze.Addr
