/-
  Bit strings read as groups of `w` bits, first group highest.

  `groupsValue w xs` is the number the groups spell. Codecs that regroup a bit stream (bytes
  into 5-bit symbols and back) keep this number, up to the padding bits at the end, and a list of
  groups is fixed by its length and its number (`groupsValue_inj`). The second part states the
  machine steps such codecs use on `u16` and `u64` words (shift in, take the top group, clear
  it, xor in a group below the others) as arithmetic on `Nat`. The last part reads a byte string
  as its nibbles, each byte's high nibble first, with the byte steps that take a nibble out or put
  one in.
-/
import Mathlib

namespace Mazze.Bits

/-- The number that the groups `xs` of `w` bits spell, the first group highest. -/
def groupsValue (w : Nat) (xs : List Nat) : Nat := xs.foldl (fun acc x => acc * 2 ^ w + x) 0

section Groups

variable (w : Nat)

@[simp] theorem groupsValue_nil : groupsValue w [] = 0 := rfl

@[simp] theorem groupsValue_append_singleton (xs : List Nat) (x : Nat) :
    groupsValue w (xs ++ [x]) = groupsValue w xs * 2 ^ w + x := by
  simp [groupsValue, List.foldl_append]

/-- The groups read as the digits of base `2 ^ w`, lowest first. -/
theorem groupsValue_eq_ofDigits (xs : List Nat) :
    groupsValue w xs = Nat.ofDigits (2 ^ w) xs.reverse := by
  induction xs using List.reverseRecOn with
  | nil => rfl
  | append_singleton xs x ih =>
    rw [groupsValue_append_singleton, ih, List.reverse_append, List.reverse_singleton,
      List.singleton_append, Nat.ofDigits_cons]
    ring

theorem groupsValue_cons (x : Nat) (xs : List Nat) :
    groupsValue w (x :: xs) = x * 2 ^ (w * xs.length) + groupsValue w xs := by
  rw [groupsValue_eq_ofDigits, groupsValue_eq_ofDigits, List.reverse_cons, Nat.ofDigits_append,
    List.length_reverse, Nat.ofDigits_singleton, ← Nat.pow_mul]
  ring

theorem groupsValue_lt (hw : 0 < w) {xs : List Nat} (h : ∀ x ∈ xs, x < 2 ^ w) :
    groupsValue w xs < 2 ^ (w * xs.length) := by
  rw [groupsValue_eq_ofDigits, Nat.pow_mul, ← List.length_reverse]
  exact Nat.ofDigits_lt_base_pow_length (Nat.one_lt_two_pow (by omega))
    fun x hx => h x (List.mem_reverse.mp hx)

/-- Groups of one length and one number are the same groups. -/
theorem groupsValue_inj (hw : 0 < w) {xs ys : List Nat} (hlen : xs.length = ys.length)
    (hx : ∀ x ∈ xs, x < 2 ^ w) (hy : ∀ y ∈ ys, y < 2 ^ w)
    (h : groupsValue w xs = groupsValue w ys) : xs = ys := by
  rw [groupsValue_eq_ofDigits, groupsValue_eq_ofDigits] at h
  have hb : 1 < 2 ^ w := Nat.one_lt_two_pow (by omega)
  exact List.reverse_injective (Nat.ofDigits_inj_of_len_eq hb (by simpa using hlen)
    (fun x hx' => hx x (List.mem_reverse.mp hx')) (fun y hy' => hy y (List.mem_reverse.mp hy')) h)

end Groups

/-! ### Machine steps on `Nat` -/

/-- A number below `2 ^ m` with `k` bits appended is below `2 ^ (m + k)`. -/
theorem mul_two_pow_add_lt {a b m k : Nat} (ha : a < 2 ^ m) (hb : b < 2 ^ k) :
    a * 2 ^ k + b < 2 ^ (m + k) :=
  calc a * 2 ^ k + b < (a + 1) * 2 ^ k := by rw [Nat.succ_mul]; omega
    _ ≤ 2 ^ m * 2 ^ k := Nat.mul_le_mul_right _ ha
    _ = 2 ^ (m + k) := (Nat.pow_add _ _ _).symm

/-- If appending `k` bits gives a multiple of `2 ^ k`, the bits are zero and the high parts
    agree. -/
theorem mul_two_pow_add_eq {a b c k : Nat} (hb : b < 2 ^ k)
    (h : a * 2 ^ k + b = c * 2 ^ k) : b = 0 ∧ a = c := by
  have hlow : b = 0 := by
    have hmod := congrArg (· % 2 ^ k) h
    simpa [Nat.mul_add_mod_of_lt hb, Nat.mod_eq_of_lt hb] using hmod
  subst hlow
  exact ⟨rfl, Nat.eq_of_mul_eq_mul_right (Nat.two_pow_pos k) h⟩

/-- Below `2 ^ k`, xor with a multiple of `2 ^ k` is addition. -/
theorem mul_two_pow_xor_eq_add {a b k : Nat} (hb : b < 2 ^ k) :
    a * 2 ^ k ^^^ b = a * 2 ^ k + b := by
  rw [Nat.mul_comm, Nat.two_pow_add_eq_or_of_lt hb]
  apply Nat.eq_of_testBit_eq
  intro i
  simp only [Nat.testBit_xor, Nat.testBit_or, Nat.testBit_two_pow_mul]
  by_cases hi : k ≤ i
  · have hbi : b.testBit i = false :=
      Nat.testBit_lt_two_pow (lt_of_lt_of_le hb (Nat.pow_le_pow_right (by decide) hi))
    simp [hbi]
  · simp [hi]

/-- The mask with ones at `[0, m)` but for the `o` bits from `s` is the ones from `s + o` on and
    the ones below `s`. -/
theorem two_pow_sub_one_sub_groupmask {s o m : Nat} (hm : s + o ≤ m) :
    2 ^ m - 1 - (2 ^ o - 1) * 2 ^ s = 2 ^ (s + o) * (2 ^ (m - (s + o)) - 1) + (2 ^ s - 1) := by
  have hsplit : 2 ^ m = 2 ^ s * 2 ^ o * 2 ^ (m - (s + o)) := by
    rw [← Nat.pow_add, ← Nat.pow_add]
    congr 1
    omega
  rw [hsplit, Nat.pow_add]
  obtain ⟨x, hx⟩ : ∃ x, 2 ^ s = x + 1 := ⟨_, (Nat.succ_pred_eq_of_pos (Nat.two_pow_pos s)).symm⟩
  obtain ⟨y, hy⟩ : ∃ y, 2 ^ o = y + 1 := ⟨_, (Nat.succ_pred_eq_of_pos (Nat.two_pow_pos o)).symm⟩
  obtain ⟨z, hz⟩ : ∃ z, 2 ^ (m - (s + o)) = z + 1 :=
    ⟨_, (Nat.succ_pred_eq_of_pos (Nat.two_pow_pos _)).symm⟩
  rw [hx, hy, hz]
  simp only [Nat.add_sub_cancel]
  apply Nat.sub_eq_of_eq_add
  ring_nf
  omega

/-- Clearing the `o` bits above position `s` of a number below `2 ^ (s + o)` leaves its low `s`
    bits. -/
theorem and_not_groupmask {acc s o m : Nat} (hacc : acc < 2 ^ (s + o)) (hm : s + o ≤ m) :
    acc &&& (2 ^ m - 1 - (2 ^ o - 1) * 2 ^ s) = acc % 2 ^ s := by
  have hlow : 2 ^ s - 1 < 2 ^ (s + o) := by
    have := Nat.pow_le_pow_right (n := 2) (by decide) (Nat.le_add_right s o)
    have := Nat.two_pow_pos s
    omega
  rw [two_pow_sub_one_sub_groupmask hm, Nat.two_pow_add_eq_or_of_lt hlow,
    ← Nat.and_two_pow_sub_one_eq_mod]
  apply Nat.eq_of_testBit_eq
  intro i
  simp only [Nat.testBit_and, Nat.testBit_or, Nat.testBit_two_pow_mul,
    Nat.testBit_two_pow_sub_one]
  by_cases hi : s + o ≤ i
  · -- above the number, every bit of it is zero
    have hzero : acc.testBit i = false :=
      Nat.testBit_lt_two_pow (lt_of_lt_of_le hacc (Nat.pow_le_pow_right (by decide) hi))
    simp [hzero]
  · simp [hi]

/-! ## The nibbles of a byte -/

/-- The two nibbles of a byte, the high one first. -/
def byteNibbles (b : UInt8) : List Nat := [b.toNat / 16, b.toNat % 16]

/-- The nibbles of a byte string, each byte's high nibble first. -/
def bytesNibbles (bs : List UInt8) : List Nat := bs.flatMap byteNibbles

@[simp] theorem bytesNibbles_nil : bytesNibbles [] = [] := rfl

@[simp] theorem bytesNibbles_cons (b : UInt8) (bs : List UInt8) :
    bytesNibbles (b :: bs) = b.toNat / 16 :: b.toNat % 16 :: bytesNibbles bs := rfl

@[simp] theorem bytesNibbles_append (bs cs : List UInt8) :
    bytesNibbles (bs ++ cs) = bytesNibbles bs ++ bytesNibbles cs :=
  List.flatMap_append ..

@[simp] theorem bytesNibbles_eq_nil_iff {bs : List UInt8} : bytesNibbles bs = [] ↔ bs = [] := by
  cases bs <;> simp

@[simp] theorem length_bytesNibbles (bs : List UInt8) :
    (bytesNibbles bs).length = 2 * bs.length := by
  induction bs with
  | nil => rfl
  | cons b bs ih =>
    rw [bytesNibbles_cons, List.length_cons, List.length_cons, ih, List.length_cons]
    omega

theorem toNat_shiftRight_four (b : UInt8) : (b >>> 4).toNat = b.toNat / 16 := by
  simp [UInt8.toNat_shiftRight, Nat.shiftRight_eq_div_pow]

theorem toNat_and_fifteen (b : UInt8) : (b &&& 0x0f).toNat = b.toNat % 16 := by
  simpa using Nat.and_two_pow_sub_one_eq_mod b.toNat 4

theorem toNat_and_high (b : UInt8) : (b &&& 0xf0).toNat = b.toNat / 16 * 16 := by
  have hhigh : ∀ n < 256, n &&& 240 = n / 16 * 16 := by decide +kernel
  rw [UInt8.toNat_and]
  exact hhigh _ b.toNat_lt

/-- A nibble shifted into the high half of a byte. -/
theorem toNat_shiftLeft_four {c : UInt8} (hc : c.toNat < 16) :
    (c <<< 4).toNat = c.toNat * 16 := by
  simp only [UInt8.toNat_shiftLeft, Nat.shiftLeft_eq]
  simp
  omega

/-- A byte's high nibble with a nibble below it. -/
theorem toNat_and_high_or {b c : UInt8} (hc : c.toNat < 16) :
    ((b &&& 0xf0) ||| c).toNat = b.toNat / 16 * 16 + c.toNat := by
  rw [UInt8.toNat_or, toNat_and_high, Nat.mul_comm]
  exact (Nat.two_pow_add_eq_or_of_lt (i := 4) hc _).symm

/-- Setting the high half of a byte keeps its low nibble. -/
theorem toNat_or_high (b : UInt8) :
    (b ||| 0xf0).toNat % 16 = b.toNat % 16 ∧ 16 ≤ (b ||| 0xf0).toNat := by
  have hor : ∀ n < 256, (n ||| 240) % 16 = n % 16 ∧ 16 ≤ n ||| 240 := by decide +kernel
  rw [UInt8.toNat_or]
  exact hor _ b.toNat_lt

end Mazze.Bits
