import Mathlib

/-!
# Bit fields of natural numbers

Fixed-width code packs several fields into one machine word and reads them
back with shifts and masks.  These lemmas turn the masks into arithmetic.  A
mask of `n` ones at offset `k` is `(2 ^ n - 1) <<< k`; its complement in a
`w`-bit word is `2 ^ w - 1 - (2 ^ n - 1) <<< k`, which is what `~~~` computes
on an unsigned `w`-bit value.  Clearing a field keeps the bits above and below
it (`and_compl_field`).  Every statement is proved bit by bit through
`Nat.eq_of_testBit_eq`.

Variable-length integers put a flag bit `2 ^ k` above a `k`-bit group.  Setting
the flag and masking it back out recovers the group (`or_flag_and_low`), the
flag reads back set (`or_flag_and_flag`), and a masked group has it clear
(`low_and_flag`).  A flag-free group below a multiple of `2 ^ k` is added by
`|||` (`or_eq_add_of_dvd`).

Byte-oriented code writes the masks as literals such as `0x0f` and `0xf0`.
`and_ones` and `shiftLeft_and_field` take the literal with a proof of its shape.
-/

namespace Bits

theorem testBit_and_compl {M w : ℕ} (hM : M < 2 ^ w) (x i : ℕ) :
    (x &&& (2 ^ w - 1 - M)).testBit i = (x.testBit i && decide (i < w) && !M.testBit i) := by
  rw [Nat.testBit_and, Nat.sub_sub, Nat.add_comm 1 M, Nat.testBit_two_pow_sub_succ hM,
    Bool.and_assoc]

theorem testBit_field_mask (k n i : ℕ) :
    ((2 ^ n - 1) <<< k).testBit i = (decide (k ≤ i) && decide (i < k + n)) := by
  rw [Nat.testBit_shiftLeft, Nat.testBit_two_pow_sub_one]
  by_cases h : k ≤ i
  · simp only [ge_iff_le, h, decide_true, Bool.true_and]
    exact decide_eq_decide.2 (by omega)
  · simp [h]

theorem field_mask_lt {k n w : ℕ} (h : k + n ≤ w) : (2 ^ n - 1) <<< k < 2 ^ w := by
  rw [Nat.shiftLeft_eq]
  have h1 : 2 ^ n - 1 < 2 ^ n := Nat.sub_lt (Nat.two_pow_pos n) Nat.one_pos
  calc (2 ^ n - 1) * 2 ^ k < 2 ^ n * 2 ^ k := Nat.mul_lt_mul_of_pos_right h1 (Nat.two_pow_pos k)
    _ = 2 ^ (k + n) := by rw [← Nat.pow_add, Nat.add_comm]
    _ ≤ 2 ^ w := Nat.pow_le_pow_right (by norm_num) h

/-- Clearing the `n`-bit field at offset `k` of a `w`-bit number keeps the bits
above and below it. -/
theorem and_compl_field {x w k n : ℕ} (hx : x < 2 ^ w) (hkn : k + n ≤ w) :
    x &&& (2 ^ w - 1 - (2 ^ n - 1) <<< k) = x >>> (k + n) <<< (k + n) ||| x % 2 ^ k := by
  apply Nat.eq_of_testBit_eq
  intro i
  rw [testBit_and_compl (field_mask_lt hkn), testBit_field_mask, Nat.testBit_or,
    Nat.testBit_shiftLeft, Nat.testBit_shiftRight, Nat.testBit_mod_two_pow]
  -- below the field, inside it, above it inside the word, above the word
  rcases Nat.lt_or_ge i k with h1 | h1
  · have hw : i < w := by omega
    simp [h1, hw, Nat.not_le.2 h1, show ¬ k + n ≤ i by omega]
  rcases Nat.lt_or_ge i (k + n) with h2 | h2
  · simp [h1, h2, show ¬ i < k by omega, show ¬ k + n ≤ i by omega]
  have hi : k + n + (i - (k + n)) = i := by omega
  rcases Nat.lt_or_ge i w with h3 | h3
  · simp [h2, h3, hi, show ¬ i < k by omega, show ¬ i < k + n by omega]
  · have hx' : x.testBit i = false :=
      Nat.testBit_lt_two_pow (lt_of_lt_of_le hx (Nat.pow_le_pow_right (by norm_num) h3))
    simp [h2, hi, hx', show ¬ i < w by omega, show ¬ i < k by omega]

/-- Masking with `n` ones at offset `k` keeps exactly that field. -/
theorem and_field_mask (x k n : ℕ) : x &&& (2 ^ n - 1) <<< k = (x >>> k % 2 ^ n) <<< k := by
  apply Nat.eq_of_testBit_eq
  intro i
  rw [Nat.testBit_and, testBit_field_mask, Nat.testBit_shiftLeft, Nat.testBit_mod_two_pow,
    Nat.testBit_shiftRight]
  rcases Nat.lt_or_ge i k with h1 | h1
  · simp [Nat.not_le.2 h1]
  · have hi : k + (i - k) = i := by omega
    by_cases h2 : i < k + n
    · simp [h1, h2, hi, show i - k < n by omega]
    · simp [h1, h2, show ¬ i - k < n by omega]

/-- The same, as arithmetic. -/
theorem and_compl_field_eq {x w k n : ℕ} (hx : x < 2 ^ w) (hkn : k + n ≤ w) :
    x &&& (2 ^ w - 1 - (2 ^ n - 1) <<< k) = x / 2 ^ (k + n) * 2 ^ (k + n) + x % 2 ^ k := by
  rw [and_compl_field hx hkn, ← Nat.shiftLeft_add_eq_or_of_lt, Nat.shiftLeft_eq,
    Nat.shiftRight_eq_div_pow]
  calc x % 2 ^ k < 2 ^ k := Nat.mod_lt _ (Nat.two_pow_pos k)
    _ ≤ 2 ^ (k + n) := Nat.pow_le_pow_right (by norm_num) (by omega)

/-! ## A flag bit above a low group -/

theorem or_flag_and_flag (k n : ℕ) : (2 ^ k ||| n) &&& 2 ^ k = 2 ^ k := by
  apply Nat.eq_of_testBit_eq
  intro j
  rw [Nat.testBit_and, Nat.testBit_or, Nat.testBit_two_pow]
  by_cases h : k = j <;> simp [h]

theorem or_flag_and_low (k n : ℕ) : (2 ^ k ||| n) &&& (2 ^ k - 1) = n % 2 ^ k := by
  rw [Nat.and_two_pow_sub_one_eq_mod, Nat.or_mod_two_pow, Nat.mod_self, Nat.zero_or]

theorem low_and_flag (k n : ℕ) : ((2 ^ k - 1) &&& n) &&& 2 ^ k = 0 := by
  apply Nat.eq_of_testBit_eq
  intro j
  rw [Nat.testBit_and, Nat.testBit_and, Nat.testBit_two_pow, Nat.testBit_two_pow_sub_one]
  by_cases h : k = j <;> simp [h]

/-- A group below `2 ^ k` fills the clear low bits of a multiple of `2 ^ k`. -/
theorem or_eq_add_of_dvd {k a b : ℕ} (ha : 2 ^ k ∣ a) (hb : b < 2 ^ k) : a ||| b = a + b := by
  obtain ⟨c, rfl⟩ := ha
  have hc : 2 ^ k * c = c <<< k := by rw [Nat.shiftLeft_eq, Nat.mul_comm]
  rw [hc]
  exact (Nat.shiftLeft_add_eq_or_of_lt hb c).symm

/-! ## Fields packed into bytes -/

/-- A literal mask `m` of `n` low ones keeps the value modulo `2 ^ n`. -/
theorem and_ones {m : ℕ} (n : ℕ) (hm : m = 2 ^ n - 1) (x : ℕ) : x &&& m = x % 2 ^ n := by
  rw [hm, Nat.and_two_pow_sub_one_eq_mod]

/-- A value shifted to offset `k` and masked to the `n` bits there keeps its low
`n` bits. -/
theorem shiftLeft_and_field {m : ℕ} (k n : ℕ) (hm : m = (2 ^ n - 1) <<< k) (x : ℕ) :
    x <<< k &&& m = x % 2 ^ n * 2 ^ k := by
  rw [hm, and_field_mask, Nat.shiftLeft_shiftRight, Nat.shiftLeft_eq]

end Bits
