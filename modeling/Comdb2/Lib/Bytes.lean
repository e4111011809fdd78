import Comdb2.Lib.Lex

/-!
# Bytes: `memcmp` and big-endian numbers

A C buffer is a list of `UInt8`.  `memcmp` compares bytes as unsigned numbers,
so this module gives `UInt8` that linear order, lifted from `UInt8.toNat`, and
`memcmp a b n` is `Lex.cmp` on the first `n` bytes of each side.  Over the
shorter of two lengths it is `Lex.prefixCmp` (`memcmp_min`), the comparison
range and key checks are written with.

A number stored in network order is `toBE n x`, its `n` low bytes, most
significant first, and `ofBE` reads one back.  `ofBE_toBE` is the round trip
modulo `256 ^ n`, and `cmp_toBE` says that `memcmp` orders two such fields as it
orders the numbers.  The order fact rests on one arithmetic identity: comparing
two numbers is comparing their quotients by the base, then their remainders
(`compare_eq_div_then_mod`), which also says that a record of bounded fields
compares field by field as the one number its fields spell in mixed radix
(`compare_mul_add`).
-/

namespace Bytes

/-! ## The unsigned byte order -/

/-- Bytes are ordered as unsigned numbers, the order `memcmp` compares them in. -/
instance uint8LinearOrder : LinearOrder UInt8 :=
  LinearOrder.liftWithOrd' UInt8.toNat (fun _ _ => UInt8.toNat_inj.mp)
    UInt8.compare_eq_toNat_compare_toNat

/-- `memcmp(a, b, n)`: the first `n` bytes of each side, compared as unsigned
numbers.  Only the sign of the C result is kept. -/
def memcmp (a b : List UInt8) (n : ℕ) : Ordering := Lex.cmp (a.take n) (b.take n)

/-- `memcmp` over the shorter length compares the common prefix. -/
theorem memcmp_min (a b : List UInt8) :
    memcmp a b (min a.length b.length) = Lex.prefixCmp a b :=
  (Lex.prefixCmp_eq_cmp_take a b).symm

/-! ## Big-endian numbers -/

/-- The `n` low bytes of `x`, most significant first. -/
def toBE : ℕ → ℕ → List UInt8
  | 0, _ => []
  | n + 1, x => toBE n (x / 256) ++ [UInt8.ofNat x]

/-- The number a byte string spells, most significant byte first. -/
def ofBE (l : List UInt8) : ℕ := l.foldl (fun acc b => acc * 256 + b.toNat) 0

@[simp] theorem length_toBE (n x : ℕ) : (toBE n x).length = n := by
  induction n generalizing x with
  | zero => rfl
  | succ n ih => simp [toBE, ih]

@[simp] theorem ofBE_nil : ofBE [] = 0 := rfl

@[simp] theorem ofBE_append_singleton (l : List UInt8) (b : UInt8) :
    ofBE (l ++ [b]) = ofBE l * 256 + b.toNat := by
  simp [ofBE, List.foldl_append]

theorem ofBE_toBE (n x : ℕ) : ofBE (toBE n x) = x % 256 ^ n := by
  induction n generalizing x with
  | zero => simp [toBE, Nat.mod_one]
  | succ n ih =>
      -- peel the last byte: `x % 256^(n+1) = (x / 256) % 256^n * 256 + x % 256`
      have hsplit : x % 256 ^ (n + 1) = x / 256 % 256 ^ n * 256 + x % 256 := by
        rw [pow_succ, Nat.mul_comm (256 ^ n) 256, Nat.mod_mul]
        omega
      simp [toBE, ih, hsplit, UInt8.toNat_ofNat']

theorem ofBE_lt (l : List UInt8) : ofBE l < 256 ^ l.length := by
  induction l using List.reverseRecOn with
  | nil => simp
  | append_singleton l b ih =>
    have hb := b.toNat_lt
    rw [ofBE_append_singleton, List.length_append, List.length_singleton, pow_succ]
    omega

/-- Comparing two numbers is comparing their quotients by the base, then their remainders. -/
theorem compare_eq_div_then_mod {b : ℕ} (x y : ℕ) :
    compare x y = (compare (x / b) (y / b)).then (compare (x % b) (y % b)) := by
  rcases lt_trichotomy (x / b) (y / b) with h | h | h
  · rw [compare_lt_iff_lt.2 h, Ordering.lt_then, compare_lt_iff_lt]
    exact Nat.lt_of_div_lt_div h
  · have hx : b * (y / b) + x % b = x := h ▸ Nat.div_add_mod x b
    have hy := Nat.div_add_mod y b
    rw [h, Lex.compare_self', Ordering.eq_then]
    -- both sides share the multiple `b * (y / b)`
    calc compare x y = compare (b * (y / b) + x % b) (b * (y / b) + y % b) := by rw [hx, hy]
      _ = compare (x % b) (y % b) := Lex.compare_map_of_strictMono add_right_strictMono _ _
  · rw [compare_gt_iff_gt.2 h, Ordering.gt_then, compare_gt_iff_gt]
    exact Nat.lt_of_div_lt_div h

/-- Comparing two numbers written in one base is comparing their high parts,
then their last digits. -/
theorem compare_mul_add {B a a' b b' : ℕ} (hb : b < B) (hb' : b' < B) :
    compare (a * B + b) (a' * B + b') = (compare a a').then (compare b b') := by
  have hB : 0 < B := by omega
  have hdiv : ∀ {x y : ℕ}, y < B → (x * B + y) / B = x := fun hy => by
    rw [Nat.mul_comm, Nat.mul_add_div hB, Nat.div_eq_of_lt hy, Nat.add_zero]
  have hmod : ∀ {x y : ℕ}, y < B → (x * B + y) % B = y := fun hy => by
    rw [Nat.mul_comm, Nat.mul_add_mod, Nat.mod_eq_of_lt hy]
  rw [compare_eq_div_then_mod (b := B), hdiv hb, hdiv hb', hmod hb, hmod hb']

/-- Fields of one width compare under `memcmp` as the numbers they hold. -/
theorem cmp_toBE (n : ℕ) {x y : ℕ} (hx : x < 256 ^ n) (hy : y < 256 ^ n) :
    Lex.cmp (toBE n x) (toBE n y) = compare x y := by
  induction n generalizing x y with
  | zero =>
      have hx0 : x = 0 := by simpa using hx
      have hy0 : y = 0 := by simpa using hy
      simp [toBE, hx0, hy0]
  | succ n ih =>
      have hx' : x / 256 < 256 ^ n := Nat.div_lt_of_lt_mul (by rwa [pow_succ, mul_comm] at hx)
      have hy' : y / 256 < 256 ^ n := Nat.div_lt_of_lt_mul (by rwa [pow_succ, mul_comm] at hy)
      have hlast : compare (UInt8.ofNat x) (UInt8.ofNat y) = compare (x % 256) (y % 256) := by
        rw [UInt8.compare_eq_toNat_compare_toNat, UInt8.toNat_ofNat', UInt8.toNat_ofNat']
      rw [toBE, toBE, Lex.cmp_append_of_length_eq (by simp), ih hx' hy', Lex.cmp_cons_cons,
        Lex.cmp_nil_nil, Ordering.then_eq, hlast, ← compare_eq_div_then_mod]

end Bytes
