import Comdb2.Lib.Bits

/-!
# The UTF-8 validator

`utf8_validate_int` (`db/utf8.c`) walks a C string of plain, signed `char`s.
Each turn classifies the lead byte by its high bits, refuses a character that
would run past `max`, shifts in the six low bits of each `10xxxxxx` tail, and
refuses an overlong form, a number past `U+10FFFF` and a surrogate; it stops
at the NUL or after `max` bytes.  The string is a list of bytes that reads as
NUL past its end, and the loop runs on fuel, of which the string's length
plus one is enough.

The masks of the C apply to a sign-extended `char`; they keep the same bits of
it as of the byte (`land_sext`), which turns every test into arithmetic on the
byte's value (`leadClass_charAt`, `processTails_succ`).  At the start of a
list the step then reads one character of RFC 3629's grammar, `Utf8Char`, and
every such character (`utf8Step_append`, `utf8Step_eq_some`); the lead byte
fixes a character's length, so a sequence of them, `Octets`, splits in one way
only (`octets_append_iff`).  Over a list with no NUL the loop returns 0
exactly on `Octets` (`utf8ValidateLoop_spec`).  The bytes of `s` the loop sees
are `scannedBytes s max`; a character that would run past `max` runs into the
end of that list, so the bounded loop over `s` is the unbounded one over them
(`Scans.utf8ValidateLoop_eq`).  Together: `utf8_validate` accepts exactly
well-formed UTF-8, and the vutf8 conversions' test on a buffer of `len` bytes
holds exactly on UTF-8 ended by its one NUL (`utf8Validate_wellFormed`).

`int` overflow of `max` and of `*valid_len` is left out: both are numbers here.
-/

namespace Utf8

/-! ## The validator -/

/-- `*u` at offset `i` of the string, a plain `char`: signed, so a byte from
`0x80` up reads as a negative number.  Past the list the string's NUL. -/
def charAt (s : List UInt8) (i : ℕ) : ℤ := (s.getD i 0).toInt8.toInt

/-- The lead byte's class: the bytes the character takes and the bits of the
scalar it holds, or `none` for a byte no character starts with. -/
def leadClass (c : ℤ) : Option (ℕ × ℕ) :=
  if Int.land c 0x80 = 0x00 then some (1, (Int.land c 0x7f).toNat)       -- 0xxxxxxx
  else if Int.land c 0xe0 = 0xc0 then some (2, (Int.land c 0x1f).toNat)  -- 110xxxxx
  else if Int.land c 0xf0 = 0xe0 then some (3, (Int.land c 0x0f).toNat)  -- 1110xxxx
  else if Int.land c 0xf8 = 0xf0 then some (4, (Int.land c 0x07).toNat)  -- 11110xxx
  else none

/-- `PROCESS_10xxxxxx`, `k` times after offset `i`: each byte must be
`10xxxxxx`, and its six bits are shifted into `v`. -/
def processTails (s : List UInt8) : ℕ → ℕ → ℕ → Option ℕ
  | _, 0, v => some v
  | i, k + 1, v =>
    let c := charAt s (i + 1)
    if Int.land c 0xc0 ≠ 0x80 then none
    else processTails s (i + 1) k ((v <<< 6) ||| (Int.land c 0x3f).toNat)

/-- The checks on a decoded scalar: an overlong form, a number past `U+10FFFF`,
a surrogate. -/
def badScalar (need v : ℕ) : Bool :=
  (match need with
    | 4 => v < 0x10000
    | 3 => v < 0x800
    | 2 => v < 0x80
    | _ => false) ||
  (v > 0x10ffff || (v ≥ 0xd800 && v ≤ 0xdfff))

/-- One turn of the loop of `utf8_validate_int` at offset `i`: the length of the
character there, or `none` where the C returns 1. -/
def utf8Step (s : List UInt8) (endPos : Option ℕ) (i : ℕ) : Option ℕ :=
  match leadClass (charAt s i) with
  | none => none
  | some (need, v) =>
    if endPos.any (· < i + need) then none
    else if need = 1 then some 1
    else
      match processTails s i (need - 1) v with
      | none => none
      | some v => if badScalar need v then none else some need

/-- The loop of `utf8_validate_int` from offset `i`, with `validLen` bytes
validated so far: the return code and `*valid_len`.  Every turn moves past at
least one byte and the loop stops at the NUL, so `s.length + 1` turns are
enough (`utf8ValidateLoop_spec`); the fuel is what makes the loop compute. -/
def utf8ValidateLoop (s : List UInt8) (endPos : Option ℕ) : ℕ → ℕ → ℕ → ℤ × ℕ
  | 0, _, validLen => (0, validLen)
  | fuel + 1, i, validLen =>
    if endPos = some i ∨ charAt s i = 0 then (0, validLen)
    else
      match utf8Step s endPos i with
      | none => (1, validLen)
      | some need => utf8ValidateLoop s endPos fuel (i + need) (validLen + need)

/-- `utf8_validate(str, max, &valid_len)`: `max < 0` leaves the string unbounded. -/
def utf8Validate (s : List UInt8) (max : ℤ) : ℤ × ℕ :=
  utf8ValidateLoop s (if max ≥ 0 then some max.toNat else none) (s.length + 1) 0 0

/-- `utf8_bytelen(str, max)`. -/
def utf8Bytelen (s : List UInt8) (max : ℤ) : ℤ :=
  let (rc, len) := utf8Validate s max
  if rc = 0 then len else -1


def IsTail (b : UInt8) : Prop := 0x80 ≤ b.toNat ∧ b.toNat ≤ 0xBF

instance (b : UInt8) : Decidable (IsTail b) := inferInstanceAs (Decidable (_ ∧ _))

/-- The masks `utf8_validate_int` applies to a `char` read the same bits of a
negative `char` as of the unsigned byte: its low eight bits. -/
theorem land_sext (b : UInt8) :
    Int.land b.toInt8.toInt 0x80 = ((b.toNat &&& 0x80 : ℕ) : ℤ) ∧
      Int.land b.toInt8.toInt 0xe0 = ((b.toNat &&& 0xe0 : ℕ) : ℤ) ∧
      Int.land b.toInt8.toInt 0xf0 = ((b.toNat &&& 0xf0 : ℕ) : ℤ) ∧
      Int.land b.toInt8.toInt 0xf8 = ((b.toNat &&& 0xf8 : ℕ) : ℤ) ∧
      Int.land b.toInt8.toInt 0xc0 = ((b.toNat &&& 0xc0 : ℕ) : ℤ) ∧
      Int.land b.toInt8.toInt 0x7f = ((b.toNat &&& 0x7f : ℕ) : ℤ) ∧
      Int.land b.toInt8.toInt 0x3f = ((b.toNat &&& 0x3f : ℕ) : ℤ) ∧
      Int.land b.toInt8.toInt 0x1f = ((b.toNat &&& 0x1f : ℕ) : ℤ) ∧
      Int.land b.toInt8.toInt 0x0f = ((b.toNat &&& 0x0f : ℕ) : ℤ) ∧
      Int.land b.toInt8.toInt 0x07 = ((b.toNat &&& 0x07 : ℕ) : ℤ) := by
  revert b
  decide +kernel

theorem and_field (x : ℕ) {m : ℕ} (k n : ℕ) (hm : m = (2 ^ n - 1) <<< k) :
    x &&& m = x / 2 ^ k % 2 ^ n * 2 ^ k := by
  rw [hm, Bits.and_field_mask, Nat.shiftLeft_eq, Nat.shiftRight_eq_div_pow]

/-- What each mask of the validator keeps of a byte's value, as arithmetic. -/
theorem land_charAt (s : List UInt8) (i : ℕ) :
    Int.land (charAt s i) 0x80 = ((s.getD i 0).toNat / 128 % 2 * 128 : ℕ) ∧
      Int.land (charAt s i) 0xe0 = ((s.getD i 0).toNat / 32 % 8 * 32 : ℕ) ∧
      Int.land (charAt s i) 0xf0 = ((s.getD i 0).toNat / 16 % 16 * 16 : ℕ) ∧
      Int.land (charAt s i) 0xf8 = ((s.getD i 0).toNat / 8 % 32 * 8 : ℕ) ∧
      Int.land (charAt s i) 0xc0 = ((s.getD i 0).toNat / 64 % 4 * 64 : ℕ) ∧
      Int.land (charAt s i) 0x7f = ((s.getD i 0).toNat % 128 : ℕ) ∧
      Int.land (charAt s i) 0x3f = ((s.getD i 0).toNat % 64 : ℕ) ∧
      Int.land (charAt s i) 0x1f = ((s.getD i 0).toNat % 32 : ℕ) ∧
      Int.land (charAt s i) 0x0f = ((s.getD i 0).toNat % 16 : ℕ) ∧
      Int.land (charAt s i) 0x07 = ((s.getD i 0).toNat % 8 : ℕ) := by
  obtain ⟨h80, he0, hf0, hf8, hc0, h7f, h3f, h1f, h0f, h07⟩ := land_sext (s.getD i 0)
  unfold charAt
  rw [h80, he0, hf0, hf8, hc0, h7f, h3f, h1f, h0f, h07, and_field _ 7 1 (by decide),
    and_field _ 5 3 (by decide), and_field _ 4 4 (by decide), and_field _ 3 5 (by decide),
    and_field _ 6 2 (by decide), Bits.and_ones 7 (by decide), Bits.and_ones 6 (by decide),
    Bits.and_ones 5 (by decide), Bits.and_ones 4 (by decide), Bits.and_ones 3 (by decide)]
  norm_num

/-- The class of a lead byte, read off its value. -/
def leadOf (n : ℕ) : Option (ℕ × ℕ) :=
  if n < 0x80 then some (1, n)
  else if 0xC0 ≤ n ∧ n ≤ 0xDF then some (2, n % 32)
  else if 0xE0 ≤ n ∧ n ≤ 0xEF then some (3, n % 16)
  else if 0xF0 ≤ n ∧ n ≤ 0xF7 then some (4, n % 8)
  else none

theorem leadClass_charAt (s : List UInt8) (i : ℕ) :
    leadClass (charAt s i) = leadOf (s.getD i 0).toNat := by
  have hn := (s.getD i 0).toNat_lt
  obtain ⟨h80, he0, hf0, hf8, -, h7f, -, h1f, h0f, h07⟩ := land_charAt s i
  unfold leadClass leadOf
  rw [h80, he0, hf0, hf8, h7f, h1f, h0f, h07]
  simp only [Int.toNat_natCast, Nat.cast_eq_zero]
  split_ifs <;> first | rfl | omega | (simp only [Option.some.injEq, Prod.mk.injEq, true_and]; omega)

theorem processTails_succ (s : List UInt8) (i k v : ℕ) :
    processTails s i (k + 1) v =
      if IsTail (s.getD (i + 1) 0) then
        processTails s (i + 1) k (v * 64 + (s.getD (i + 1) 0).toNat % 64)
      else none := by
  obtain ⟨-, -, -, -, hc0, -, h3f, -, -, -⟩ := land_charAt s (i + 1)
  have hn := (s.getD (i + 1) 0).toNat_lt
  have hor : v <<< 6 ||| (s.getD (i + 1) 0).toNat % 64 = v * 64 + (s.getD (i + 1) 0).toNat % 64 :=
    Bits.or_eq_add_of_dvd (k := 6) (by rw [Nat.shiftLeft_eq]; exact Dvd.intro_left _ rfl)
      (Nat.mod_lt _ (by norm_num)) |>.trans (by rw [Nat.shiftLeft_eq]; rfl)
  rw [processTails]
  -- `(c & 0xc0) != 0x80` is the negation of the tail test
  have htail : ((s.getD (i + 1) 0).toNat / 64 % 4 * 64 : ℕ) ≠ (0x80 : ℤ) ↔
      ¬IsTail (s.getD (i + 1) 0) := by
    unfold IsTail
    omega
  simp only [hc0, h3f, Int.toNat_natCast, hor, htail, ite_not]

/-! ## RFC 3629 -/

/-- `UTF8-char`, one alternative of RFC 3629 §4 each. -/
inductive Utf8Char : List UInt8 → Prop where
  /-- `UTF8-1 = %x00-7F` -/
  | one {a : UInt8} : a.toNat ≤ 0x7F → Utf8Char [a]
  /-- `UTF8-2 = %xC2-DF UTF8-tail` -/
  | two {a b : UInt8} : 0xC2 ≤ a.toNat → a.toNat ≤ 0xDF → IsTail b → Utf8Char [a, b]
  /-- `UTF8-3 = %xE0 %xA0-BF UTF8-tail` -/
  | e0 {a b c : UInt8} : a.toNat = 0xE0 → 0xA0 ≤ b.toNat → b.toNat ≤ 0xBF → IsTail c →
      Utf8Char [a, b, c]
  /-- `/ %xE1-EC 2( UTF8-tail )` -/
  | e1ec {a b c : UInt8} : 0xE1 ≤ a.toNat → a.toNat ≤ 0xEC → IsTail b → IsTail c →
      Utf8Char [a, b, c]
  /-- `/ %xED %x80-9F UTF8-tail` -/
  | ed {a b c : UInt8} : a.toNat = 0xED → 0x80 ≤ b.toNat → b.toNat ≤ 0x9F → IsTail c →
      Utf8Char [a, b, c]
  /-- `/ %xEE-EF 2( UTF8-tail )` -/
  | eeef {a b c : UInt8} : 0xEE ≤ a.toNat → a.toNat ≤ 0xEF → IsTail b → IsTail c →
      Utf8Char [a, b, c]
  /-- `UTF8-4 = %xF0 %x90-BF 2( UTF8-tail )` -/
  | f0 {a b c d : UInt8} : a.toNat = 0xF0 → 0x90 ≤ b.toNat → b.toNat ≤ 0xBF → IsTail c → IsTail d →
      Utf8Char [a, b, c, d]
  /-- `/ %xF1-F3 3( UTF8-tail )` -/
  | f1f3 {a b c d : UInt8} : 0xF1 ≤ a.toNat → a.toNat ≤ 0xF3 → IsTail b → IsTail c → IsTail d →
      Utf8Char [a, b, c, d]
  /-- `/ %xF4 %x80-8F 2( UTF8-tail )` -/
  | f4 {a b c d : UInt8} : a.toNat = 0xF4 → 0x80 ≤ b.toNat → b.toNat ≤ 0x8F → IsTail c → IsTail d →
      Utf8Char [a, b, c, d]

/-- `UTF8-octets = *( UTF8-char )`. -/
inductive Octets : List UInt8 → Prop where
  | nil : Octets []
  | cons {c rest : List UInt8} : Utf8Char c → Octets rest → Octets (c ++ rest)

theorem utf8Char_one_iff {a : UInt8} : Utf8Char [a] ↔ a.toNat ≤ 0x7F := by
  constructor
  · rintro ⟨h⟩
    exact h
  · exact .one

theorem utf8Char_two_iff {a b : UInt8} :
    Utf8Char [a, b] ↔ 0xC2 ≤ a.toNat ∧ a.toNat ≤ 0xDF ∧ IsTail b := by
  constructor
  · rintro ⟨⟩
    tauto
  · rintro ⟨h₁, h₂, h₃⟩
    exact .two h₁ h₂ h₃

theorem utf8Char_three_iff {a b c : UInt8} :
    Utf8Char [a, b, c] ↔ 0xE0 ≤ a.toNat ∧ a.toNat ≤ 0xEF ∧ IsTail b ∧ IsTail c ∧
      (a.toNat = 0xE0 → 0xA0 ≤ b.toNat) ∧ (a.toNat = 0xED → b.toNat ≤ 0x9F) := by
  constructor
  · rintro (_ | _ | ⟨ha, hb₁, hb₂, hc⟩ | ⟨ha₁, ha₂, hb, hc⟩ | ⟨ha, hb₁, hb₂, hc⟩ | ⟨ha₁, ha₂, hb, hc⟩) <;>
      simp only [IsTail] at * <;> omega
  · rintro ⟨ha₁, ha₂, ⟨hb₁, hb₂⟩, hc, he0, hed⟩
    by_cases h0 : a.toNat = 0xE0
    · exact .e0 h0 (he0 h0) hb₂ hc
    by_cases h1 : a.toNat ≤ 0xEC
    · exact .e1ec (by omega) h1 ⟨hb₁, hb₂⟩ hc
    by_cases hd : a.toNat = 0xED
    · exact .ed hd hb₁ (hed hd) hc
    · exact .eeef (by omega) ha₂ ⟨hb₁, hb₂⟩ hc

theorem utf8Char_four_iff {a b c d : UInt8} :
    Utf8Char [a, b, c, d] ↔ 0xF0 ≤ a.toNat ∧ a.toNat ≤ 0xF4 ∧ IsTail b ∧ IsTail c ∧ IsTail d ∧
      (a.toNat = 0xF0 → 0x90 ≤ b.toNat) ∧ (a.toNat = 0xF4 → b.toNat ≤ 0x8F) := by
  constructor
  · rintro (_ | _ | _ | _ | _ | _ | ⟨ha, hb₁, hb₂, hc, hd⟩ | ⟨ha₁, ha₂, hb, hc, hd⟩ |
      ⟨ha, hb₁, hb₂, hc, hd⟩) <;> simp only [IsTail] at * <;> omega
  · rintro ⟨ha₁, ha₂, ⟨hb₁, hb₂⟩, hc, hd, hf0, hf4⟩
    by_cases h0 : a.toNat = 0xF0
    · exact .f0 h0 (hf0 h0) hb₂ hc hd
    by_cases h4 : a.toNat = 0xF4
    · exact .f4 h4 hb₁ (hf4 h4) hc hd
    · exact .f1f3 (by omega) (by omega) ⟨hb₁, hb₂⟩ hc hd

/-- A character takes one to four bytes. -/
theorem Utf8Char.length_le {c : List UInt8} (h : Utf8Char c) : 1 ≤ c.length ∧ c.length ≤ 4 := by
  cases h <;> simp

/-! ## The checks on the decoded number -/

theorem badScalar_two {a b : ℕ} (ha : 0xC0 ≤ a ∧ a ≤ 0xDF) (hb : 0x80 ≤ b ∧ b ≤ 0xBF) :
    badScalar 2 (a % 32 * 64 + b % 64) = true ↔ ¬0xC2 ≤ a := by
  simp only [badScalar, Bool.or_eq_true, decide_eq_true_eq, Bool.and_eq_true]
  omega

theorem badScalar_three {a b c : ℕ} (ha : 0xE0 ≤ a ∧ a ≤ 0xEF) (hb : 0x80 ≤ b ∧ b ≤ 0xBF) :
    badScalar 3 ((a % 16 * 64 + b % 64) * 64 + c % 64) = true ↔
      ¬((a = 0xE0 → 0xA0 ≤ b) ∧ (a = 0xED → b ≤ 0x9F)) := by
  simp only [badScalar, Bool.or_eq_true, decide_eq_true_eq, Bool.and_eq_true]
  omega

theorem badScalar_four {a b c d : ℕ} (ha : 0xF0 ≤ a ∧ a ≤ 0xF7) (hb : 0x80 ≤ b ∧ b ≤ 0xBF) :
    badScalar 4 (((a % 8 * 64 + b % 64) * 64 + c % 64) * 64 + d % 64) = true ↔
      ¬(a ≤ 0xF4 ∧ (a = 0xF0 → 0x90 ≤ b) ∧ (a = 0xF4 → b ≤ 0x8F)) := by
  simp only [badScalar, Bool.or_eq_true, decide_eq_true_eq, Bool.and_eq_true]
  omega

/-! ## One character -/

theorem not_isTail_zero : ¬IsTail 0 := by decide

theorem leadOf_one {n : ℕ} (h : n < 0x80) : leadOf n = some (1, n) := by
  simp [leadOf, h]

theorem leadOf_two {n : ℕ} (h : 0xC0 ≤ n ∧ n ≤ 0xDF) : leadOf n = some (2, n % 32) := by
  unfold leadOf
  rw [if_neg (by omega), if_pos h]

theorem leadOf_three {n : ℕ} (h : 0xE0 ≤ n ∧ n ≤ 0xEF) : leadOf n = some (3, n % 16) := by
  unfold leadOf
  rw [if_neg (by omega), if_neg (by omega), if_pos h]

theorem leadOf_four {n : ℕ} (h : 0xF0 ≤ n ∧ n ≤ 0xF7) : leadOf n = some (4, n % 8) := by
  unfold leadOf
  rw [if_neg (by omega), if_neg (by omega), if_neg (by omega), if_pos h]

theorem leadOf_none {n : ℕ} (h : 0x80 ≤ n ∧ n < 0xC0 ∨ 0xF8 ≤ n) : leadOf n = none := by
  unfold leadOf
  rw [if_neg (by omega), if_neg (by omega), if_neg (by omega), if_neg (by omega)]

/-- The step at the start of a list, with nothing to bound it, for each class
of lead byte: what the tails and the checks on the number ask of the bytes. -/
theorem utf8Step_one {a : UInt8} (r : List UInt8) (ha : a.toNat < 0x80) :
    utf8Step (a :: r) none 0 = some 1 := by
  simp [utf8Step, leadClass_charAt, leadOf_one ha]

theorem utf8Step_two {a : UInt8} (r : List UInt8) (ha : 0xC0 ≤ a.toNat ∧ a.toNat ≤ 0xDF) :
    utf8Step (a :: r) none 0 =
      if IsTail (r.getD 0 0) ∧ 0xC2 ≤ a.toNat then some 2 else none := by
  simp only [utf8Step, leadClass_charAt, List.getD_cons_zero, leadOf_two ha, Option.any_none,
    Bool.false_eq_true, if_false, if_neg (show (2 : ℕ) ≠ 1 by decide), processTails_succ,
    List.getD_cons_succ, processTails.eq_1]
  by_cases hb : IsTail (r.getD 0 0)
  · simp only [hb, if_true, badScalar_two ha hb, ite_not, true_and]
  · simp only [hb, if_false, false_and]

theorem utf8Step_three {a : UInt8} (r : List UInt8) (ha : 0xE0 ≤ a.toNat ∧ a.toNat ≤ 0xEF) :
    utf8Step (a :: r) none 0 =
      if IsTail (r.getD 0 0) ∧ IsTail (r.getD 1 0) ∧
          (a.toNat = 0xE0 → 0xA0 ≤ (r.getD 0 0).toNat) ∧
          (a.toNat = 0xED → (r.getD 0 0).toNat ≤ 0x9F) then some 3
      else none := by
  simp only [utf8Step, leadClass_charAt, List.getD_cons_zero, leadOf_three ha, Option.any_none,
    Bool.false_eq_true, if_false, if_neg (show (3 : ℕ) ≠ 1 by decide), processTails_succ,
    List.getD_cons_succ, processTails.eq_1]
  by_cases hb : IsTail (r.getD 0 0)
  · by_cases hc : IsTail (r.getD 1 0)
    · simp only [hb, hc, if_true, badScalar_three ha hb, ite_not, true_and]
    · simp only [hb, hc, if_true, if_false, false_and, and_false]
  · simp only [hb, if_false, false_and]

theorem utf8Step_four {a : UInt8} (r : List UInt8) (ha : 0xF0 ≤ a.toNat ∧ a.toNat ≤ 0xF7) :
    utf8Step (a :: r) none 0 =
      if IsTail (r.getD 0 0) ∧ IsTail (r.getD 1 0) ∧ IsTail (r.getD 2 0) ∧ a.toNat ≤ 0xF4 ∧
          (a.toNat = 0xF0 → 0x90 ≤ (r.getD 0 0).toNat) ∧
          (a.toNat = 0xF4 → (r.getD 0 0).toNat ≤ 0x8F) then some 4
      else none := by
  simp only [utf8Step, leadClass_charAt, List.getD_cons_zero, leadOf_four ha, Option.any_none,
    Bool.false_eq_true, if_false, if_neg (show (4 : ℕ) ≠ 1 by decide), processTails_succ,
    List.getD_cons_succ, processTails.eq_1]
  by_cases hb : IsTail (r.getD 0 0)
  · by_cases hc : IsTail (r.getD 1 0)
    · by_cases hd : IsTail (r.getD 2 0)
      · simp only [hb, hc, hd, if_true, badScalar_four ha hb, ite_not, true_and]
      · simp only [hb, hc, hd, if_true, if_false, false_and, and_false]
    · simp only [hb, hc, if_true, if_false, false_and, and_false]
  · simp only [hb, if_false, false_and]

theorem utf8Step_none {a : UInt8} (r : List UInt8) (ha : leadOf a.toNat = none) :
    utf8Step (a :: r) none 0 = none := by
  simp [utf8Step, leadClass_charAt, ha]

/-- The step reads a whole character off the front of any list that starts with one. -/
theorem utf8Step_append {c : List UInt8} (h : Utf8Char c) (r : List UInt8) :
    utf8Step (c ++ r) none 0 = some c.length := by
  match c, h with
  | [a], h =>
    exact utf8Step_one r (by have ha := utf8Char_one_iff.1 h; omega)
  | [a, b], h =>
    obtain ⟨ha₁, ha₂, hb⟩ := utf8Char_two_iff.1 h
    rw [List.cons_append, utf8Step_two _ ⟨by omega, ha₂⟩, if_pos ⟨hb, ha₁⟩]
    rfl
  | [a, b, c], h =>
    obtain ⟨ha₁, ha₂, hb, hc, he0, hed⟩ := utf8Char_three_iff.1 h
    rw [List.cons_append, utf8Step_three _ ⟨ha₁, ha₂⟩, if_pos ⟨hb, hc, he0, hed⟩]
    rfl
  | [a, b, c, d], h =>
    obtain ⟨ha₁, ha₂, hb, hc, hd, hf0, hf4⟩ := utf8Char_four_iff.1 h
    rw [List.cons_append, utf8Step_four _ ⟨ha₁, by omega⟩, if_pos ⟨hb, hc, hd, ha₂, hf0, hf4⟩]
    rfl
  | [], h => simpa using h.length_le
  | _ :: _ :: _ :: _ :: _ :: _, h => exact absurd h.length_le.2 (by simp)

/-- What the step accepts at the front of a list is one character. -/
theorem utf8Step_eq_some {x : List UInt8} {k : ℕ} (hx : x ≠ []) (h : utf8Step x none 0 = some k) :
    ∃ c rest, Utf8Char c ∧ x = c ++ rest ∧ c.length = k := by
  obtain ⟨a, r, rfl⟩ := List.exists_cons_of_ne_nil hx
  rcases (show a.toNat < 0x80 ∨ (0xC0 ≤ a.toNat ∧ a.toNat ≤ 0xDF) ∨
      (0xE0 ≤ a.toNat ∧ a.toNat ≤ 0xEF) ∨ (0xF0 ≤ a.toNat ∧ a.toNat ≤ 0xF7) ∨
      (0x80 ≤ a.toNat ∧ a.toNat < 0xC0 ∨ 0xF8 ≤ a.toNat) by omega) with h1 | h2 | h3 | h4 | hn
  · rw [utf8Step_one r h1] at h
    cases h
    exact ⟨[a], r, .one (by omega), rfl, rfl⟩
  · rw [utf8Step_two r h2] at h
    split_ifs at h with hc
    cases h
    obtain ⟨hb, ha⟩ := hc
    -- a tail is never the NUL that reads past the list
    rcases r with _ | ⟨b, r⟩
    · exact absurd hb not_isTail_zero
    · exact ⟨[a, b], r, .two ha h2.2 hb, rfl, rfl⟩
  · rw [utf8Step_three r h3] at h
    split_ifs at h with hc
    cases h
    obtain ⟨hb, hc, he0, hed⟩ := hc
    rcases r with _ | ⟨b, _ | ⟨c, r⟩⟩
    · exact absurd hb not_isTail_zero
    · exact absurd hc not_isTail_zero
    · exact ⟨[a, b, c], r, utf8Char_three_iff.2 ⟨h3.1, h3.2, hb, hc, he0, hed⟩, rfl, rfl⟩
  · rw [utf8Step_four r h4] at h
    split_ifs at h with hc
    cases h
    obtain ⟨hb, hc, hd, ha, hf0, hf4⟩ := hc
    rcases r with _ | ⟨b, _ | ⟨c, _ | ⟨d, r⟩⟩⟩
    · exact absurd hb not_isTail_zero
    · exact absurd hc not_isTail_zero
    · exact absurd hd not_isTail_zero
    · exact ⟨[a, b, c, d], r, utf8Char_four_iff.2 ⟨h4.1, ha, hb, hc, hd, hf0, hf4⟩, rfl, rfl⟩
  · rw [utf8Step_none r (leadOf_none hn)] at h
    cases h

/-- Characters are a prefix code: the lead byte fixes how long the character is. -/
theorem Utf8Char.append_inj {c c' r r' : List UInt8} (h : Utf8Char c) (h' : Utf8Char c')
    (he : c ++ r = c' ++ r') : c = c' ∧ r = r' := by
  have hlen : some c.length = some c'.length := by
    rw [← utf8Step_append h r, he, utf8Step_append h' r']
  exact List.append_inj he (Option.some.inj hlen)

theorem octets_append_iff {c r : List UInt8} (h : Utf8Char c) : Octets (c ++ r) ↔ Octets r := by
  constructor
  · intro ho
    generalize hx : c ++ r = x at ho
    cases ho with
    | nil =>
      obtain ⟨rfl, -⟩ := List.append_eq_nil_iff.1 hx
      simpa using h.length_le
    | cons hc' hr' =>
      obtain ⟨-, rfl⟩ := h.append_inj hc' hx
      exact hr'
  · exact .cons h

/-- A sequence of characters that is not empty starts with one the step accepts. -/
theorem utf8Step_of_octets {x : List UInt8} (hx : x ≠ []) (h : Octets x) :
    ∃ k, utf8Step x none 0 = some k := by
  cases h with
  | nil => exact absurd rfl hx
  | cons hc _ => exact ⟨_, utf8Step_append hc _⟩

/-! ## The loop -/

theorem charAt_eq_zero_iff (s : List UInt8) (i : ℕ) : charAt s i = 0 ↔ s.getD i 0 = 0 := by
  unfold charAt
  generalize s.getD i 0 = b
  revert b
  decide +kernel

theorem getD_drop (t : List UInt8) (i j : ℕ) : (t.drop i).getD j 0 = t.getD (i + j) 0 := by
  simp [List.getD_eq_getElem?_getD]

theorem processTails_drop (t : List UInt8) (i : ℕ) :
    ∀ k j v, processTails (t.drop i) j k v = processTails t (i + j) k v := by
  intro k
  induction k with
  | zero => intro j v; rfl
  | succ k ih =>
    intro j v
    rw [processTails_succ, processTails_succ, getD_drop, ih, Nat.add_assoc]

/-- The step at offset `i` of a list is the step at the start of what is left. -/
theorem utf8Step_drop (t : List UInt8) (i : ℕ) : utf8Step (t.drop i) none 0 = utf8Step t none i := by
  simp only [utf8Step, leadClass_charAt, getD_drop, processTails_drop, add_zero, Option.any_none]

/-- A character the step reads at offset `i` lies within the list. -/
theorem utf8Step_le_length {t : List UInt8} {i k : ℕ} (hi : i < t.length)
    (h : utf8Step t none i = some k) : i + k ≤ t.length := by
  rw [← utf8Step_drop] at h
  obtain ⟨c, rest, -, hdrop, rfl⟩ := utf8Step_eq_some (by simp; omega) h
  have := congrArg List.length hdrop
  simp at this
  omega

/-- **The loop against RFC 3629**, over a list with no NUL and no bound: from
offset `i`, it returns 0 exactly when the rest of the list is a sequence of
characters, and then it has counted every byte of it.  The induction is on the
fuel; each turn the step either reads one character (`utf8Step_eq_some`) or
finds none (`utf8Step_of_octets`). -/
theorem utf8ValidateLoop_spec {t : List UInt8} (ht : 0 ∉ t) :
    ∀ fuel i n, i ≤ t.length → t.length < i + fuel →
      ((utf8ValidateLoop t none fuel i n).1 = 0 ↔ Octets (t.drop i)) ∧
        ((utf8ValidateLoop t none fuel i n).1 = 0 →
          (utf8ValidateLoop t none fuel i n).2 = n + (t.length - i)) := by
  intro fuel
  induction fuel with
  | zero => intro i n hi hf; omega
  | succ fuel ih =>
    intro i n hi hf
    rw [utf8ValidateLoop]
    rcases hi.lt_or_eq with hlt | rfl
    · -- a byte of `t`, which is not the NUL
      have hne : charAt t i ≠ 0 := by
        rw [Ne, charAt_eq_zero_iff, List.getD_eq_getElem _ _ hlt]
        exact fun h0 => ht (h0 ▸ List.getElem_mem hlt)
      have hx : t.drop i ≠ [] := by simp; omega
      rw [if_neg (by simp [hne]), ← utf8Step_drop]
      cases hs : utf8Step (t.drop i) none 0 with
      | none =>
        dsimp only
        refine ⟨⟨fun h => absurd h one_ne_zero, fun ho => ?_⟩, fun h => absurd h one_ne_zero⟩
        obtain ⟨k, hk⟩ := utf8Step_of_octets hx ho
        rw [hs] at hk
        cases hk
      | some k =>
        have hlen := utf8Step_le_length hlt (by rw [← utf8Step_drop, hs])
        obtain ⟨c, rest, hc, hdrop, rfl⟩ := utf8Step_eq_some hx hs
        have hrest : t.drop (i + c.length) = rest := by rw [← List.drop_drop, hdrop, List.drop_left]
        have hpos := hc.length_le
        obtain ⟨h1, h2⟩ := ih (i + c.length) (n + c.length) hlen (by omega)
        rw [hrest] at h1
        rw [hdrop, octets_append_iff hc]
        exact ⟨h1, fun h0 => by rw [h2 h0]; omega⟩
    · -- past the last byte: the NUL the list reads as there
      have hz : charAt t t.length = 0 := by
        rw [charAt_eq_zero_iff, List.getD_eq_default _ _ le_rfl]
      simp [hz, Octets.nil]

/-! ## What the validator scans -/

/-- The bytes `utf8_validate` looks at: those before the first NUL, and no more
than `max` of them when `max ≥ 0`. -/
def scannedBytes (s : List UInt8) (max : ℤ) : List UInt8 :=
  if max ≥ 0 then (s.takeWhile (· != 0)).take max.toNat else s.takeWhile (· != 0)

/-- `t` is what the loop over `s` bounded by `e` sees: a prefix of `s` with no
NUL, within the bound, and ended by the bound or by a NUL. -/
structure Scans (s : List UInt8) (e : Option ℕ) (t : List UInt8) : Prop where
  isPrefix : t <+: s
  noNul : 0 ∉ t
  within : ∀ m, e = some m → t.length ≤ m
  stops : e = some t.length ∨ s.getD t.length 0 = 0

theorem processTails_congr {s t : List UInt8} {L : ℕ} (hst : ∀ j < L, s.getD j 0 = t.getD j 0) :
    ∀ k i v, i < L → (i + k < L ∨ ¬IsTail (s.getD L 0) ∧ ¬IsTail (t.getD L 0)) →
      processTails s i k v = processTails t i k v := by
  intro k
  induction k with
  | zero => intro i v _ _; rfl
  | succ k ih =>
    intro i v hi hL
    rw [processTails_succ, processTails_succ]
    rcases (show i + 1 < L ∨ i + 1 = L by omega) with hlt | heq
    · rw [hst _ hlt, ih _ _ hlt (hL.imp_left fun h => by omega)]
    · -- the next byte is the one at `L`, which neither list takes as a tail
      rw [heq, if_neg (hL.resolve_left (by omega)).1, if_neg (hL.resolve_left (by omega)).2]

theorem processTails_eq_none {t : List UInt8} {L : ℕ} (hL : ¬IsTail (t.getD L 0)) :
    ∀ k i v, i < L → L ≤ i + k → processTails t i k v = none := by
  intro k
  induction k with
  | zero => intro i v hi hk; omega
  | succ k ih =>
    intro i v hi hk
    rw [processTails_succ]
    rcases (show i + 1 < L ∨ i + 1 = L by omega) with hlt | heq
    · split_ifs
      · exact ih _ _ hlt (by omega)
      · rfl
    · rw [heq, if_neg hL]

theorem leadOf_need {n need v : ℕ} (h : leadOf n = some (need, v)) : 1 ≤ need := by
  unfold leadOf at h
  split_ifs at h <;> cases h <;> norm_num

section Scans

variable {s t : List UInt8} {e : Option ℕ}

theorem Scans.getD_eq (h : Scans s e t) {j : ℕ} (hj : j < t.length) : s.getD j 0 = t.getD j 0 := by
  obtain ⟨u, rfl⟩ := h.isPrefix
  exact List.getD_append _ _ _ _ hj

theorem charAt_eq_zero_of_noNul (ht : 0 ∉ t) {i : ℕ} (hi : i ≤ t.length) :
    charAt t i = 0 ↔ i = t.length := by
  rw [charAt_eq_zero_iff]
  rcases hi.lt_or_eq with hlt | rfl
  · rw [List.getD_eq_getElem _ _ hlt]
    exact ⟨fun h0 => absurd (h0 ▸ List.getElem_mem hlt) ht, fun h => by omega⟩
  · simp

/-- The loop over `s` stops where the one over `t` does: at the end of `t`. -/
theorem Scans.stop_iff (h : Scans s e t) {i : ℕ} (hi : i ≤ t.length) :
    (e = some i ∨ charAt s i = 0) ↔ i = t.length := by
  constructor
  · rintro (he | hz)
    · exact le_antisymm hi (h.within i he)
    · rcases hi.lt_or_eq with hlt | heq
      · rw [charAt_eq_zero_iff, h.getD_eq hlt, ← charAt_eq_zero_iff] at hz
        exact (charAt_eq_zero_of_noNul h.noNul hi).1 hz
      · exact heq
  · rintro rfl
    exact h.stops.imp id (charAt_eq_zero_iff s _).2

/-- Within `t`, a step over `s` bounded by `e` is a step over `t` with no bound:
a character that would run past the bound runs into the end of `t`, where `t`
reads as a NUL, which no tail is. -/
theorem Scans.utf8Step_eq (h : Scans s e t) {i : ℕ} (hi : i < t.length) :
    utf8Step s e i = utf8Step t none i := by
  have hzero : ¬IsTail (t.getD t.length 0) := by
    rw [List.getD_eq_default _ _ le_rfl]
    exact not_isTail_zero
  unfold utf8Step
  rw [leadClass_charAt, leadClass_charAt, h.getD_eq hi]
  rcases hl : leadOf (t.getD i 0).toNat with _ | ⟨need, v⟩
  · rfl
  · have hneed := leadOf_need hl
    dsimp only
    simp only [Option.any_none, Bool.false_eq_true, if_false]
    by_cases hend : e.any (· < i + need) = true
    · -- past the bound: the list `t` ends first
      obtain ⟨m, rfl, hm⟩ : ∃ m, e = some m ∧ m < i + need := by
        cases e <;> simp_all
      have hL := h.within m rfl
      rw [if_pos hend, if_neg (show need ≠ 1 by omega),
        processTails_eq_none hzero _ _ _ hi (by omega)]
    · rw [if_neg hend]
      split_ifs
      · rfl
      · have hcond : i + (need - 1) < t.length ∨
            ¬IsTail (s.getD t.length 0) ∧ ¬IsTail (t.getD t.length 0) := by
          rcases h.stops with hs | hs
          · subst hs
            simp only [Option.any_some, decide_eq_true_eq] at hend
            omega
          · rw [hs]
            exact Or.inr ⟨not_isTail_zero, hzero⟩
        rw [processTails_congr (fun j hj => h.getD_eq hj) _ _ _ hi hcond]

/-- The loop over `s` bounded by `e` is the loop over `t` with no bound. -/
theorem Scans.utf8ValidateLoop_eq (h : Scans s e t) :
    ∀ fuel i n, i ≤ t.length → utf8ValidateLoop s e fuel i n = utf8ValidateLoop t none fuel i n := by
  intro fuel
  induction fuel with
  | zero => intro i n _; rfl
  | succ fuel ih =>
    intro i n hi
    have hstop := h.stop_iff hi
    have hstop' : (none = some i ∨ charAt t i = 0) ↔ i = t.length := by
      simpa using charAt_eq_zero_of_noNul h.noNul hi
    rw [utf8ValidateLoop, utf8ValidateLoop]
    rcases hi.lt_or_eq with hlt | heq
    · rw [if_neg (mt hstop.1 (by omega)), if_neg (mt hstop'.1 (by omega)), h.utf8Step_eq hlt]
      cases hs : utf8Step t none i with
      | none => rfl
      | some k => exact ih _ _ (utf8Step_le_length hlt hs)
    · rw [if_pos (hstop.2 heq), if_pos (hstop'.2 heq)]

end Scans

theorem getD_takeWhile_length (s : List UInt8) : s.getD (s.takeWhile (· != 0)).length 0 = 0 := by
  induction s with
  | nil => rfl
  | cons a s ih =>
    by_cases ha : a = 0
    · rw [List.takeWhile_cons_of_neg (by simp [ha])]
      exact ha
    · rw [List.takeWhile_cons_of_pos (by simp [ha]), List.length_cons, List.getD_cons_succ, ih]

theorem scans_scannedBytes (s : List UInt8) (max : ℤ) :
    Scans s (if max ≥ 0 then some max.toNat else none) (scannedBytes s max) := by
  have hw : s.takeWhile (· != 0) <+: s := List.takeWhile_prefix _
  have hnul : 0 ∉ s.takeWhile (· != 0) := fun h0 => by simpa using List.mem_takeWhile_imp h0
  unfold scannedBytes
  split_ifs with hm
  · refine ⟨(List.take_prefix _ _).trans hw, fun h0 => hnul (List.mem_of_mem_take h0), ?_, ?_⟩
    · rintro m ⟨⟩
      exact List.length_take_le _ _
    · rcases le_or_gt (s.takeWhile (· != 0)).length max.toNat with hle | hlt
      · rw [List.take_of_length_le hle]
        exact Or.inr (getD_takeWhile_length s)
      · left
        rw [List.length_take, Nat.min_eq_left hlt.le]
  · exact ⟨hw, hnul, fun m hm => (by cases hm), Or.inr (getD_takeWhile_length s)⟩

/-! ## The validator against RFC 3629 -/

/-- `utf8_validate` returns 0 exactly when the bytes it scans are a sequence
of characters, and then `*valid_len` counts them all. -/
theorem utf8Validate_iff_octets (s : List UInt8) (max : ℤ) :
    ((utf8Validate s max).1 = 0 ↔ Octets (scannedBytes s max)) ∧
      ((utf8Validate s max).1 = 0 → (utf8Validate s max).2 = (scannedBytes s max).length) := by
  have hsc := scans_scannedBytes s max
  have hlen : (scannedBytes s max).length ≤ s.length := hsc.isPrefix.length_le
  have heq : utf8Validate s max = utf8ValidateLoop (scannedBytes s max) none (s.length + 1) 0 0 :=
    hsc.utf8ValidateLoop_eq _ _ _ (Nat.zero_le _)
  obtain ⟨h1, h2⟩ := utf8ValidateLoop_spec hsc.noNul (s.length + 1) 0 0 (Nat.zero_le _) (by omega)
  simp only [List.drop_zero, Nat.sub_zero, Nat.zero_add] at h1 h2
  rw [heq]
  exact ⟨h1, h2⟩

-- a surrogate, `U+D800`, is refused at once
example : utf8Validate [0xED, 0xA0, 0x80] (-1) = (1, 0) := by decide +kernel

/-- `utf8_bytelen` is the length of what was scanned when that is UTF-8, and -1
when it is not. -/
theorem utf8Bytelen_eq (s : List UInt8) (max : ℤ) :
    (Octets (scannedBytes s max) → utf8Bytelen s max = (scannedBytes s max).length) ∧
      (¬Octets (scannedBytes s max) → utf8Bytelen s max = -1) := by
  obtain ⟨hacc, hcount⟩ := utf8Validate_iff_octets s max
  unfold utf8Bytelen
  rcases hv : utf8Validate s max with ⟨rc, n⟩
  rw [hv] at hacc hcount
  dsimp only at hacc hcount ⊢
  constructor
  · intro ho
    rw [if_pos (hacc.2 ho), hcount (hacc.2 ho)]
  · intro ho
    rw [if_neg (mt hacc.1 ho)]

theorem takeWhile_eq_take {p : List UInt8} {k : ℕ} (hnul : 0 ∉ p.take k) (hz : p.getD k 0 = 0) :
    p.takeWhile (· != 0) = p.take k := by
  induction p generalizing k with
  | nil => simp
  | cons a p ih =>
    cases k with
    | zero =>
      rw [List.takeWhile_cons_of_neg (by simpa using hz)]
      rfl
    | succ k =>
      have ha : a ≠ 0 := fun h => hnul (by simp [h])
      rw [List.takeWhile_cons_of_pos (by simpa using ha), List.take_succ_cons,
        ih (fun h => hnul (by simp [h])) hz]

/-- A buffer of `len` bytes, scanned with `max = len`: the validator sees its
first `len - 1` bytes when they hold no NUL and the last byte is one. -/
theorem scannedBytes_nulTerminated {p : List UInt8} {len : ℕ} (h1 : 1 ≤ len)
    (hw : p.takeWhile (· != 0) = p.take (len - 1)) : scannedBytes p len = p.take (len - 1) := by
  rw [scannedBytes, if_pos (by omega), hw, Int.toNat_natCast, List.take_take,
    Nat.min_eq_right (by omega)]

/-- **`utf8_validate` accepts exactly well-formed UTF-8**: it returns 0 when the
bytes before the first NUL, or the first `max` of them, are a sequence of RFC 3629
characters, and then counts them; and the vutf8 conversions' test
`utf8_validate(p, len, &n) == 0 && n == len - 1` on a buffer of `len` bytes holds
exactly when its last byte is the only NUL and the bytes before it are UTF-8. -/
theorem utf8Validate_wellFormed :
    (∀ (s : List UInt8) (max : ℤ),
      ((utf8Validate s max).1 = 0 ↔ Octets (scannedBytes s max)) ∧
        ((utf8Validate s max).1 = 0 → (utf8Validate s max).2 = (scannedBytes s max).length)) ∧
    ∀ (p : List UInt8) (len : ℕ), 1 ≤ len → len ≤ p.length →
      ((utf8Validate p len).1 = 0 ∧ (utf8Validate p len).2 = len - 1 ↔
        Octets (p.take (len - 1)) ∧ 0 ∉ p.take (len - 1) ∧ p.getD (len - 1) 0 = 0) := by
  refine ⟨utf8Validate_iff_octets, fun p len h1 hlen => ?_⟩
  obtain ⟨hacc, hcount⟩ := utf8Validate_iff_octets p len
  have hnul : 0 ∉ p.takeWhile (· != 0) := fun h0 => by simpa using List.mem_takeWhile_imp h0
  constructor
  · rintro ⟨h0, hn⟩
    -- the count is the length of what was scanned, so the NUL comes at `len - 1`
    have hwlen : (p.takeWhile (· != 0)).length = len - 1 := by
      have hsl := (hcount h0).symm.trans hn
      rw [scannedBytes, if_pos (by omega), Int.toNat_natCast, List.length_take] at hsl
      omega
    have hwt : p.takeWhile (· != 0) = p.take (len - 1) := by
      rw [← hwlen]
      exact List.prefix_iff_eq_take.1 (List.takeWhile_prefix _)
    refine ⟨scannedBytes_nulTerminated h1 hwt ▸ hacc.1 h0, hwt ▸ hnul, ?_⟩
    rw [← hwlen]
    exact getD_takeWhile_length p
  · rintro ⟨ho, hnul', hz⟩
    have hsc := scannedBytes_nulTerminated h1 (takeWhile_eq_take hnul' hz)
    have h0 := hacc.2 (hsc ▸ ho)
    refine ⟨h0, ?_⟩
    rw [hcount h0, hsc, List.length_take]
    omega

theorem utf8Validate_wellFormed_terminated :
    ((utf8Validate [0x61, 0xC3, 0xA9, 0] 4).1 = 0 ∧ (utf8Validate [0x61, 0xC3, 0xA9, 0] 4).2 = 4 - 1) ∧
      ¬((utf8Validate [0xC3, 0xA9, 0x61] 3).1 = 0 ∧ (utf8Validate [0xC3, 0xA9, 0x61] 3).2 = 3 - 1) := by
  constructor
  · refine (utf8Validate_wellFormed.2 [0x61, 0xC3, 0xA9, 0] 4 (by decide) (by decide)).2
      ⟨?_, by decide, rfl⟩
    exact @Octets.cons [0x61] [0xC3, 0xA9] (.one (by decide))
      (@Octets.cons [0xC3, 0xA9] [] (.two (by decide) (by decide) (by decide)) .nil)
  · intro h
    have h' := (utf8Validate_wellFormed.2 [0xC3, 0xA9, 0x61] 3 (by decide) (by decide)).1 h
    exact absurd h'.2.2 (by decide)

end Utf8