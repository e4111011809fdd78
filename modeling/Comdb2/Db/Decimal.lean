import Mathlib

/-!
# Decimal quanta in keys

A decimal field is stored as a header byte, a sign byte, a biased exponent and
a packed coefficient (`server_decimal32_t`, `server_decimal64_t`,
`server_decimal128_t`).  `dfp_*_to_ondisk` takes what `decSingleToPacked` and
its wider kin return and makes it sort under `memcmp` (`make_order_decimal*`):
the coefficient is moved up until its first nonzero digit leads
(`shift_coefficient_to_ondisk`), the exponent is moved by the digits dropped,
and the last coefficient byte gets the count of trailing zero digits plus one.
That count is the *quantum*, and being nonzero it also marks the new format.  A
zero keeps its exponent, which is then its quantum, and gets the mark 1.  A
negative number has every bit of its exponent and coefficient flipped.

A quantum would break the order of keys, so the key keeps the field with the
quantum taken out (`decimal_quantum_get`) and stores the quantum and the sign
beside it; `decimal_quantum_set` puts them back.  Get sets the quantum to the
mark 1; on a zero it also clears the exponent and makes the zero positive.

Every field the converters write for a number or an infinity comes back byte
for byte (`decimalQuantumSet_decimalQuantumGet`).  The fields fall into the
shapes `Ordered32` and `Ordered2B`: zeros of either sign, and nonzero numbers
whose first coefficient byte is neither 0 nor `0xFF` (its leading digit is a
decimal digit) with a nonzero mark.  The converters' output has those shapes
(`dfpSingleToOndisk_ordered`, `dfpToOndisk2B_ordered`), and set undoes get on
each of them (`quantumSet32_quantumGet32`, `quantumSet2B_quantumGet2B`).  An
infinity is never touched by either call.

A NaN is written with a zero coefficient and no mark.  Get takes it for a
positive zero and clears its exponent; set sees no mark, takes the field for
one of the old format and leaves it alone, so the NaN comes back with its
exponent cleared (`quantumRoundTrip_nan`, `decimalQuantumSet_nan`).
-/

namespace Decimal

/-! ## The on-disk fields -/

/-- `DECSINGLE_PACKED_COEF`, `DECDOUBLE_PACKED_COEF`, `DECQUAD_PACKED_COEF`: the
coefficient bytes of 7, 16 and 34 digits and a sign nibble. -/
def decsinglePackedCoef : ℕ := 4

def decdoublePackedCoef : ℕ := 9

def decquadPackedCoef : ℕ := 18

/-- A `server_decimal32_t`: the header, the sign (1 for a positive number), the
biased exponent and the coefficient. -/
structure ServerDecimal32 where
  flag : UInt8
  sign : UInt8
  exp : UInt8
  coef : List UInt8
deriving DecidableEq, Repr

/-- A `server_decimal64_t` or `server_decimal128_t`.  The exponent is the number
its two bytes spell in network order, the value the code reads through
`htons`. -/
structure ServerDecimal2B where
  flag : UInt8
  sign : UInt8
  exp : UInt16
  coef : List UInt8
deriving DecidableEq, Repr

/-- A decimal field, by the length the calls switch on. -/
inductive ServerDecimal
  | d32 (v : ServerDecimal32)
  | d64 (v : ServerDecimal2B)
  | d128 (v : ServerDecimal2B)
deriving DecidableEq, Repr

/-- `int2_to_int2b`: a `short` with its top bit flipped, as an unsigned short. -/
def int2ToInt2b (x : Int16) : UInt16 := x.toUInt16 ^^^ 0x8000

/-- `int2b_to_int2`, the inverse flip. -/
def int2bToInt2 (x : UInt16) : Int16 := (x ^^^ 0x8000).toInt16

/-- The two bytes of a `short` swapped: what a store without `htons` leaves
in network order. -/
def bswap16 (x : UInt16) : UInt16 := (x <<< 8) ||| (x >>> 8)

/-- `DEC_1B_IS_INFINITY`. -/
def dec1bIsInfinity (pd : ServerDecimal32) : Bool :=
  (pd.sign == 1 && pd.exp == 0xF8) || (pd.sign == 0 && pd.exp == 0x07)

/-- `DEC_2B_IS_INFINITY`. -/
def dec2bIsInfinity (pd : ServerDecimal2B) : Bool :=
  (pd.sign == 1 && pd.exp == 0xF800) || (pd.sign == 0 && pd.exp == 0x07FF)

/-- The first `k` coefficient bytes all equal `b`: the exit test of the loops
`for (i = 0; i < k && coef[i] == b; i++)`. -/
def prefixAll (coef : List UInt8) (k : ℕ) (b : UInt8) : Bool := (coef.take k).all (· == b)

/-- `for (i = 0; i < k; i++) coef[i] ^= 0x0FF`. -/
def flipPrefix (coef : List UInt8) (k : ℕ) : List UInt8 :=
  (coef.take k).map (· ^^^ 0xFF) ++ coef.drop k

/-! ## Writing a number: `dfp_*_to_ondisk` -/

/-- What `decSingleToPacked` and its wider kin return, as far as the converters
read it: a finite number with its sign, its packed coefficient (decimal digits
and a sign nibble) and its exponent, an infinity, or a NaN. -/
inductive DecValue
  | finite (neg : Bool) (coef : List UInt8) (exponent : ℤ)
  | inf (neg : Bool)
  | nan (signaling : Bool)
deriving DecidableEq, Repr

/-- The count of trailing zero digits in `shift_coefficient_to_ondisk`, after one
byte is moved: a nonzero byte restarts it at 0 or 1 as its low digit is nonzero
or zero, a zero byte adds two. -/
def tailStep (tailzero : ℤ) (b : UInt8) : ℤ :=
  if b ≠ 0 then (if b &&& 0x0F ≠ 0 then 0 else 1) else tailzero + 2

/-- The half-byte move: each new byte is the low digit of a byte and the high
digit of the next. -/
def moveHalves : List UInt8 → List UInt8
  | a :: b :: l => (((a &&& 0x0F) <<< 4) ||| ((b &&& 0xF0) >>> 4)) :: moveHalves (b :: l)
  | _ => []

/-- `shift_coefficient_to_ondisk`: move the coefficient up past its `i` leading
zero bytes, by whole bytes when the first nonzero digit is a high half and by
one more half byte otherwise, and zero the tail; with the count of trailing
zero digits among the bytes moved (less the sign nibble when whole bytes move).
An all-zero coefficient stays as it is, with the count 0.  The loops read each
byte before they overwrite it, so the moves are those of the original bytes. -/
def shiftCoefficientToOndisk (coef : List UInt8) : List UInt8 × ℤ :=
  let i := (coef.takeWhile (· == 0)).length
  match coef.drop i with
  | [] => (coef, 0)
  | c :: rest =>
    if c &&& 0xF0 ≠ 0 then
      ((c :: rest) ++ List.replicate i 0, (c :: rest).foldl tailStep 0 - 1)
    else
      (moveHalves (c :: rest) ++ List.replicate (i + 1) 0, (moveHalves (c :: rest)).foldl tailStep 0)

/-- `make_order_decimal32`.  A nonzero coefficient is moved up, the exponent
moved by `adj_exp` and biased with `^ 0x80`, and the trailing-zero count plus
one, at most 7, goes into the low half of the last byte.  A zero gets the last
byte 1 and keeps its exponent.  A negative number then has its exponent and
coefficient flipped. -/
def makeOrderDecimal32 (pdec32 : ServerDecimal32) : ServerDecimal32 :=
  let i := (pdec32.coef.takeWhile (· == 0)).length
  let pdec32 : ServerDecimal32 :=
    if i < decsinglePackedCoef then
      let adjExp : ℤ := 2 * decsinglePackedCoef -
        (2 * i + (if pdec32.coef.getD i 0 &&& 0xF0 ≠ 0 then 0 else 1)) - 1
      let shifted := shiftCoefficientToOndisk pdec32.coef
      { pdec32 with
        coef := shifted.1.modify (decsinglePackedCoef - 1)
          (· ||| UInt8.ofInt (min (shifted.2 + 1) 7))
        exp := (pdec32.exp + UInt8.ofInt adjExp) ^^^ 0x80 }
    else
      { pdec32 with
        coef := pdec32.coef.set (decsinglePackedCoef - 1) 1
        exp := pdec32.exp ^^^ 0x80 }
  if pdec32.sign = 0 then
    { pdec32 with exp := pdec32.exp ^^^ 0xFF, coef := pdec32.coef.map (· ^^^ 0xFF) }
  else pdec32

/-- `make_order_decimal64` and `make_order_decimal128`, which differ only in the
coefficient length and the cap on the trailing-zero count.  The whole last byte
holds the count plus one; the exponent is the `short` `exponent + adj_exp`
with its top bit flipped. -/
def makeOrderDecimal2B (packedCoef cap : ℕ) (pdec : ServerDecimal2B) (exponent : ℤ) :
    ServerDecimal2B :=
  let i := (pdec.coef.takeWhile (· == 0)).length
  let ordered : List UInt8 × UInt16 :=
    if i < packedCoef then
      let adjExp : ℤ := 2 * packedCoef -
        (2 * i + (if pdec.coef.getD i 0 &&& 0xF0 ≠ 0 then 0 else 1)) - 1
      let shifted := shiftCoefficientToOndisk pdec.coef
      (shifted.1.set (packedCoef - 1) (UInt8.ofInt (min (shifted.2 + 1) cap)),
        int2ToInt2b (Int16.ofInt (exponent + adjExp)))
    else
      -- a zero: the exponent is the quantum, kept as it is
      (pdec.coef.set (packedCoef - 1) 1, int2ToInt2b (Int16.ofInt exponent))
  if pdec.sign = 0 then
    { pdec with exp := ordered.2 ^^^ 0xFFFF, coef := ordered.1.map (· ^^^ 0xFF) }
  else { pdec with exp := ordered.2, coef := ordered.1 }

def makeOrderDecimal64 (pdec64 : ServerDecimal2B) (exponent : ℤ) : ServerDecimal2B :=
  makeOrderDecimal2B decdoublePackedCoef 16 pdec64 exponent

def makeOrderDecimal128 (pdec128 : ServerDecimal2B) (exponent : ℤ) : ServerDecimal2B :=
  makeOrderDecimal2B decquadPackedCoef 34 pdec128 exponent

/-- `dfp_single_to_ondisk` on a zeroed field whose header is `flag`.  An
infinity is `DEC_1B_SET_INFINITY`; a NaN is positive with the exponent
`0x7c ^ 0x80` (`0x7e ^ 0x80` when signaling) and a zero coefficient; a number
has the sign nibble of its packed coefficient cleared and is ordered. -/
def dfpSingleToOndisk (flag : UInt8) : DecValue → ServerDecimal32
  | .inf neg =>
    if neg then ⟨flag, 0, 0x07, [0, 0, 0, 1]⟩ else ⟨flag, 1, 0xF8, [0, 0, 0, 1]⟩
  | .nan signaling => ⟨flag, 1, if signaling then 0x7E ^^^ 0x80 else 0x7C ^^^ 0x80, [0, 0, 0, 0]⟩
  | .finite neg coef exponent =>
    makeOrderDecimal32 ⟨flag, if neg then 0 else 1, UInt8.ofInt exponent,
      coef.modify (decsinglePackedCoef - 1) (· &&& 0xF0)⟩

/-- `dfp_double_to_ondisk` and `dfp_quad_to_ondisk`: as `dfpSingleToOndisk`, with
`DEC_2B_SET_INFINITY` and the NaN exponents `0x7c00` and `0x7e00`. -/
def dfpToOndisk2B (packedCoef cap : ℕ) (flag : UInt8) : DecValue → ServerDecimal2B
  | .inf neg =>
    if neg then ⟨flag, 0, 0x07FF, List.replicate (packedCoef - 1) 0 ++ [1]⟩
    else ⟨flag, 1, 0xF800, List.replicate (packedCoef - 1) 0 ++ [1]⟩
  | .nan signaling => ⟨flag, 1, if signaling then 0x7E00 else 0x7C00, List.replicate packedCoef 0⟩
  | .finite neg coef exponent =>
    makeOrderDecimal2B packedCoef cap ⟨flag, if neg then 0 else 1, 0,
      coef.modify (packedCoef - 1) (· &&& 0xF0)⟩ exponent

def dfpDoubleToOndisk (flag : UInt8) (d : DecValue) : ServerDecimal2B :=
  dfpToOndisk2B decdoublePackedCoef 16 flag d

def dfpQuadToOndisk (flag : UInt8) (d : DecValue) : ServerDecimal2B :=
  dfpToOndisk2B decquadPackedCoef 34 flag d

/-- The three widths of a decimal field, which the calls tell apart by `len`. -/
inductive DecimalWidth
  | single
  | double
  | quad
deriving DecidableEq, Repr

/-- The bytes of the packed coefficient of each width. -/
def DecimalWidth.packedCoef : DecimalWidth → ℕ
  | .single => decsinglePackedCoef
  | .double => decdoublePackedCoef
  | .quad => decquadPackedCoef

/-- The field each width's converter writes. -/
def dfpToOndisk (flag : UInt8) : DecimalWidth → DecValue → ServerDecimal
  | .single, d => .d32 (dfpSingleToOndisk flag d)
  | .double, d => .d64 (dfpDoubleToOndisk flag d)
  | .quad, d => .d128 (dfpQuadToOndisk flag d)

/-! ## Taking the quantum out and putting it back -/

/-- `_scrub_zero_decimal32` on a zero: the quantum is one less than minus the
unbiased exponent, a negative zero is made positive (when the caller asks for
the sign) and the exponent is cleared, or set to `0xFF` for a negative zero
when it does not. -/
def scrubZeroDecimal32 (pdec32 : ServerDecimal32) (sign : Option ℤ) :
    ℤ × Option ℤ × ServerDecimal32 :=
  if pdec32.sign = 0 then
    -- the exponent of a negative zero is flipped first
    let exp := (pdec32.exp ^^^ 0x80 ^^^ 0xFF).toInt8
    match sign with
    | some _ =>
      (-exp.toInt + 1, some 0,
        { pdec32 with sign := 1, coef := pdec32.coef.map (· ^^^ 0xFF), exp := 0 })
    | none => (-exp.toInt + 1, none, { pdec32 with exp := 0xFF })
  else
    let exp := (pdec32.exp ^^^ 0x80).toInt8
    (-exp.toInt + 1, sign.map fun _ => 1, { pdec32 with exp := 0 })

/-- `_scrub_zero_decimal64` and `_scrub_zero_decimal128`. -/
def scrubZeroDecimal2B (pdec : ServerDecimal2B) (sign : Option ℤ) :
    ℤ × Option ℤ × ServerDecimal2B :=
  if pdec.sign = 0 then
    let exp := int2bToInt2 (pdec.exp ^^^ 0xFFFF)
    match sign with
    | some _ =>
      (-exp.toInt + 1, some 0,
        { pdec with sign := 1, coef := pdec.coef.map (· ^^^ 0xFF), exp := 0 })
    | none => (-exp.toInt + 1, none, { pdec with exp := 0xFFFF })
  else
    let exp := int2bToInt2 pdec.exp
    (-exp.toInt + 1, sign.map fun _ => 1, { pdec with exp := 0 })

/-- The `server_decimal32_t` case of `decimal_quantum_get`: nothing for an
infinity; for a nonzero number the low half of the last byte (flipped back for
a negative one), which becomes the mark 1 (`0x0E` flipped); for a zero the
scrub.  The `char` result is widened to the `short` returned. -/
def quantumGet32 (pdec32 : ServerDecimal32) (sign : Option ℤ) :
    Int16 × Option ℤ × ServerDecimal32 :=
  if dec1bIsInfinity pdec32 then (1, sign, pdec32)
  else
    let last := pdec32.coef.getD (decsinglePackedCoef - 1) 0
    let isZero :=
      if pdec32.sign ≠ 0 then
        prefixAll pdec32.coef (decsinglePackedCoef - 1) 0 && last &&& 0xF0 == 0
      else prefixAll pdec32.coef (decsinglePackedCoef - 1) 0xFF && last &&& 0xF0 == 0xF0
    if isZero then
      let scrubbed := scrubZeroDecimal32 pdec32 sign
      ((UInt8.ofInt scrubbed.1).toInt8.toInt16, scrubbed.2)
    else
      let ret : UInt8 := if pdec32.sign = 0 then (last &&& 0x0F) ^^^ 0x0F else last &&& 0x0F
      (ret.toInt8.toInt16, sign.map fun _ => if pdec32.sign ≠ 0 then 1 else 0,
        { pdec32 with
          coef := pdec32.coef.set (decsinglePackedCoef - 1)
            ((last &&& 0xF0) ||| if pdec32.sign ≠ 0 then 0x01 else 0x0E) })

/-- The `server_decimal64_t` and `server_decimal128_t` cases of
`decimal_quantum_get`: the whole last byte is the quantum (flipped back for a
negative number, as a `short`), and becomes the mark 1 (`0xFE`). -/
def quantumGet2B (packedCoef : ℕ) (pdec : ServerDecimal2B) (sign : Option ℤ) :
    Int16 × Option ℤ × ServerDecimal2B :=
  if dec2bIsInfinity pdec then (1, sign, pdec)
  else if prefixAll pdec.coef (packedCoef - 1) (if pdec.sign ≠ 0 then 0 else 0xFF) then
    let scrubbed := scrubZeroDecimal2B pdec sign
    (Int16.ofInt scrubbed.1, scrubbed.2)
  else
    let last := pdec.coef.getD (packedCoef - 1) 0
    ((if pdec.sign = 0 then last.toUInt16 ^^^ 0xFFFF else last.toUInt16).toInt16,
      sign.map fun _ => if pdec.sign ≠ 0 then 1 else 0,
      { pdec with coef := pdec.coef.set (packedCoef - 1) (if pdec.sign ≠ 0 then 1 else 0xFE) })

/-- `decimal_quantum_get(pdec, len, sign)`: the quantum, the sign written
through `sign` when it is not null, and the field with its quantum out. -/
def decimalQuantumGet (v : ServerDecimal) (sign : Option ℤ) : Int16 × Option ℤ × ServerDecimal :=
  match v with
  | .d32 p =>
    let r := quantumGet32 p sign
    (r.1, r.2.1, .d32 r.2.2)
  | .d64 p =>
    let r := quantumGet2B decdoublePackedCoef p sign
    (r.1, r.2.1, .d64 r.2.2)
  | .d128 p =>
    let r := quantumGet2B decquadPackedCoef p sign
    (r.1, r.2.1, .d128 r.2.2)

/-- The `server_decimal32_t` case of `decimal_quantum_set`.  The mark decides:
a field of the new format is never given the quantum 0 (no `pquantum`), one of
the old format never a quantum.  An infinity is left alone.  A zero takes its
quantum into the exponent and the sign the caller kept; a nonzero number takes
it into the low half of the last byte.  The quantum is a `char` here, flipped
(when nonzero) for a negative number. -/
def quantumSet32 (pdec32 : ServerDecimal32) (pquantum : Option Int16) (sign : Option ℤ) :
    ServerDecimal32 :=
  let last := pdec32.coef.getD (decsinglePackedCoef - 1) 0
  let squantum := (pquantum.getD 0).toInt8.toUInt8
  let mark : UInt8 := if pdec32.sign = 0 then (last &&& 0x0F) ^^^ 0x0F else last &&& 0x0F
  let quantum : UInt8 := if pdec32.sign = 0 ∧ squantum ≠ 0 then squantum ^^^ 0x0F else squantum
  if pquantum.isNone ∧ mark ≠ 0 then pdec32
  else if pquantum.isSome ∧ mark = 0 then pdec32
  else if dec1bIsInfinity pdec32 then pdec32
  else
    let coef := pdec32.coef.set (decsinglePackedCoef - 1) (last &&& 0xF0)
    if prefixAll coef (decsinglePackedCoef - 1) 0 ∧ last &&& 0xF0 = 0 then
      -- `exp = -(quantum - 1)`, biased
      let exp := (1 - quantum) ^^^ 0x80
      match sign with
      | some s =>
        if s = 0 then
          { pdec32 with
            exp := exp ^^^ 0xFF, sign := 0
            coef := (flipPrefix coef (decsinglePackedCoef - 1)).set (decsinglePackedCoef - 1) 0xFE }
        else { pdec32 with exp := exp, sign := 1, coef := coef.set (decsinglePackedCoef - 1) 1 }
      | none =>
        { pdec32 with exp := exp, coef := coef.set (decsinglePackedCoef - 1) ((last &&& 0xF0) ||| 1) }
    else { pdec32 with coef := coef.set (decsinglePackedCoef - 1) ((last &&& 0xF0) ||| quantum) }

/-- The `server_decimal64_t` and `server_decimal128_t` cases of
`decimal_quantum_set`: as `quantumSet32`, with the whole last byte as the mark
and a `short` quantum, always flipped for a negative number.  Without `sign`
the exponent is stored without `htons`. -/
def quantumSet2B (packedCoef : ℕ) (pdec : ServerDecimal2B) (pquantum : Option Int16)
    (sign : Option ℤ) : ServerDecimal2B :=
  let last := pdec.coef.getD (packedCoef - 1) 0
  let squantum := pquantum.getD 0
  let mark : UInt8 := if pdec.sign = 0 then last ^^^ 0xFF else last
  let quantum : Int16 := if pdec.sign = 0 then (squantum.toUInt16 ^^^ 0xFFFF).toInt16 else squantum
  if pquantum.isNone ∧ mark ≠ 0 then pdec
  else if pquantum.isSome ∧ mark = 0 then pdec
  else if dec2bIsInfinity pdec then pdec
  else if prefixAll pdec.coef (packedCoef - 1) 0 then
    let exp : Int16 := -(quantum - 1)
    match sign with
    | some s =>
      if s = 0 then
        { pdec with
          exp := (int2bToInt2 exp.toUInt16).toUInt16 ^^^ 0xFFFF, sign := 0
          coef := (flipPrefix pdec.coef (packedCoef - 1)).set (packedCoef - 1) 0xFE }
      else
        { pdec with
          exp := (int2bToInt2 exp.toUInt16).toUInt16, sign := 1
          coef := pdec.coef.set (packedCoef - 1) 1 }
    | none =>
      { pdec with
        exp := bswap16 (int2bToInt2 exp.toUInt16).toUInt16
        coef := pdec.coef.set (packedCoef - 1) 1 }
  else { pdec with coef := pdec.coef.set (packedCoef - 1) quantum.toUInt16.toUInt8 }

/-- `decimal_quantum_set(pdec, len, pquantum, sign)`. -/
def decimalQuantumSet (v : ServerDecimal) (pquantum : Option Int16) (sign : Option ℤ) :
    ServerDecimal :=
  match v with
  | .d32 p => .d32 (quantumSet32 p pquantum sign)
  | .d64 p => .d64 (quantumSet2B decdoublePackedCoef p pquantum sign)
  | .d128 p => .d128 (quantumSet2B decquadPackedCoef p pquantum sign)

/-- A field through a key and back: `extract_decimal_quantum` calls
`decimal_quantum_get` with `&sign` (which holds `s₀` before the call), and the
decoding calls `decimal_quantum_set` with the quantum and the sign it kept. -/
def quantumRoundTrip (v : ServerDecimal) (s₀ : ℤ) : ServerDecimal :=
  let r := decimalQuantumGet v (some s₀)
  decimalQuantumSet r.2.2 (some r.1) r.2.1

/-! ## Byte facts -/

section Bytes

/-- A `char` widened to the `short` returned and cut back to a `char`. -/
theorem toInt16_toInt8 (r : UInt8) : r.toInt8.toInt16.toInt8.toUInt8 = r := by simp

/-- The `char` result `-exp + 1` as a byte. -/
theorem ofInt_neg_add_one : ∀ x : UInt8, UInt8.ofInt (-x.toInt8.toInt + 1) = 1 - x := by
  decide +kernel

theorem and_or_distrib_byte (a b c : UInt8) : (a ||| b) &&& c = (a &&& c) ||| (b &&& c) :=
  UInt8.toBitVec_inj.1 BitVec.and_or_distrib_right

theorem or_mark_and_0F (l : UInt8) : ((l &&& 0xF0) ||| 0x01) &&& 0x0F = 0x01 := by
  rw [and_or_distrib_byte, UInt8.and_assoc, show (0xF0 &&& 0x0F : UInt8) = 0 by decide,
    show (0x01 &&& 0x0F : UInt8) = 0x01 by decide, UInt8.and_zero, UInt8.zero_or]

theorem or_negMark_and_0F (l : UInt8) : ((l &&& 0xF0) ||| 0x0E) &&& 0x0F = 0x0E := by
  rw [and_or_distrib_byte, UInt8.and_assoc, show (0xF0 &&& 0x0F : UInt8) = 0 by decide,
    show (0x0E &&& 0x0F : UInt8) = 0x0E by decide, UInt8.and_zero, UInt8.zero_or]

theorem or_mark_and_F0 (l : UInt8) : ((l &&& 0xF0) ||| 0x01) &&& 0xF0 = l &&& 0xF0 := by
  rw [and_or_distrib_byte, UInt8.and_assoc, UInt8.and_self,
    show (0x01 &&& 0xF0 : UInt8) = 0 by decide, UInt8.or_zero]

theorem or_negMark_and_F0 (l : UInt8) : ((l &&& 0xF0) ||| 0x0E) &&& 0xF0 = l &&& 0xF0 := by
  rw [and_or_distrib_byte, UInt8.and_assoc, UInt8.and_self,
    show (0x0E &&& 0xF0 : UInt8) = 0 by decide, UInt8.or_zero]

theorem and_F0_or_and_0F (l : UInt8) : (l &&& 0xF0) ||| (l &&& 0x0F) = l := by
  rw [← UInt8.toBitVec_inj]
  simp only [UInt8.toBitVec_or, UInt8.toBitVec_and, ← BitVec.and_or_distrib_left]
  exact BitVec.and_allOnes

theorem and_F0_shiftRight : ∀ z : UInt8, (z &&& 0xF0) >>> 4 = z >>> 4 := by decide +kernel

theorem and_F0_and_0F (z : UInt8) : (z &&& 0xF0) &&& 0x0F = 0 := by
  rw [UInt8.and_assoc, show (0xF0 &&& 0x0F : UInt8) = 0 by decide, UInt8.and_zero]

theorem ne_FF_of_shiftRight_le {c : UInt8} (h : c >>> 4 ≤ 9) : c ≠ 0xFF := by
  rintro rfl
  exact absurd h (by decide)

/-- A nonzero byte whose high digit is 0 has a nonzero low digit. -/
theorem and_0F_ne_zero {c : UInt8} (h0 : c ≠ 0) (hhi : c &&& 0xF0 = 0) : c &&& 0x0F ≠ 0 := by
  intro hlo
  have := and_F0_or_and_0F c
  rw [hhi, hlo] at this
  exact h0 (by simpa using this.symm)

theorem xor_FF_ne_zero {c : UInt8} (hF : c ≠ 0xFF) : c ^^^ 0xFF ≠ 0 := by
  simpa using hF

theorem xor_FF_ne_FF {c : UInt8} (h0 : c ≠ 0) : c ^^^ 0xFF ≠ 0xFF := by
  intro e
  exact h0 (by simpa using congrArg (· ^^^ (0xFF : UInt8)) e)

/-- A byte with a nonzero mark OR'ed in keeps a nonzero low digit, which the
flip of a negative number does not make `0x0F`. -/
theorem flip_or_mark_and_0F (c t : UInt8) (ht : t &&& 0x0F ≠ 0) :
    ((c ||| t) ^^^ 0xFF) &&& 0x0F ≠ 0x0F := by
  have hflip : ∀ x : UInt8, (x ^^^ 0xFF) &&& 0x0F = 0x0F → x &&& 0x0F = 0 := by decide +kernel
  intro h
  have := hflip _ h
  rw [and_or_distrib_byte, UInt8.or_eq_zero_iff] at this
  exact ht this.2

/-- The mark `min (tailzero + 1, 7)` is nonzero in the low digit. -/
theorem ofInt_mark_and_0F {k : ℤ} (h1 : 1 ≤ k) (h7 : k ≤ 7) : UInt8.ofInt k &&& 0x0F ≠ 0 := by
  interval_cases k <;> decide

/-- The low byte of the `short` flip `^ 0xFFFF`, as `simp` leaves it. -/
theorem flip16_toUInt8 : (Int16.toUInt16 65535).toUInt8 = 0xFF := by decide

/-- The high digit of a byte moved by halves is the low digit of the first byte. -/
theorem halves_shiftRight (c d : UInt8) :
    (((c &&& 0x0F) <<< 4) ||| ((d &&& 0xF0) >>> 4)) >>> 4 = c &&& 0x0F := by
  have h₁ : ∀ c : UInt8, ((c &&& 0x0F) <<< 4) >>> 4 = c &&& 0x0F := by decide +kernel
  have h₂ : ∀ d : UInt8, ((d &&& 0xF0) >>> 4) >>> 4 = 0 := by decide +kernel
  rw [UInt8.shiftRight_or, h₁, h₂, UInt8.or_zero]

end Bytes

/-! ## Set undoes get: `server_decimal32_t` -/

section Width32

/-- Get leaves an infinity alone. -/
theorem quantumGet32_of_inf {p : ServerDecimal32} (h : dec1bIsInfinity p) (sign : Option ℤ) :
    quantumGet32 p sign = (1, sign, p) := by
  simp [quantumGet32, h]

/-- Set leaves an infinity alone. -/
theorem quantumSet32_of_inf {p : ServerDecimal32} (h : dec1bIsInfinity p) (pquantum : Option Int16)
    (sign : Option ℤ) : quantumSet32 p pquantum sign = p := by
  unfold quantumSet32
  split_ifs <;> simp_all

/-- The fields `dfp_single_to_ondisk` writes for a number: a zero of either
sign, with the mark 1, or a nonzero number whose leading byte is neither 0 nor
`0xFF`, negative ones with a nonzero mark (read through the flip).  The
exponent is free. -/
inductive Ordered32 : ServerDecimal32 → Prop
  | zero (flag exp : UInt8) : Ordered32 ⟨flag, 1, exp, [0, 0, 0, 1]⟩
  | negZero (flag exp : UInt8) : Ordered32 ⟨flag, 0, exp, [0xFF, 0xFF, 0xFF, 0xFE]⟩
  | pos (flag exp c₀ c₁ c₂ l : UInt8) (h₀ : c₀ ≠ 0) : Ordered32 ⟨flag, 1, exp, [c₀, c₁, c₂, l]⟩
  | neg (flag exp c₀ c₁ c₂ l : UInt8) (h₀ : c₀ ≠ 0) (h₀' : c₀ ≠ 0xFF)
      (hl : l &&& 0x0F ≠ 0x0F) : Ordered32 ⟨flag, 0, exp, [c₀, c₁, c₂, l]⟩

/-- Whether a field is an infinity does not depend on its coefficient. -/
theorem dec1bIsInfinity_coef (flag sign exp : UInt8) (c c' : List UInt8) :
    dec1bIsInfinity ⟨flag, sign, exp, c⟩ = dec1bIsInfinity ⟨flag, sign, exp, c'⟩ := rfl

variable {flag exp c₀ c₁ c₂ l : UInt8} (s₀ : ℤ)

/-- Get on a zero: the quantum is `1 - e` for the unbiased exponent `e`. -/
theorem quantumGet32_zero (hinf : ¬ dec1bIsInfinity ⟨flag, 1, exp, [0, 0, 0, 1]⟩) :
    quantumGet32 ⟨flag, 1, exp, [0, 0, 0, 1]⟩ (some s₀) =
      ((1 - (exp ^^^ 0x80)).toInt8.toInt16, some 1, ⟨flag, 1, 0, [0, 0, 0, 1]⟩) := by
  rw [quantumGet32, if_neg hinf, ← ofInt_neg_add_one]
  simp +decide [decsinglePackedCoef, prefixAll, scrubZeroDecimal32]

/-- Get on a negative zero: as on a zero, after the flip, and the zero is made
positive. -/
theorem quantumGet32_negZero (hinf : ¬ dec1bIsInfinity ⟨flag, 0, exp, [0xFF, 0xFF, 0xFF, 0xFE]⟩) :
    quantumGet32 ⟨flag, 0, exp, [0xFF, 0xFF, 0xFF, 0xFE]⟩ (some s₀) =
      ((1 - (exp ^^^ 0x80 ^^^ 0xFF)).toInt8.toInt16, some 0, ⟨flag, 1, 0, [0, 0, 0, 1]⟩) := by
  rw [quantumGet32, if_neg hinf, ← ofInt_neg_add_one]
  simp +decide [decsinglePackedCoef, prefixAll, scrubZeroDecimal32]

theorem quantumGet32_pos (h₀ : c₀ ≠ 0) (hinf : ¬ dec1bIsInfinity ⟨flag, 1, exp, [c₀, c₁, c₂, l]⟩) :
    quantumGet32 ⟨flag, 1, exp, [c₀, c₁, c₂, l]⟩ (some s₀) =
      ((l &&& 0x0F).toInt8.toInt16, some 1, ⟨flag, 1, exp, [c₀, c₁, c₂, (l &&& 0xF0) ||| 0x01]⟩) := by
  rw [quantumGet32, if_neg hinf]
  simp +decide [decsinglePackedCoef, prefixAll, h₀]

theorem quantumGet32_neg (h₀' : c₀ ≠ 0xFF) (hinf : ¬ dec1bIsInfinity ⟨flag, 0, exp, [c₀, c₁, c₂, l]⟩) :
    quantumGet32 ⟨flag, 0, exp, [c₀, c₁, c₂, l]⟩ (some s₀) =
      (((l &&& 0x0F) ^^^ 0x0F).toInt8.toInt16, some 0,
        ⟨flag, 0, exp, [c₀, c₁, c₂, (l &&& 0xF0) ||| 0x0E]⟩) := by
  rw [quantumGet32, if_neg hinf]
  simp +decide [decsinglePackedCoef, prefixAll, h₀']

variable (q : Int16)

/-- Set on the zero that get leaves: the exponent is `1 - q`, biased, and the
sign kept decides whether the zero is flipped back to a negative one. -/
theorem quantumSet32_zero (flag : UInt8) (s : ℤ) :
    quantumSet32 ⟨flag, 1, 0, [0, 0, 0, 1]⟩ (some q) (some s) =
      if s = 0 then ⟨flag, 0, (1 - q.toInt8.toUInt8) ^^^ 0x80 ^^^ 0xFF, [0xFF, 0xFF, 0xFF, 0xFE]⟩
      else ⟨flag, 1, (1 - q.toInt8.toUInt8) ^^^ 0x80, [0, 0, 0, 1]⟩ := by
  unfold quantumSet32
  simp +decide [decsinglePackedCoef, prefixAll, dec1bIsInfinity, flipPrefix]

theorem quantumSet32_pos (h₀ : c₀ ≠ 0) (sign : Option ℤ)
    (hinf : ¬ dec1bIsInfinity ⟨flag, 1, exp, [c₀, c₁, c₂, (l &&& 0xF0) ||| 0x01]⟩) :
    quantumSet32 ⟨flag, 1, exp, [c₀, c₁, c₂, (l &&& 0xF0) ||| 0x01]⟩ (some q) sign =
      ⟨flag, 1, exp, [c₀, c₁, c₂, (l &&& 0xF0) ||| q.toInt8.toUInt8]⟩ := by
  unfold quantumSet32
  simp +decide [decsinglePackedCoef, prefixAll, hinf, h₀, or_mark_and_0F, or_mark_and_F0]

/-- Set on a negative number: a nonzero quantum is flipped back. -/
theorem quantumSet32_neg (h₀ : c₀ ≠ 0) (sign : Option ℤ)
    (hinf : ¬ dec1bIsInfinity ⟨flag, 0, exp, [c₀, c₁, c₂, (l &&& 0xF0) ||| 0x0E]⟩) :
    quantumSet32 ⟨flag, 0, exp, [c₀, c₁, c₂, (l &&& 0xF0) ||| 0x0E]⟩ (some q) sign =
      ⟨flag, 0, exp, [c₀, c₁, c₂, (l &&& 0xF0) |||
        if q.toInt8.toUInt8 ≠ 0 then q.toInt8.toUInt8 ^^^ 0x0F else q.toInt8.toUInt8]⟩ := by
  unfold quantumSet32
  simp +decide [decsinglePackedCoef, prefixAll, hinf, h₀, or_negMark_and_0F, or_negMark_and_F0]

/-- Set, given what get returned, restores every ordered field and every
infinity. -/
theorem quantumSet32_quantumGet32 {p : ServerDecimal32} (hp : Ordered32 p ∨ dec1bIsInfinity p) :
    quantumSet32 (quantumGet32 p (some s₀)).2.2 (some (quantumGet32 p (some s₀)).1)
      (quantumGet32 p (some s₀)).2.1 = p := by
  by_cases hinf : dec1bIsInfinity p
  · rw [quantumGet32_of_inf hinf]
    exact quantumSet32_of_inf hinf _ _
  cases hp.resolve_right hinf with
  | zero flag exp =>
    -- get clears the exponent; set rebuilds it from the quantum
    rw [quantumGet32_zero s₀ hinf, quantumSet32_zero, if_neg one_ne_zero, toInt16_toInt8,
      sub_sub_cancel, UInt8.xor_assoc, UInt8.xor_self, UInt8.xor_zero]
  | negZero flag exp =>
    -- get makes the zero positive; set flips it back with the sign it kept
    have hflips : (0x80 : UInt8) ^^^ (0xFF ^^^ (0x80 ^^^ 0xFF)) = 0 := by decide
    rw [quantumGet32_negZero s₀ hinf, quantumSet32_zero, if_pos rfl, toInt16_toInt8,
      sub_sub_cancel, UInt8.xor_assoc, UInt8.xor_assoc, UInt8.xor_assoc, hflips, UInt8.xor_zero]
  | pos flag exp c₀ c₁ c₂ l h₀ =>
    rw [quantumGet32_pos s₀ h₀ hinf,
      quantumSet32_pos _ h₀ _ (by rwa [dec1bIsInfinity_coef] at hinf), toInt16_toInt8,
      and_F0_or_and_0F]
  | neg flag exp c₀ c₁ c₂ l h₀ h₀' hl =>
    -- the mark is nonzero, so set flips the quantum back
    have hq : (l &&& 0x0F) ^^^ 0x0F ≠ 0 := fun h =>
      hl (by simpa using congrArg (· ^^^ (0x0F : UInt8)) h)
    rw [quantumGet32_neg s₀ h₀' hinf,
      quantumSet32_neg _ h₀ _ (by rwa [dec1bIsInfinity_coef] at hinf), toInt16_toInt8, if_pos hq,
      UInt8.xor_assoc, UInt8.xor_self, UInt8.xor_zero, and_F0_or_and_0F]

end Width32

/-! ## Set undoes get: `server_decimal64_t` and `server_decimal128_t` -/

section Width2B

theorem prefixAll_cons (c : UInt8) (l : List UInt8) (m : ℕ) (b : UInt8) :
    prefixAll (c :: l) (m + 1) b = (c == b && prefixAll l m b) := by
  simp [prefixAll]

theorem prefixAll_replicate (k : ℕ) (b : UInt8) (l : List UInt8) :
    prefixAll (List.replicate k b ++ l) k b = true := by
  simp [prefixAll]

theorem int2bToInt2_toUInt16 (x : UInt16) : (int2bToInt2 x).toUInt16 = x ^^^ 0x8000 := by
  simp +decide [int2bToInt2]

theorem dec2bIsInfinity_coef (flag sign : UInt8) (exp : UInt16) (c c' : List UInt8) :
    dec2bIsInfinity ⟨flag, sign, exp, c⟩ = dec2bIsInfinity ⟨flag, sign, exp, c'⟩ := rfl

/-- Get leaves an infinity alone. -/
theorem quantumGet2B_of_inf {p : ServerDecimal2B} (h : dec2bIsInfinity p) (n : ℕ)
    (sign : Option ℤ) : quantumGet2B n p sign = (1, sign, p) := by
  simp [quantumGet2B, h]

/-- Set leaves an infinity alone. -/
theorem quantumSet2B_of_inf {p : ServerDecimal2B} (h : dec2bIsInfinity p) (n : ℕ)
    (pquantum : Option Int16) (sign : Option ℤ) : quantumSet2B n p pquantum sign = p := by
  unfold quantumSet2B
  split_ifs <;> simp_all

/-- The fields `dfp_double_to_ondisk` and `dfp_quad_to_ondisk` write for a number,
with `n` coefficient bytes: a zero of either sign, with the mark 1, or a nonzero
number whose leading byte is neither 0 nor `0xFF`. -/
inductive Ordered2B (n : ℕ) : ServerDecimal2B → Prop
  | zero (flag : UInt8) (exp : UInt16) :
      Ordered2B n ⟨flag, 1, exp, List.replicate (n - 1) 0 ++ [1]⟩
  | negZero (flag : UInt8) (exp : UInt16) :
      Ordered2B n ⟨flag, 0, exp, List.replicate (n - 1) 0xFF ++ [0xFE]⟩
  | pos (flag : UInt8) (exp : UInt16) (c₀ : UInt8) (rest : List UInt8) (h₀ : c₀ ≠ 0)
      (hlen : rest.length + 1 = n) : Ordered2B n ⟨flag, 1, exp, c₀ :: rest⟩
  | neg (flag : UInt8) (exp : UInt16) (c₀ : UInt8) (rest : List UInt8) (h₀ : c₀ ≠ 0)
      (h₀' : c₀ ≠ 0xFF) (hlen : rest.length + 1 = n) : Ordered2B n ⟨flag, 0, exp, c₀ :: rest⟩

/-! The shapes are stated for `m + 2` coefficient bytes, so that the zero test
of the first `m + 1` bytes always reads the leading one. -/

variable (m : ℕ) {flag c₀ : UInt8} {exp : UInt16} {rest : List UInt8} (s₀ : ℤ)

theorem quantumGet2B_zero (hinf : ¬ dec2bIsInfinity ⟨flag, 1, exp, List.replicate (m + 1) 0 ++ [1]⟩) :
    quantumGet2B (m + 2) ⟨flag, 1, exp, List.replicate (m + 1) 0 ++ [1]⟩ (some s₀) =
      (-int2bToInt2 exp + 1, some 1, ⟨flag, 1, 0, List.replicate (m + 1) 0 ++ [1]⟩) := by
  rw [quantumGet2B, if_neg hinf, if_pos (by simpa using prefixAll_replicate (m + 1) 0 [1])]
  simp [scrubZeroDecimal2B]

theorem quantumGet2B_negZero
    (hinf : ¬ dec2bIsInfinity ⟨flag, 0, exp, List.replicate (m + 1) 0xFF ++ [0xFE]⟩) :
    quantumGet2B (m + 2) ⟨flag, 0, exp, List.replicate (m + 1) 0xFF ++ [0xFE]⟩ (some s₀) =
      (-int2bToInt2 (exp ^^^ 0xFFFF) + 1, some 0,
        ⟨flag, 1, 0, List.replicate (m + 1) 0 ++ [1]⟩) := by
  rw [quantumGet2B, if_neg hinf, if_pos (by simpa using prefixAll_replicate (m + 1) 0xFF [0xFE])]
  simp +decide [scrubZeroDecimal2B]

theorem quantumGet2B_pos (h₀ : c₀ ≠ 0) (hinf : ¬ dec2bIsInfinity ⟨flag, 1, exp, c₀ :: rest⟩) :
    quantumGet2B (m + 2) ⟨flag, 1, exp, c₀ :: rest⟩ (some s₀) =
      ((rest.getD m 0).toUInt16.toInt16, some 1, ⟨flag, 1, exp, c₀ :: rest.set m 1⟩) := by
  rw [quantumGet2B, if_neg hinf, if_neg (by simp [prefixAll_cons, h₀])]
  simp

theorem quantumGet2B_neg (h₀' : c₀ ≠ 0xFF) (hinf : ¬ dec2bIsInfinity ⟨flag, 0, exp, c₀ :: rest⟩) :
    quantumGet2B (m + 2) ⟨flag, 0, exp, c₀ :: rest⟩ (some s₀) =
      (((rest.getD m 0).toUInt16 ^^^ 0xFFFF).toInt16, some 0,
        ⟨flag, 0, exp, c₀ :: rest.set m 0xFE⟩) := by
  rw [quantumGet2B, if_neg hinf, if_neg (by simp [prefixAll_cons, h₀'])]
  simp

variable (q : Int16)

/-- Set on the zero that get leaves: the exponent is `1 - q`, with its top bit
flipped. -/
theorem quantumSet2B_zero (flag : UInt8) (s : ℤ) :
    quantumSet2B (m + 2) ⟨flag, 1, 0, List.replicate (m + 1) 0 ++ [1]⟩ (some q) (some s) =
      if s = 0 then
        ⟨flag, 0, (-(q - 1)).toUInt16 ^^^ 0x8000 ^^^ 0xFFFF, List.replicate (m + 1) 0xFF ++ [0xFE]⟩
      else ⟨flag, 1, (-(q - 1)).toUInt16 ^^^ 0x8000, List.replicate (m + 1) 0 ++ [1]⟩ := by
  unfold quantumSet2B
  simp +decide [dec2bIsInfinity, prefixAll_replicate, int2bToInt2_toUInt16, flipPrefix]

theorem quantumSet2B_pos (h₀ : c₀ ≠ 0) (hm : m < rest.length) (sign : Option ℤ)
    (hinf : ¬ dec2bIsInfinity ⟨flag, 1, exp, c₀ :: rest.set m 1⟩) :
    quantumSet2B (m + 2) ⟨flag, 1, exp, c₀ :: rest.set m 1⟩ (some q) sign =
      ⟨flag, 1, exp, c₀ :: rest.set m q.toUInt16.toUInt8⟩ := by
  unfold quantumSet2B
  simp +decide [hinf, prefixAll_cons, h₀, hm]

/-- Set on a negative number flips the quantum back. -/
theorem quantumSet2B_neg (h₀ : c₀ ≠ 0) (hm : m < rest.length) (sign : Option ℤ)
    (hinf : ¬ dec2bIsInfinity ⟨flag, 0, exp, c₀ :: rest.set m 0xFE⟩) :
    quantumSet2B (m + 2) ⟨flag, 0, exp, c₀ :: rest.set m 0xFE⟩ (some q) sign =
      ⟨flag, 0, exp, c₀ :: rest.set m (q.toUInt16.toUInt8 ^^^ 0xFF)⟩ := by
  unfold quantumSet2B
  simp +decide [hinf, prefixAll_cons, h₀, hm, flip16_toUInt8]

/-- Set, given what get returned, restores every ordered field and every
infinity. -/
theorem quantumSet2B_quantumGet2B {p : ServerDecimal2B} (hp : Ordered2B (m + 2) p ∨ dec2bIsInfinity p) :
    quantumSet2B (m + 2) (quantumGet2B (m + 2) p (some s₀)).2.2
      (some (quantumGet2B (m + 2) p (some s₀)).1) (quantumGet2B (m + 2) p (some s₀)).2.1 = p := by
  by_cases hinf : dec2bIsInfinity p
  · rw [quantumGet2B_of_inf hinf]
    exact quantumSet2B_of_inf hinf _ _ _
  cases hp.resolve_right hinf with
  | zero flag exp =>
    rw [show m + 2 - 1 = m + 1 from rfl] at hinf ⊢
    rw [quantumGet2B_zero m s₀ hinf, quantumSet2B_zero, if_neg one_ne_zero]
    simp [int2bToInt2_toUInt16]
  | negZero flag exp =>
    rw [show m + 2 - 1 = m + 1 from rfl] at hinf ⊢
    rw [quantumGet2B_negZero m s₀ hinf, quantumSet2B_zero, if_pos rfl]
    simp [int2bToInt2_toUInt16]
  | pos flag exp c₀ rest h₀ hlen =>
    have hm : m < rest.length := by omega
    rw [quantumGet2B_pos m s₀ h₀ hinf,
      quantumSet2B_pos m _ h₀ hm _ (by rwa [dec2bIsInfinity_coef] at hinf)]
    simp [List.getElem?_eq_getElem hm]
  | neg flag exp c₀ rest h₀ h₀' hlen =>
    have hm : m < rest.length := by omega
    rw [quantumGet2B_neg m s₀ h₀' hinf,
      quantumSet2B_neg m _ h₀ hm _ (by rwa [dec2bIsInfinity_coef] at hinf)]
    simp [List.getElem?_eq_getElem hm, flip16_toUInt8]

end Width2B

/-! ## What the converters write -/

section Shift

/-- A coefficient whose every half byte is a decimal digit, with the last low
half (where the sign was) cleared. -/
structure Digits (l : List UInt8) : Prop where
  digits : ∀ b ∈ l, b >>> 4 ≤ 9 ∧ b &&& 0x0F ≤ 9
  last : ∀ z ∈ l.getLast?, z &&& 0x0F = 0

theorem foldl_tailStep_nonneg : ∀ (l : List UInt8) {a : ℤ}, 0 ≤ a → 0 ≤ l.foldl tailStep a
  | [], _, ha => ha
  | b :: l, a, ha => foldl_tailStep_nonneg l (by unfold tailStep; split_ifs <;> omega)

/-- After a last byte whose low digit is zero the count is at least 1. -/
theorem foldl_tailStep_pos (l : List UInt8) {z : UInt8} (hz : z &&& 0x0F = 0) :
    1 ≤ (l ++ [z]).foldl tailStep 0 := by
  have h := foldl_tailStep_nonneg l (le_refl (0 : ℤ))
  rw [List.foldl_append, List.foldl_cons, List.foldl_nil, tailStep, if_neg (not_not.2 hz)]
  split_ifs <;> omega

theorem length_moveHalves : ∀ l : List UInt8, (moveHalves l).length = l.length - 1
  | a :: b :: l => by simp [moveHalves, length_moveHalves (b :: l)]
  | [_] => rfl
  | [] => rfl

theorem drop_takeWhile_length {α : Type} (p : α → Bool) (l : List α) :
    l.drop (l.takeWhile p).length = l.dropWhile p := by
  have h := @List.drop_left _ (l.takeWhile p) (l.dropWhile p)
  rwa [List.takeWhile_append_dropWhile] at h

theorem shiftCoefficientToOndisk_length (l : List UInt8) :
    (shiftCoefficientToOndisk l).1.length = l.length := by
  have hlen := congrArg List.length (@List.takeWhile_append_dropWhile _ (· == 0) l)
  rw [List.length_append] at hlen
  unfold shiftCoefficientToOndisk
  simp only [drop_takeWhile_length]
  split
  · rfl
  · rename_i c rest hdw
    rw [hdw] at hlen
    split_ifs
    · simp at hlen ⊢; omega
    · simp [length_moveHalves] at hlen ⊢; omega

/-- The count of trailing zero digits is never negative: a whole-byte move
counts the cleared sign digit, which the `- 1` takes back. -/
theorem shiftCoefficientToOndisk_snd_nonneg {l : List UInt8} (hl : Digits l) :
    0 ≤ (shiftCoefficientToOndisk l).2 := by
  have hsplit := @List.takeWhile_append_dropWhile _ (· == 0) l
  unfold shiftCoefficientToOndisk
  simp only [drop_takeWhile_length]
  split
  · exact le_rfl
  · rename_i c rest hdw
    split_ifs
    · obtain ⟨init, z, hz⟩ :=
        (List.eq_nil_or_concat (c :: rest)).resolve_left (List.cons_ne_nil _ _)
      have hzl : z &&& 0x0F = 0 := hl.last z (by rw [← hsplit, hdw, hz]; simp)
      rw [hz, List.concat_eq_append]
      have := foldl_tailStep_pos init hzl
      omega
    · exact foldl_tailStep_nonneg _ le_rfl

/-- A coefficient that is not all zero leads, once moved, with a byte that is
neither 0 nor `0xFF`: its high digit is the first nonzero digit. -/
theorem shiftCoefficientToOndisk_lead {l : List UInt8} (hl : Digits l)
    (hnz : (l.takeWhile (· == 0)).length < l.length) :
    ∃ h t, (shiftCoefficientToOndisk l).1 = h :: t ∧ h ≠ 0 ∧ h ≠ 0xFF := by
  have hsplit := @List.takeWhile_append_dropWhile _ (· == 0) l
  unfold shiftCoefficientToOndisk
  simp only [drop_takeWhile_length]
  split
  · rename_i hdw
    rw [hdw, List.append_nil] at hsplit
    rw [hsplit] at hnz
    exact absurd hnz (lt_irrefl _)
  · rename_i c rest hdw
    have hc0 : c ≠ 0 := by
      have := List.head?_dropWhile_not (· == 0) l
      rw [hdw] at this
      simpa using this
    have hcl : c ∈ l := List.dropWhile_subset _ (by rw [hdw]; exact List.mem_cons_self)
    split_ifs with hhi
    · exact ⟨c, _, rfl, hc0, ne_FF_of_shiftRight_le (hl.digits c hcl).1⟩
    · have hlo := and_0F_ne_zero hc0 (not_not.1 hhi)
      cases rest with
      | nil =>
        -- `c` would be the last byte, whose low digit is cleared
        exact absurd (hl.last c (by rw [← hsplit, hdw]; simp)) hlo
      | cons d rest =>
        -- the new lead's high digit is the low digit of `c`
        have hhalf := halves_shiftRight c d
        refine ⟨_, _, rfl, fun h => hlo ?_, fun h => ?_⟩
        · rw [h] at hhalf
          exact hhalf.symm
        · rw [h] at hhalf
          exact absurd (hhalf ▸ (hl.digits c hcl).2) (by decide)

/-- A coefficient of zeros only, as the zero test `i < PACKED_COEF` fails on. -/
theorem eq_replicate_of_takeWhile {l : List UInt8} (h : l.length ≤ (l.takeWhile (· == 0)).length) :
    l = List.replicate l.length 0 := by
  have htw : l.takeWhile (· == 0) = l :=
    (List.takeWhile_prefix _).eq_of_length (le_antisymm (List.takeWhile_prefix _).length_le h)
  rw [List.eq_replicate_iff]
  exact ⟨rfl, fun b hb => by simpa using List.takeWhile_eq_self_iff.1 htw b hb⟩

theorem replicate_set_last (m : ℕ) (b x : UInt8) :
    (List.replicate (m + 1) b).set m x = List.replicate m b ++ [x] := by
  induction m with
  | zero => rfl
  | succ m ih =>
    rw [List.replicate_succ, List.set_cons_succ, ih]
    rfl

end Shift

section Converters

/-- `make_order_decimal32` of a field of either sign whose coefficient is four
bytes of digits has an ordered shape. -/
theorem makeOrderDecimal32_ordered {flag sign exp : UInt8} {coef : List UInt8}
    (hlen : coef.length = decsinglePackedCoef) (hd : Digits coef) (hs : sign = 0 ∨ sign = 1) :
    Ordered32 (makeOrderDecimal32 ⟨flag, sign, exp, coef⟩) := by
  unfold makeOrderDecimal32
  dsimp only
  by_cases hi : (coef.takeWhile (· == 0)).length < decsinglePackedCoef
  · rw [if_pos hi]
    obtain ⟨h, t, hsh, hh0, hhF⟩ := shiftCoefficientToOndisk_lead hd (by rwa [hlen])
    have ht : t.length = 3 := by
      have := shiftCoefficientToOndisk_length coef
      rw [hsh, hlen] at this
      simpa [decsinglePackedCoef] using this
    obtain ⟨a, b, c, rfl⟩ := List.length_eq_three.1 ht
    have htz := shiftCoefficientToOndisk_snd_nonneg hd
    have hmark := ofInt_mark_and_0F (k := min ((shiftCoefficientToOndisk coef).2 + 1) 7)
      (by omega) (by omega)
    rw [hsh]
    rcases hs with rfl | rfl
    · simp only [decsinglePackedCoef, if_true]
      exact Ordered32.neg _ _ _ _ _ _ (xor_FF_ne_zero hhF) (xor_FF_ne_FF hh0)
        (flip_or_mark_and_0F _ _ hmark)
    · simp only [decsinglePackedCoef]
      exact Ordered32.pos _ _ _ _ _ _ hh0
  · -- a zero: every coefficient byte is 0
    rw [if_neg hi]
    have hz := eq_replicate_of_takeWhile (by rw [hlen]; omega)
    rw [hlen] at hz
    subst hz
    rcases hs with rfl | rfl
    · exact Ordered32.negZero _ _
    · exact Ordered32.zero _ _

/-- `make_order_decimal64` and `make_order_decimal128` likewise, for `m + 2`
bytes of digits. -/
theorem makeOrderDecimal2B_ordered (m cap : ℕ) {flag sign : UInt8} {exp : UInt16}
    {coef : List UInt8} (exponent : ℤ) (hlen : coef.length = m + 2) (hd : Digits coef)
    (hs : sign = 0 ∨ sign = 1) :
    Ordered2B (m + 2) (makeOrderDecimal2B (m + 2) cap ⟨flag, sign, exp, coef⟩ exponent) := by
  unfold makeOrderDecimal2B
  dsimp only
  by_cases hi : (coef.takeWhile (· == 0)).length < m + 2
  · rw [if_pos hi]
    obtain ⟨h, t, hsh, hh0, hhF⟩ := shiftCoefficientToOndisk_lead hd (by rwa [hlen])
    have ht : t.length = m + 1 := by
      have := shiftCoefficientToOndisk_length coef
      rw [hsh, hlen] at this
      simpa using this
    rw [hsh]
    rcases hs with rfl | rfl
    · simp only [if_true]
      exact Ordered2B.neg _ _ _ _ (xor_FF_ne_zero hhF) (xor_FF_ne_FF hh0) (by simp [ht])
    · exact Ordered2B.pos _ _ _ _ hh0 (by simp [ht])
  · rw [if_neg hi]
    have hz := eq_replicate_of_takeWhile (by rw [hlen]; omega)
    rw [hlen] at hz
    subst hz
    rcases hs with rfl | rfl
    · have h1 : (1 : UInt8) ^^^ 0xFF = 0xFE := by decide
      have := @Ordered2B.negZero (m + 2) flag (int2ToInt2b (Int16.ofInt exponent) ^^^ 0xFFFF)
      simp only [if_true, show m + 2 - 1 = m + 1 from rfl, replicate_set_last] at this ⊢
      simpa [h1] using this
    · simp only [show m + 2 - 1 = m + 1 from rfl, replicate_set_last]
      exact Ordered2B.zero _ _

/-- A packed coefficient of `n` bytes as `decSingleToPacked` and its kin write
it: two decimal digits a byte, but for the last low half, which is the sign. -/
def IsPacked (n : ℕ) (coef : List UInt8) : Prop :=
  coef.length = n ∧ (∀ b ∈ coef, b >>> 4 ≤ 9) ∧ ∀ b ∈ coef.dropLast, b &&& 0x0F ≤ 9

instance (n : ℕ) (coef : List UInt8) : Decidable (IsPacked n coef) :=
  inferInstanceAs (Decidable (_ ∧ _ ∧ _))

/-- What the converters are given: a number with a packed coefficient, an
infinity or a NaN. -/
def DecValue.Packed (n : ℕ) : DecValue → Prop
  | .finite _ coef _ => IsPacked n coef
  | .inf _ => True
  | .nan _ => True

instance (n : ℕ) : DecidablePred (DecValue.Packed n)
  | .finite _ coef _ => inferInstanceAs (Decidable (IsPacked n coef))
  | .inf _ => instDecidableTrue
  | .nan _ => instDecidableTrue

def DecValue.isNan : DecValue → Bool
  | .nan _ => true
  | _ => false

theorem modify_length_append (f : UInt8 → UInt8) (z : UInt8) :
    ∀ init : List UInt8, (init ++ [z]).modify init.length f = init ++ [f z]
  | [] => rfl
  | a :: init => by simp [modify_length_append f z init]

/-- Clearing the sign half leaves digits only. -/
theorem IsPacked.digits {n : ℕ} {coef : List UInt8} (h : IsPacked n coef) :
    Digits (coef.modify (n - 1) (· &&& 0xF0)) := by
  obtain ⟨hlen, hhi, hlo⟩ := h
  rcases List.eq_nil_or_concat coef with rfl | ⟨init, z, rfl⟩
  · exact ⟨by simp, by simp⟩
  have hn : n - 1 = init.length := by simp at hlen; omega
  rw [List.concat_eq_append, hn, modify_length_append]
  constructor
  · intro b hb
    rcases List.mem_append.1 hb with hb | hb
    · exact ⟨hhi b (by simp [hb]), hlo b (by simpa using hb)⟩
    · rw [List.mem_singleton.1 hb, and_F0_shiftRight, and_F0_and_0F]
      exact ⟨hhi z (by simp), by decide⟩
  · intro b hb
    rw [List.getLast?_concat, Option.mem_some_iff] at hb
    rw [← hb]
    exact and_F0_and_0F z

theorem dfpSingleToOndisk_ordered (flag : UInt8) {d : DecValue}
    (hd : d.Packed decsinglePackedCoef) (hnan : d.isNan = false) :
    Ordered32 (dfpSingleToOndisk flag d) ∨ dec1bIsInfinity (dfpSingleToOndisk flag d) := by
  cases d with
  | finite neg coef exponent =>
    refine Or.inl (makeOrderDecimal32_ordered (by simpa using hd.1) hd.digits ?_)
    cases neg <;> simp
  | inf neg => exact Or.inr (by cases neg <;> rfl)
  | nan signaling => exact absurd hnan (by simp [DecValue.isNan])

theorem dfpToOndisk2B_ordered (m cap : ℕ) (flag : UInt8) {d : DecValue}
    (hd : d.Packed (m + 2)) (hnan : d.isNan = false) :
    Ordered2B (m + 2) (dfpToOndisk2B (m + 2) cap flag d) ∨
      dec2bIsInfinity (dfpToOndisk2B (m + 2) cap flag d) := by
  cases d with
  | finite neg coef exponent =>
    refine Or.inl (makeOrderDecimal2B_ordered m cap exponent (by simpa using hd.1) hd.digits ?_)
    cases neg <;> simp
  | inf neg => exact Or.inr (by cases neg <;> rfl)
  | nan signaling => exact absurd hnan (by simp [DecValue.isNan])

end Converters

/-! ## The round trip -/

theorem decimalQuantumSet_decimalQuantumGet (flag : UInt8) (w : DecimalWidth) (d : DecValue)
    (hd : d.Packed w.packedCoef) (hnan : d.isNan = false) (s₀ : ℤ) :
    quantumRoundTrip (dfpToOndisk flag w d) s₀ = dfpToOndisk flag w d := by
  cases w with
  | single =>
    exact congrArg ServerDecimal.d32
      (quantumSet32_quantumGet32 s₀ (dfpSingleToOndisk_ordered flag hd hnan))
  | double =>
    exact congrArg ServerDecimal.d64
      (quantumSet2B_quantumGet2B 7 s₀ (dfpToOndisk2B_ordered 7 16 flag hd hnan))
  | quad =>
    exact congrArg ServerDecimal.d128
      (quantumSet2B_quantumGet2B 16 s₀ (dfpToOndisk2B_ordered 16 34 flag hd hnan))

/-- The single 1.5: coefficient `0000015` with the sign nibble `C`, exponent -1. -/
theorem decimalQuantumSet_decimalQuantumGet_single :
    DecValue.Packed DecimalWidth.single.packedCoef (.finite false [0x00, 0x00, 0x01, 0x5C] (-1)) ∧
      quantumRoundTrip (dfpToOndisk 0 .single (.finite false [0x00, 0x00, 0x01, 0x5C] (-1))) 0 =
        dfpToOndisk 0 .single (.finite false [0x00, 0x00, 0x01, 0x5C] (-1)) :=
  ⟨by decide +kernel, decimalQuantumSet_decimalQuantumGet 0 .single _ (by decide +kernel) rfl 0⟩

/-- A NaN never comes back: get takes it for a zero and clears its exponent, and
set, finding no mark, leaves the field as get left it. -/
theorem quantumRoundTrip_nan (flag : UInt8) (w : DecimalWidth) (signaling : Bool) (s₀ : ℤ) :
    quantumRoundTrip (dfpToOndisk flag w (.nan signaling)) s₀ ≠ dfpToOndisk flag w (.nan signaling) := by
  cases w <;> cases signaling <;>
    simp +decide [quantumRoundTrip, dfpToOndisk, dfpSingleToOndisk, dfpDoubleToOndisk,
      dfpQuadToOndisk, dfpToOndisk2B, decimalQuantumGet, decimalQuantumSet, quantumGet32,
      quantumSet32, quantumGet2B, quantumSet2B, scrubZeroDecimal32, scrubZeroDecimal2B,
      dec1bIsInfinity, dec2bIsInfinity, prefixAll, decsinglePackedCoef, decdoublePackedCoef,
      decquadPackedCoef]

/-- The quiet single NaN, written with the exponent `0x7c ^ 0x80`, comes back
with the exponent 0. -/
theorem decimalQuantumSet_nan :
    dfpToOndisk 0 .single (.nan false) = .d32 ⟨0, 1, 0xFC, [0, 0, 0, 0]⟩ ∧
      quantumRoundTrip (dfpToOndisk 0 .single (.nan false)) 0 = .d32 ⟨0, 1, 0, [0, 0, 0, 0]⟩ := by
  decide

end Decimal
