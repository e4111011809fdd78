import Comdb2.Lib.Bits

/-!
# The CRLE format

`comdb2rle/comdb2rle.c` compresses records into a stream of chunks.  A chunk is
a header byte, then perhaps a repeat count, a size and the bytes of a pattern.
The header holds a pattern number (4 bits), a flag saying a count follows
(1 bit) and the low part of the repeat count (3 bits), in that order from the
low bit up, the little-endian layout of the `Header` bit fields.  Pattern
numbers below `maxpat` name one of thirteen well-known patterns (NULLs, zeros,
minus ones of several widths); `onebyte` says one pattern byte follows; any
other number says a size follows, then that many pattern bytes.  Counts and
sizes are big-endian groups of seven bits, every group but the last with its
high bit set (`ENCODE_NUMBER`).  A chunk decodes to its pattern written
`r + 1` times.

This module is the decoder side.  `decode` reads one chunk and
`decompressComdb2RLE` the whole stream.  The encoder writes chunks of three
kinds, described by `Token`: a literal run (`encode_prev`), a well-known pattern
(`encode_wellknown`) and a repeated pattern (`encode_repeat`).  `decode_bytes`
says `decode` reads back every well-formed token, and
`decompressFrom_tokens` lifts that to streams: a stream of tokens decompresses
to the concatenation of their expansions, given room for it.

`uint32_t` arithmetic is `u32`, reduction modulo `2 ^ 32`.
-/

namespace Crle

/-- `uint32_t` arithmetic: reduction modulo `2 ^ 32`. -/
def u32 (a : ℕ) : ℕ := a % 2 ^ 32

theorem u32_of_lt {a : ℕ} (h : a < 2 ^ 32) : u32 a = a := Nat.mod_eq_of_lt h

theorem u32_lt (a : ℕ) : u32 a < 2 ^ 32 := Nat.mod_lt _ (by norm_num)

/-! ## Variable-length numbers -/

/-- `varint_need`: how many bytes `ENCODE_NUMBER` writes. -/
def varintNeed (i : ℕ) : ℕ :=
  if i < 0x80 then 1 else if i < 0xff then 2 else if i < 0xffff then 3
  else if i < 0xffffff then 4 else 5

/-- The byte `ENCODE_NUMBER` writes for group `k`, counted from the low end: the
last byte holds the low seven bits, every earlier one a higher group with the
high bit set.  The store to a `uint8_t` keeps the low eight bits. -/
def numberByte (i k : ℕ) : UInt8 :=
  if k = 0 then UInt8.ofNat (0x7f &&& i) else UInt8.ofNat (0x80 ||| i >>> (7 * k))

/-- `ENCODE_NUMBER`: the groups from the highest down. -/
def encodeNumber (i : ℕ) : List UInt8 := (List.range (varintNeed i)).reverse.map (numberByte i)

/-- `DECODE_NUMBER` from the accumulator `o` on: while a byte has its high bit
set, add its seven bits and shift; the first byte without it ends the number.
The C macro reads on without looking at the end of the input; a number that
runs past the end is modelled as a failed decode (`none`), not as the read of
the bytes beyond it. -/
def decodeNumberFrom (o : ℕ) : List UInt8 → Option (ℕ × List UInt8)
  | [] => none
  | b :: rest =>
      if b &&& 0x80 ≠ 0 then decodeNumberFrom (u32 ((o ||| (b &&& 0x7f).toNat) <<< 7)) rest
      else some (u32 (o ||| b.toNat), rest)

def decodeNumber (buf : List UInt8) : Option (ℕ × List UInt8) := decodeNumberFrom 0 buf

/-! ## Patterns and headers -/

def p0 : List UInt8 := [0x02, 0x00, 0x00, 0x00, 0x00, 0x00, 0x00, 0x00, 0x00]
def p3 : List UInt8 := [0x08, 0x80, 0x00, 0x00, 0x00, 0x00, 0x00, 0x00, 0x00]
def p6 : List UInt8 := [0x08, 0x7f, 0xff, 0xff, 0xff, 0xff, 0xff, 0xff, 0xff]
def p9 : List UInt8 := [0x08, 0x40, 0x0f, 0xff, 0xff, 0xff, 0xff, 0xff, 0xff]
def pa : List UInt8 := [0x08, 0x40, 0x7f, 0xff, 0xff]
def pb : List UInt8 := [0x00]
def pc : List UInt8 := [0x30]

/-- The well-known patterns (`PATTERNS`), each with its size: NULLs, zeros and
minus ones of three widths, the two floating-point minus ones, a NUL and an
ASCII zero. -/
def patterns : List (List UInt8) :=
  [p0, p0.take 5, p0.take 3, p3, p3.take 5, p3.take 3, p6, p6.take 5, p6.take 3, p9, pa, pb, pc]

/-- The first pattern number that is not a well-known pattern. -/
def maxpat : ℕ := 13

/-- The pattern number of a one-byte pattern. -/
def onebyte : ℕ := maxpat + 1

/-- The largest repeat count the header holds. -/
def hmax : ℕ := 7

def psizes (w : ℕ) : ℕ := (patterns.getD w []).length

/-- The header byte: pattern in bits 0-3, `more` in bit 4, repeat in bits 5-7. -/
def headerByte (pattern more rep : ℕ) : UInt8 :=
  UInt8.ofNat (pattern % 16 + 16 * (more % 2) + 32 * (rep % 8))

/-- The `more` and repeat fields `encode_header` sets for a repeat count, and the
part of the count it sends as a number after the header. -/
def headerFields (r : ℕ) : ℕ × ℕ × ℕ :=
  if r > hmax then (1, hmax, u32 (r - hmax)) else (0, r, 0)

/-- `encode_header`: a repeat count above `hmax` sets `more` and sends the rest
as a number. -/
def encodeHeader (w r : ℕ) : List UInt8 :=
  headerByte w (headerFields r).1 (headerFields r).2.1 ::
    if (headerFields r).2.2 ≠ 0 then encodeNumber (headerFields r).2.2 else []

/-! ## Numbers read back -/

theorem numberByte_succ_toNat (i k : ℕ) :
    (numberByte i (k + 1)).toNat = 2 ^ 7 ||| (i >>> (7 * (k + 1))) % 2 ^ 8 := by
  rw [numberByte, if_neg (Nat.succ_ne_zero k), UInt8.toNat_ofNat', Nat.or_mod_two_pow]
  rfl

theorem numberByte_succ_flag (i k : ℕ) : numberByte i (k + 1) &&& 0x80 ≠ 0 := by
  intro h
  have h' := congrArg UInt8.toNat h
  rw [UInt8.toNat_and, numberByte_succ_toNat, show (0x80 : UInt8).toNat = 2 ^ 7 from rfl,
    Bits.or_flag_and_flag] at h'
  exact absurd h' (by decide)

theorem numberByte_succ_low (i k : ℕ) :
    (numberByte i (k + 1) &&& 0x7f).toNat = i / 128 ^ (k + 1) % 128 := by
  rw [UInt8.toNat_and, numberByte_succ_toNat, show (0x7f : UInt8).toNat = 2 ^ 7 - 1 from rfl,
    Bits.or_flag_and_low, Nat.mod_mod_of_dvd _ (by norm_num), Nat.shiftRight_eq_div_pow,
    pow_mul]
  rfl

theorem numberByte_zero_toNat (i : ℕ) : (numberByte i 0).toNat = i % 128 := by
  have hlt : i % 2 ^ 7 < 2 ^ 8 := lt_of_lt_of_le (Nat.mod_lt _ (by norm_num)) (by norm_num)
  rw [numberByte, if_pos rfl, UInt8.toNat_ofNat', Nat.and_comm,
    show (0x7f : ℕ) = 2 ^ 7 - 1 from rfl, Nat.and_two_pow_sub_one_eq_mod, Nat.mod_eq_of_lt hlt]
  rfl

theorem numberByte_zero_flag (i : ℕ) : ¬ (numberByte i 0 &&& 0x80 ≠ 0) := by
  rw [not_not]
  apply UInt8.toNat_inj.mp
  have hlt : 0x7f &&& i < 2 ^ 8 := lt_of_le_of_lt Nat.and_le_left (by norm_num)
  rw [UInt8.toNat_and, numberByte, if_pos rfl, UInt8.toNat_ofNat', Nat.mod_eq_of_lt hlt,
    show (0x80 : UInt8).toNat = 2 ^ 7 from rfl, show (0x7f : ℕ) = 2 ^ 7 - 1 from rfl,
    Bits.low_and_flag]
  rfl

theorem dvd_u32_mul (a : ℕ) : 128 ∣ u32 (a * 128) :=
  (Nat.dvd_mod_iff (by norm_num : 128 ∣ 2 ^ 32)).2 (Dvd.intro_left a rfl)

theorem u32_u32_mul_add (a b c : ℕ) : u32 (u32 a * b + c) = u32 (a * b + c) := by
  simp only [u32, Nat.add_mod, Nat.mul_mod, Nat.mod_mod]

/-- Reading the groups `k, …, 0` of `i` from the accumulator `o`.  The accumulator
is always a multiple of 128, so adding a group with `|||` is addition. -/
theorem decodeNumberFrom_groups (i : ℕ) (rest : List UInt8) :
    ∀ (k o : ℕ), 128 ∣ o →
      decodeNumberFrom o ((List.range (k + 1)).reverse.map (numberByte i) ++ rest) =
        some (u32 (o * 128 ^ k + i % 128 ^ (k + 1)), rest)
  | 0, o, ho => by
      have hlast : o ||| (numberByte i 0).toNat = o + i % 128 := by
        rw [numberByte_zero_toNat]
        exact Bits.or_eq_add_of_dvd (k := 7) ho (Nat.mod_lt _ (by norm_num))
      simp [decodeNumberFrom, numberByte_zero_flag, hlast]
  | k + 1, o, ho => by
      have hor : o ||| (numberByte i (k + 1) &&& 0x7f).toNat = o + i / 128 ^ (k + 1) % 128 := by
        rw [numberByte_succ_low]
        exact Bits.or_eq_add_of_dvd (k := 7) ho (Nat.mod_lt _ (by norm_num))
      have hshift : (o + i / 128 ^ (k + 1) % 128) <<< 7 = (o + i / 128 ^ (k + 1) % 128) * 128 :=
        Nat.shiftLeft_eq _ 7
      -- the low `k + 2` groups of `i` are group `k + 1` above the low `k + 1`
      have hmod : i % 128 ^ (k + 2) = i % 128 ^ (k + 1) + 128 ^ (k + 1) * (i / 128 ^ (k + 1) % 128) := by
        rw [pow_succ, Nat.mod_mul]
      rw [List.range_succ, List.reverse_append, List.map_append, List.append_assoc]
      simp only [List.reverse_singleton, List.map_singleton, List.singleton_append]
      rw [decodeNumberFrom, if_pos (numberByte_succ_flag i k), hor, hshift,
        decodeNumberFrom_groups i rest k _ (dvd_u32_mul _), u32_u32_mul_add, hmod]
      congr 3
      ring

theorem varintNeed_pos (i : ℕ) : 0 < varintNeed i := by
  unfold varintNeed
  split_ifs <;> norm_num

theorem lt_pow_varintNeed {i : ℕ} (h : i < 2 ^ 32) : i < 128 ^ varintNeed i := by
  unfold varintNeed
  split_ifs <;> norm_num <;> omega

/-- `DECODE_NUMBER` reads back what `ENCODE_NUMBER` wrote, for every `uint32_t`. -/
theorem decodeNumber_encodeNumber {i : ℕ} (h : i < 2 ^ 32) (rest : List UInt8) :
    decodeNumber (encodeNumber i ++ rest) = some (i, rest) := by
  obtain ⟨k, hk⟩ : ∃ k, varintNeed i = k + 1 :=
    ⟨varintNeed i - 1, by have := varintNeed_pos i; omega⟩
  have hlt : i < 128 ^ (k + 1) := hk ▸ lt_pow_varintNeed h
  rw [decodeNumber, encodeNumber, hk, decodeNumberFrom_groups i rest k 0 (dvd_zero _), zero_mul,
    zero_add, Nat.mod_eq_of_lt hlt, u32_of_lt h]

/-! ## Decoding -/

/-- The repeat count of a chunk: the number after the header when `more` is set,
plus the header's three bits. -/
def decodeRepeat (h : UInt8) (rest : List UInt8) : Option (ℕ × List UInt8) :=
  if (h >>> 4) &&& 1 ≠ 0 then
    (decodeNumber rest).map fun (r, rest) => (u32 (r + (h >>> 5).toNat), rest)
  else some (u32 (0 + (h >>> 5).toNat), rest)

/-- The pattern of a chunk: a well-known one, or pattern bytes that follow, one
byte for `onebyte` and a sized run for any other number. -/
def decodePattern (pattern : ℕ) (rest : List UInt8) : Option (List UInt8 × List UInt8) :=
  if pattern < maxpat then some (patterns.getD pattern [], rest)
  else
    match (if pattern = onebyte then some (1, rest) else decodeNumber rest) with
    | none => none
    | some (s, rest) => if s ≤ rest.length then some (rest.take s, rest.drop s) else none

/-- `decode`: one chunk's pattern bytes, its repeat count, and the rest of the
input.  Where the C code would read past the end of the input (a header with
nothing after it, a number or a pattern cut short), the model fails. -/
def decode : List UInt8 → Option (List UInt8 × ℕ × List UInt8)
  | [] => none
  | h :: rest =>
      match decodeRepeat h rest with
      | none => none
      | some (r, rest) => (decodePattern (h &&& 0xf).toNat rest).map fun (p, rest) => (p, r, rest)

theorem decodeNumberFrom_length_lt :
    ∀ {o : ℕ} {buf rest : List UInt8} {n : ℕ}, decodeNumberFrom o buf = some (n, rest) →
      rest.length < buf.length
  | _, [], _, _, h => by simp [decodeNumberFrom] at h
  | o, b :: buf, rest, n, h => by
      unfold decodeNumberFrom at h
      split at h
      · exact Nat.lt_succ_of_lt (decodeNumberFrom_length_lt h)
      · cases h
        exact Nat.lt_succ_self _

theorem decodeRepeat_length_le {h : UInt8} {rest rest' : List UInt8} {r : ℕ}
    (hd : decodeRepeat h rest = some (r, rest')) : rest'.length ≤ rest.length := by
  unfold decodeRepeat at hd
  split at hd
  · obtain ⟨⟨n, rest''⟩, hn, heq⟩ := Option.map_eq_some_iff.1 hd
    cases heq
    exact (decodeNumberFrom_length_lt hn).le
  · cases hd
    exact le_refl _

theorem decodePattern_length_le {pattern : ℕ} {rest rest' p : List UInt8}
    (hd : decodePattern pattern rest = some (p, rest')) : rest'.length ≤ rest.length := by
  unfold decodePattern at hd
  split at hd
  · cases hd
    exact le_refl _
  · split at hd
    · cases hd
    · rename_i s rest'' hs
      split at hd
      · cases hd
        have hle : rest''.length ≤ rest.length := by
          split at hs
          · cases hs
            exact le_refl _
          · exact (decodeNumberFrom_length_lt hs).le
        simp only [List.length_drop]
        omega
      · cases hd

/-- A chunk takes at least its header byte. -/
theorem decode_length_lt {buf rest p : List UInt8} {r : ℕ} (h : decode buf = some (p, r, rest)) :
    rest.length < buf.length := by
  match buf, h with
  | hd :: tl, h =>
      rw [decode] at h
      cases hr : decodeRepeat hd tl with
      | none => rw [hr] at h; cases h
      | some rr =>
          obtain ⟨r', rest'⟩ := rr
          rw [hr] at h
          obtain ⟨⟨p', rest''⟩, hp, heq⟩ := Option.map_eq_some_iff.1 h
          cases heq
          have h1 := decodeRepeat_length_le hr
          have h2 := decodePattern_length_le hp
          simp only [List.length_cons]
          omega

/-- `decompressComdb2RLE` from `buf` on, with `outsz` bytes of room: the bytes
written, or `none` where the C returns 1.  A one-byte pattern is written with
`memset` of `++r` bytes, which is none at all when `r + 1` wraps to 0.  A longer
one is copied by a loop `i <= r`, which never ends for `r = 2 ^ 32 - 1`; the
model fails there too.  The size check `s * (r + 1)` is computed modulo
`2 ^ 32`, as the C computes it.  Where a chunk runs past the end of `buf` the C
reads past it, and the model fails. -/
def decompressFrom (buf : List UInt8) (outsz : ℕ) : Option (List UInt8) :=
  if buf = [] then some []
  else
    match hd : decode buf with
    | none => none
    | some (p, r, rest) =>
        if u32 (p.length * (r + 1)) > outsz then none
        else if p.length = 1 then
          let written := List.replicate (u32 (r + 1)) (p.headD 0)
          (decompressFrom rest (outsz - written.length)).map (written ++ ·)
        else if r + 1 = 2 ^ 32 then none
        else
          let written := (List.replicate (r + 1) p).flatten
          (decompressFrom rest (outsz - written.length)).map (written ++ ·)
termination_by buf.length
decreasing_by all_goals exact decode_length_lt hd

def decompressComdb2RLE (input : List UInt8) (outsz : ℕ) : Option (List UInt8) :=
  decompressFrom input outsz

/-! ## Chunks the encoder writes, read back -/

theorem headerByte_toNat {w more rep : ℕ} (hw : w < 16) (hm : more < 2) (hr : rep < 8) :
    (headerByte w more rep).toNat = w + 16 * more + 32 * rep := by
  rw [headerByte, UInt8.toNat_ofNat', Nat.mod_eq_of_lt (by omega), Nat.mod_eq_of_lt hw,
    Nat.mod_eq_of_lt hm, Nat.mod_eq_of_lt hr]

/-- The three fields of a header byte read back. -/
theorem headerByte_fields (w more rep : ℕ) (hw : w < 16) (hm : more < 2) (hr : rep < 8) :
    (headerByte w more rep &&& 0xf).toNat = w ∧
      ((headerByte w more rep >>> 4) &&& 1 ≠ 0 ↔ more = 1) ∧
      (headerByte w more rep >>> 5).toNat = rep := by
  have hv := headerByte_toNat hw hm hr
  have hpat : (headerByte w more rep &&& 0xf).toNat = w := by
    rw [UInt8.toNat_and, hv, show (0xf : UInt8).toNat = 2 ^ 4 - 1 from rfl,
      Nat.and_two_pow_sub_one_eq_mod]
    omega
  have hmore : ((headerByte w more rep >>> 4) &&& 1).toNat = more := by
    rw [UInt8.toNat_and, UInt8.toNat_shiftRight, hv, show (4 : UInt8).toNat % 8 = 4 from rfl,
      show (1 : UInt8).toNat = 2 ^ 1 - 1 from rfl, Nat.and_two_pow_sub_one_eq_mod,
      Nat.shiftRight_eq_div_pow]
    omega
  have hrep : (headerByte w more rep >>> 5).toNat = rep := by
    rw [UInt8.toNat_shiftRight, hv, show (5 : UInt8).toNat % 8 = 5 from rfl,
      Nat.shiftRight_eq_div_pow]
    omega
  refine ⟨hpat, ⟨fun h => ?_, fun h => ?_⟩, hrep⟩
  · have h' : ((headerByte w more rep >>> 4) &&& 1).toNat ≠ 0 := fun h0 => h (UInt8.toNat_inj.mp h0)
    omega
  · intro h0
    rw [h0, UInt8.toNat_zero] at hmore
    omega

/-- A chunk that starts with `encode_header`'s bytes has that header's repeat
count and pattern number. -/
theorem decode_encodeHeader {w r : ℕ} (hw : w < 16) (hr : r < 2 ^ 32) (rest : List UInt8) :
    decode (encodeHeader w r ++ rest) = (decodePattern w rest).map fun (p, rest) => (p, r, rest) := by
  unfold encodeHeader headerFields
  by_cases hgt : r > hmax
  · -- the count goes on in a number after the header
    have hv : u32 (r - hmax) = r - hmax := u32_of_lt (by unfold hmax; omega)
    have hne : u32 (r - hmax) ≠ 0 := by
      rw [hv]
      unfold hmax at hgt ⊢
      omega
    obtain ⟨hpat, hmore, hrep⟩ := headerByte_fields w 1 hmax hw (by decide) (by decide)
    simp only [if_pos hgt, if_pos hne, List.cons_append, decode, decodeRepeat, if_pos (hmore.2 rfl),
      decodeNumber_encodeNumber (u32_lt _), hpat, hrep, Option.map_some]
    rw [hv, Nat.sub_add_cancel (le_of_lt hgt), u32_of_lt hr]
  · obtain ⟨hpat, hmore, hrep⟩ := headerByte_fields w 0 r hw (by decide)
      (by unfold hmax at hgt; omega)
    have hflag : ¬ ((headerByte w 0 r >>> 4) &&& 1 ≠ 0) := fun h => absurd (hmore.1 h) (by decide)
    simp only [if_neg hgt, ne_eq, not_true_eq_false, if_false, List.cons_append, List.nil_append,
      decode, decodeRepeat, if_neg hflag, hpat, hrep, Nat.zero_add, u32_of_lt hr]

theorem decodePattern_wellKnown {w : ℕ} (hw : w < maxpat) (rest : List UInt8) :
    decodePattern w rest = some (patterns.getD w [], rest) := by
  rw [decodePattern, if_pos hw]

theorem decodePattern_onebyte (c : UInt8) (rest : List UInt8) :
    decodePattern onebyte (c :: rest) = some ([c], rest) := by
  simp [decodePattern, onebyte, maxpat]

theorem decodePattern_sized (b rest : List UInt8) (hb : b.length < 2 ^ 32) :
    decodePattern maxpat (encodeNumber b.length ++ (b ++ rest)) = some (b, rest) := by
  simp [decodePattern, onebyte, decodeNumber_encodeNumber hb]

/-! ## Tokens -/

/-- The chunks the encoder writes. -/
inductive Token where
  /-- `encode_prev`: the pending literal bytes, once. -/
  | literal (b : List UInt8)
  /-- `encode_wellknown`: well-known pattern `w`, `r + 1` times. -/
  | wellKnown (w r : ℕ)
  /-- `encode_repeat`: the bytes `b`, `r + 1` times. -/
  | rep (b : List UInt8) (r : ℕ)
  deriving DecidableEq, Repr

/-- The bytes `encode_prev` writes for the literal `b`: a header with pattern
`maxpat` and no repeats, the size, the bytes. -/
def prevBytes (b : List UInt8) : List UInt8 := headerByte maxpat 0 0 :: (encodeNumber b.length ++ b)

/-- The bytes `encode_repeat` writes for `r + 1` copies of `b`: one byte goes
under `onebyte`, a longer pattern under `maxpat` with its size. -/
def repeatBytes (b : List UInt8) (r : ℕ) : List UInt8 :=
  encodeHeader (if b.length = 1 then onebyte else maxpat) r ++
    ((if b.length > 1 then encodeNumber b.length else []) ++ b)

def Token.bytes : Token → List UInt8
  | .literal b => prevBytes b
  | .wellKnown w r => encodeHeader w r
  | .rep b r => repeatBytes b r

/-- The pattern `decode` returns for the token. -/
def Token.chunk : Token → List UInt8
  | .literal b => b
  | .wellKnown w _ => patterns.getD w []
  | .rep b _ => b

/-- The repeat count `decode` returns for the token. -/
def Token.count : Token → ℕ
  | .literal _ => 0
  | .wellKnown _ r => r
  | .rep _ r => r

/-- What the token stands for: its pattern, `count + 1` times. -/
def Token.expand (t : Token) : List UInt8 := (List.replicate (t.count + 1) t.chunk).flatten

/-- The tokens the encoder can write: a known pattern number, and sizes and
counts that fit a `uint32_t`. -/
def Token.WF : Token → Prop
  | .literal b => 0 < b.length ∧ b.length < 2 ^ 32
  | .wellKnown w r => w < maxpat ∧ r < 2 ^ 32
  | .rep b r => 0 < b.length ∧ b.length < 2 ^ 32 ∧ r < 2 ^ 32

theorem prevBytes_eq (b : List UInt8) :
    prevBytes b = encodeHeader maxpat 0 ++ (encodeNumber b.length ++ b) := by
  simp [prevBytes, encodeHeader, headerFields, hmax]

/-- `decode` reads back every token the encoder writes. -/
theorem decode_bytes {t : Token} (ht : t.WF) (rest : List UInt8) :
    decode (t.bytes ++ rest) = some (t.chunk, t.count, rest) := by
  cases t with
  | literal b =>
      obtain ⟨-, hb⟩ := ht
      rw [Token.bytes, prevBytes_eq, List.append_assoc, decode_encodeHeader (by decide) (by norm_num),
        List.append_assoc, decodePattern_sized b rest hb]
      rfl
  | wellKnown w r =>
      obtain ⟨hw, hr⟩ := ht
      rw [Token.bytes, decode_encodeHeader (by unfold maxpat at hw; omega) hr,
        decodePattern_wellKnown hw]
      rfl
  | rep b r =>
      obtain ⟨hpos, hb, hr⟩ := ht
      by_cases h1 : b.length = 1
      · obtain ⟨c, rfl⟩ : ∃ c, b = [c] := List.length_eq_one_iff.1 h1
        simp only [Token.bytes, repeatBytes, h1, if_pos, lt_irrefl, if_false, List.nil_append]
        rw [List.append_assoc, List.singleton_append,
          decode_encodeHeader (show onebyte < 16 by decide) hr, decodePattern_onebyte]
        rfl
      · have hgt : b.length > 1 := by omega
        simp only [Token.bytes, repeatBytes, if_neg h1, if_pos hgt, List.append_assoc]
        rw [decode_encodeHeader (show maxpat < 16 by decide) hr, decodePattern_sized b rest hb]
        rfl

/-! ## Streams of tokens, decompressed -/

theorem length_flatten_replicate (n : ℕ) (p : List UInt8) :
    (List.replicate n p).flatten.length = p.length * n := by
  simp [List.length_flatten, Nat.mul_comm]

theorem flatten_replicate_singleton (n : ℕ) (c : UInt8) :
    (List.replicate n [c]).flatten = List.replicate n c := by
  induction n with
  | zero => rfl
  | succ n ih => rw [List.replicate_succ, List.flatten_cons, ih, List.singleton_append,
      List.replicate_succ]

/-- One pass of the decompression loop: a chunk that fits is written out, `memset`
or copies alike. -/
theorem decompressFrom_step {buf rest p : List UInt8} {r : ℕ} (outsz : ℕ) (hne : buf ≠ [])
    (hd : decode buf = some (p, r, rest)) (hfit : p.length * (r + 1) ≤ outsz)
    (hlt : p.length * (r + 1) < 2 ^ 32) (hr : r + 1 < 2 ^ 32) :
    decompressFrom buf outsz =
      (decompressFrom rest (outsz - p.length * (r + 1))).map ((List.replicate (r + 1) p).flatten ++ ·) := by
  rw [decompressFrom, if_neg hne]
  split
  · rename_i heq
    rw [hd] at heq
    cases heq
  · rename_i p' r' rest' heq
    rw [hd] at heq
    obtain ⟨rfl, rfl, rfl⟩ : p = p' ∧ r = r' ∧ rest = rest' := by simpa using heq
    rw [if_neg (by rw [u32_of_lt hlt]; omega)]
    split
    · -- `memset` of one byte writes what copying it would
      rename_i h1
      obtain ⟨c, rfl⟩ := List.length_eq_one_iff.1 h1
      simp only [u32_of_lt hr, List.length_replicate, List.length_singleton, Nat.one_mul,
        flatten_replicate_singleton]
      rfl
    · rw [if_neg hr.ne]
      simp only [length_flatten_replicate]

theorem Token.length_expand (t : Token) : t.expand.length = t.chunk.length * (t.count + 1) :=
  length_flatten_replicate _ _

theorem psizes_pos : ∀ w < maxpat, 0 < psizes w := by decide

theorem Token.chunk_length_pos {t : Token} (ht : t.WF) : 0 < t.chunk.length := by
  cases t with
  | literal b => exact ht.1
  | wellKnown w r => exact psizes_pos w ht.1
  | rep b r => exact ht.1

theorem Token.bytes_ne_nil (t : Token) : t.bytes ≠ [] := by
  cases t <;> simp [Token.bytes, prevBytes, repeatBytes, encodeHeader]

/-- A stream of well-formed tokens decompresses to their expansions, given room
for them. -/
theorem decompressFrom_tokens :
    ∀ (ts : List Token), (∀ t ∈ ts, t.WF) → ∀ outsz : ℕ,
      (ts.flatMap Token.expand).length ≤ outsz → (ts.flatMap Token.expand).length < 2 ^ 32 →
      decompressFrom (ts.flatMap Token.bytes) outsz = some (ts.flatMap Token.expand)
  | [], _, outsz, _, _ => by
      rw [List.flatMap_nil, decompressFrom, if_pos rfl, List.flatMap_nil]
  | t :: ts, hwf, outsz, hfit, hlt => by
      rw [List.flatMap_cons, List.length_append] at hfit hlt
      have hne : t.bytes ++ ts.flatMap Token.bytes ≠ [] := by simp [Token.bytes_ne_nil t]
      have hlen := t.length_expand
      have hpos := t.chunk_length_pos (hwf t List.mem_cons_self)
      have hr1 : t.count + 1 ≤ t.chunk.length * (t.count + 1) := Nat.le_mul_of_pos_left _ hpos
      rw [List.flatMap_cons, List.flatMap_cons,
        decompressFrom_step outsz hne (decode_bytes (hwf t (List.mem_cons_self ..)) _)
          (by omega) (by omega) (by omega),
        decompressFrom_tokens ts (fun t' ht' => hwf t' (List.mem_cons_of_mem t ht')) _
          (by omega) (by omega)]
      rfl

/-! ## Corrupt input -/

/-- A chunk of two bytes repeated `2 ^ 31` times: the header `0x1d` (a sized
pattern, with more repeats), `2 ^ 31 - 1` as a varint, the size 2, the bytes. -/
def wrapChunk : List UInt8 := [0x1d, 0x87, 0xff, 0xff, 0xff, 0x7f, 0x02, 0xaa, 0xbb]

/-- The size check of `decompressComdb2RLE` wraps: `2 * 2 ^ 31` is 0 modulo
`2 ^ 32`, so the chunk passes for any room at all and writes `2 ^ 32` bytes. -/
theorem decompressComdb2RLE_wrapChunk (m : ℕ) :
    decompressComdb2RLE wrapChunk m = some (List.replicate (2 ^ 31) [0xaa, 0xbb]).flatten ∧
      (List.replicate (2 ^ 31) ([0xaa, 0xbb] : List UInt8)).flatten.length = 2 ^ 32 := by
  have hd : decode wrapChunk = some ([0xaa, 0xbb], 2 ^ 31 - 1, []) := by decide
  refine ⟨?_, by rw [length_flatten_replicate]; rfl⟩
  rw [decompressComdb2RLE, decompressFrom, if_neg (by decide)]
  split
  · rename_i heq
    rw [hd] at heq
    cases heq
  · rename_i p r rest heq
    rw [hd] at heq
    obtain ⟨rfl, rfl, rfl⟩ : [0xaa, 0xbb] = p ∧ 2 ^ 31 - 1 = r ∧ [] = rest := by simpa using heq
    have hwrap : u32 (([0xaa, 0xbb] : List UInt8).length * (2 ^ 31 - 1 + 1)) = 0 := by decide
    rw [hwrap, if_neg (Nat.not_lt_zero m), if_neg (by decide), if_neg (by decide)]
    dsimp only
    rw [decompressFrom, if_pos rfl, Option.map_some, List.append_nil,
      show 2 ^ 31 - 1 + 1 = 2 ^ 31 by norm_num]

end Crle
