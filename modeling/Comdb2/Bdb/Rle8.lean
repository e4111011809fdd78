import Comdb2.Lib.Bits

/-!
# `rle8`: the byte run-length codec

`rle8_compress` writes a record as pieces.  A count byte below `0x80` is
followed by that many bytes copied as they are.  A count byte with the high bit
set is followed by one byte, repeated that many times.  A piece holds at most
127 bytes.  The compressor scans for the next run of four equal bytes
(`literalSpan`).  Everything before it is written as literal pieces
(`putLiteral`), and the run, for as long as it lasts, as repeat pieces
(`putRun`).  Every piece is written only if the output has room for it.  The
compressor fails on records under four bytes and on records whose pieces do not
fit.

`rle8_decompress` reads the pieces back with the room it is given.  Whatever the
compressor writes, the decompressor reads back to the record
(`rle8Decompress_rle8Compress`).  The proof splits the output into pieces
(`Piece`).  Each piece reads back on its own (`rle8DecompressFrom_piece`), and
the compressor's output is pieces that expand to the record
(`rle8CompressFrom_pieces`).

The list decoder reads its input by `take` and `drop`, which cannot leave the
list.  To say that the C never reads outside its source, `decompressLoop` walks
the buffer by offsets as the C does, every read checked.  It computes what the
list decoder does (`decompressLoop_eq`), so no read of it falls outside the
buffer and it never writes more than its room (`rle8DecompressBuf_sound`).
-/

namespace Rle8

/-! ## The compressor -/

/-- The uncompressed scan of `rle8_compress`: the bytes before the next run of
four equal bytes, or all of them once fewer than four are left.  Two or three
equal bytes that do not make a run are passed over together. -/
def literalSpan : List UInt8 → ℕ
  | a :: t₁@(b :: t₂@(c :: t₃@(d :: _))) =>
    if a = b then
      if b = c then
        if c = d then 0 else 3 + literalSpan t₃
      else 2 + literalSpan t₂
    else 1 + literalSpan t₁
  | l => l.length

/-- The literal pieces for `lit`: a count byte, then up to 127 bytes, while
`tolen` has room.  The result is the bytes written and the room left. -/
def putLiteral (tolen : ℕ) (lit : List UInt8) : Option (List UInt8 × ℕ) :=
  if lit = [] then some ([], tolen)
  else
    let len := min lit.length 0x7f
    if tolen < len + 1 then none
    else (putLiteral (tolen - (len + 1)) (lit.drop len)).map fun (out, t) =>
      (UInt8.ofNat len :: lit.take len ++ out, t)
termination_by lit.length
decreasing_by
  have : lit.length ≠ 0 := by simpa using ‹¬lit = []›
  simp only [List.length_drop]
  omega

/-- The repeat pieces for `n` copies of `b`: `0x80 | count`, then the byte. -/
def putRun (tolen : ℕ) (b : UInt8) (n : ℕ) : Option (List UInt8 × ℕ) :=
  if n = 0 then some ([], tolen)
  else if tolen < 2 then none
  else
    let len := min n 0x7f
    (putRun (tolen - 2) b (n - len)).map fun (out, t) => (UInt8.ofNat (len ||| 0x80) :: b :: out, t)
termination_by n
decreasing_by omega

/-- The main loop of `rle8_compress` from the remaining input on. -/
def rle8CompressFrom (tolen : ℕ) (l : List UInt8) : Option (List UInt8) :=
  let k := literalSpan l
  match putLiteral tolen (l.take k) with
  | none => none
  | some (lit, tolen) =>
    match _hr : l.drop k with
    | [] => some lit
    | b :: t =>
      -- the scan stopped at four equal bytes; the run goes on while the bytes do
      let n := 4 + ((t.drop 3).takeWhile (· = b)).length
      match putRun tolen b n with
      | none => none
      | some (run, tolen) => (rle8CompressFrom tolen ((b :: t).drop n)).map (lit ++ run ++ ·)
termination_by l.length
decreasing_by
  have h := congrArg List.length _hr
  simp only [List.length_drop, List.length_cons] at h ⊢
  omega

/-- `rle8_compress(from, fromlen, to, tolen)`: the bytes written, or `none` where
the C returns -1. -/
def rle8Compress (src : List UInt8) (tolen : ℕ) : Option (List UInt8) :=
  if src.length < 4 then none else rle8CompressFrom tolen src

/-! ## The decompressor -/

/-- `rle8_decompress` with `room` bytes of output left: the bytes written, or
`none` where the C returns -1. -/
def rle8DecompressFrom (room : ℕ) : List UInt8 → Option (List UInt8)
  | [] => some []
  | byte :: rest =>
    let count := byte &&& 0x7f
    if count.toNat > room then none
    else if byte = count then
      if count.toNat > rest.length then none
      else (rle8DecompressFrom (room - count.toNat) (rest.drop count.toNat)).map
        (rest.take count.toNat ++ ·)
    else
      match rest with
      | [] => none
      | b :: rest => (rle8DecompressFrom (room - count.toNat) rest).map
        (List.replicate count.toNat b ++ ·)
termination_by l => l.length

/-- `rle8_decompress(from, fromlen, to, tolen)`. -/
def rle8Decompress (src : List UInt8) (tolen : ℕ) : Option (List UInt8) :=
  rle8DecompressFrom tolen src

/-! ## Pieces -/

/-- The pieces the compressor writes. -/
inductive Piece where
  /-- A count byte below `0x80`, then the bytes. -/
  | literal (b : List UInt8)
  /-- `0x80 | n`, then the byte `b`, for `n` copies of it. -/
  | run (b : UInt8) (n : ℕ)
  deriving DecidableEq, Repr

def Piece.bytes : Piece → List UInt8
  | .literal b => UInt8.ofNat b.length :: b
  | .run b n => [UInt8.ofNat (n ||| 0x80), b]

def Piece.expand : Piece → List UInt8
  | .literal b => b
  | .run b n => List.replicate n b

/-- A piece holds between 1 and 127 bytes. -/
def Piece.WF : Piece → Prop
  | .literal b => 0 < b.length ∧ b.length ≤ 0x7f
  | .run _ n => 0 < n ∧ n ≤ 0x7f

theorem toNat_ofNat_of_le {n : ℕ} (h : n ≤ 0x7f) : (UInt8.ofNat n).toNat = n := by
  rw [UInt8.toNat_ofNat']
  omega

/-- A literal count byte has its high bit clear. -/
theorem ofNat_and_count {n : ℕ} (h : n ≤ 0x7f) : UInt8.ofNat n &&& 0x7f = UInt8.ofNat n := by
  apply UInt8.toNat_inj.mp
  rw [UInt8.toNat_and, toNat_ofNat_of_le h, show (0x7f : UInt8).toNat = 2 ^ 7 - 1 from rfl,
    Nat.and_two_pow_sub_one_eq_mod]
  omega

/-- A repeat count byte has its high bit set, and the count below it. -/
theorem toNat_ofNat_or_high {n : ℕ} (h : n ≤ 0x7f) : (UInt8.ofNat (n ||| 0x80)).toNat = 0x80 + n := by
  rw [Nat.lor_comm, Bits.or_eq_add_of_dvd (k := 7) (by norm_num) (by omega), UInt8.toNat_ofNat']
  omega

theorem ofNat_or_high_and_count {n : ℕ} (h : n ≤ 0x7f) :
    UInt8.ofNat (n ||| 0x80) &&& 0x7f = UInt8.ofNat n := by
  apply UInt8.toNat_inj.mp
  rw [UInt8.toNat_and, toNat_ofNat_or_high h, toNat_ofNat_of_le h,
    show (0x7f : UInt8).toNat = 2 ^ 7 - 1 from rfl, Nat.and_two_pow_sub_one_eq_mod]
  omega

theorem ofNat_or_high_ne {n : ℕ} (h : n ≤ 0x7f) : UInt8.ofNat (n ||| 0x80) ≠ UInt8.ofNat n := by
  intro heq
  have := congrArg UInt8.toNat heq
  rw [toNat_ofNat_or_high h, toNat_ofNat_of_le h] at this
  omega

/-- Each piece reads back on its own, given room for it. -/
theorem rle8DecompressFrom_piece {p : Piece} (hp : p.WF) {room : ℕ}
    (hroom : p.expand.length ≤ room) (rest : List UInt8) :
    rle8DecompressFrom room (p.bytes ++ rest) =
      (rle8DecompressFrom (room - p.expand.length) rest).map (p.expand ++ ·) := by
  cases p with
  | literal b =>
    obtain ⟨-, h127⟩ := hp
    simp only [Piece.expand] at hroom ⊢
    rw [Piece.bytes, List.cons_append, rle8DecompressFrom.eq_def]
    dsimp only
    rw [ofNat_and_count h127,
      toNat_ofNat_of_le h127, if_neg (by omega), if_pos rfl, if_neg (by simp),
      List.drop_left, List.take_left]
  | run b n =>
    obtain ⟨-, h127⟩ := hp
    simp only [Piece.expand, List.length_replicate] at hroom ⊢
    rw [Piece.bytes, List.cons_append, rle8DecompressFrom.eq_def]
    dsimp only
    rw [ofNat_or_high_and_count h127,
      toNat_ofNat_of_le h127, if_neg (by omega), if_neg (ofNat_or_high_ne h127)]
    rfl

/-- A stream of pieces reads back to their expansions, given room for them. -/
theorem rle8DecompressFrom_pieces :
    ∀ (ps : List Piece), (∀ p ∈ ps, p.WF) → ∀ room, (ps.flatMap Piece.expand).length ≤ room →
      rle8DecompressFrom room (ps.flatMap Piece.bytes) = some (ps.flatMap Piece.expand)
  | [], _, room, _ => by simp [rle8DecompressFrom]
  | p :: ps, hwf, room, hroom => by
    rw [List.flatMap_cons, List.length_append] at hroom
    rw [List.flatMap_cons, rle8DecompressFrom_piece (hwf p List.mem_cons_self) (by omega),
      rle8DecompressFrom_pieces ps (fun q hq => hwf q (List.mem_cons_of_mem _ hq)) _ (by omega),
      List.flatMap_cons]
    rfl

/-! ## The compressor writes pieces -/

theorem literalSpan_le (l : List UInt8) : literalSpan l ≤ l.length := by
  fun_induction literalSpan l with
  | case1 => exact Nat.zero_le _
  | case2 c d tail _ ih => simp only [List.length_cons] at ih ⊢; omega
  | case3 b c d tail _ ih => simp only [List.length_cons] at ih ⊢; omega
  | case4 a b c d tail _ ih => simp only [List.length_cons] at ih ⊢; omega
  | case5 => exact le_rfl

/-- The scan stops only where four equal bytes start. -/
theorem literalSpan_run (l : List UInt8) :
    ∀ {b : UInt8} {t : List UInt8}, l.drop (literalSpan l) = b :: t →
      t.take 3 = List.replicate 3 b := by
  fun_induction literalSpan l with
  | case1 d tail =>
    intro b t h
    obtain ⟨rfl, rfl⟩ := List.cons.inj h
    rfl
  | case2 c d tail _ ih =>
    intro b t h
    rw [← List.drop_drop] at h
    exact ih h
  | case3 b c d tail _ ih =>
    intro b' t h
    rw [← List.drop_drop] at h
    exact ih h
  | case4 a b c d tail _ ih =>
    intro b' t h
    rw [← List.drop_drop] at h
    exact ih h
  | case5 l =>
    intro b t h
    simp at h

/-- The run the compressor writes is `n` copies of its first byte. -/
theorem take_run {b : UInt8} {t : List UInt8} (h3 : t.take 3 = List.replicate 3 b) :
    (b :: t).take (4 + ((t.drop 3).takeWhile (· = b)).length) =
      List.replicate (4 + ((t.drop 3).takeWhile (· = b)).length) b := by
  set w := (t.drop 3).takeWhile (· = b)
  have hw : w = List.replicate w.length b :=
    List.eq_replicate_iff.mpr ⟨rfl, fun x hx => by simpa using List.mem_takeWhile_imp hx⟩
  have htake : (t.drop 3).take w.length = w :=
    (List.prefix_iff_eq_take.mp (List.takeWhile_prefix _)).symm
  rw [show 4 + w.length = (3 + w.length) + 1 by omega, List.take_succ_cons, List.take_add, h3,
    htake, hw, List.replicate_append_replicate, List.length_replicate, ← List.replicate_succ]

theorem putLiteral_pieces {tolen t : ℕ} {lit out : List UInt8}
    (h : putLiteral tolen lit = some (out, t)) :
    ∃ ps : List Piece, (∀ p ∈ ps, p.WF) ∧ out = ps.flatMap Piece.bytes ∧
      ps.flatMap Piece.expand = lit ∧ out.length + t = tolen := by
  fun_induction putLiteral tolen lit generalizing out t
  case case1 tolen =>
    cases h
    exact ⟨[], by simp, rfl, rfl, by simp⟩
  case case2 => cases h
  case case3 tolen lit hne len hroom ih =>
    obtain ⟨⟨out', t'⟩, h', hst⟩ := Option.map_eq_some_iff.mp h
    cases hst
    obtain ⟨ps, hwf, rfl, hexp, hlen⟩ := ih h'
    have hpos : 0 < lit.length := List.length_pos_iff.mpr hne
    have hchunk : (lit.take len).length = len := by simp [len]
    refine ⟨.literal (lit.take len) :: ps, ?_, ?_, ?_, ?_⟩
    · intro p hp
      rcases List.mem_cons.mp hp with rfl | hp
      · exact ⟨by omega, by omega⟩
      · exact hwf p hp
    · simp [Piece.bytes, hchunk]
    · rw [List.flatMap_cons, hexp, Piece.expand, List.take_append_drop]
    · simp only [List.length_cons, List.length_append, hchunk] at hlen ⊢
      omega

theorem putRun_pieces {tolen t n : ℕ} {b : UInt8} {out : List UInt8}
    (h : putRun tolen b n = some (out, t)) :
    ∃ ps : List Piece, (∀ p ∈ ps, p.WF) ∧ out = ps.flatMap Piece.bytes ∧
      ps.flatMap Piece.expand = List.replicate n b ∧ out.length + t = tolen := by
  fun_induction putRun tolen b n generalizing out t
  case case1 tolen =>
    cases h
    exact ⟨[], by simp, rfl, rfl, by simp⟩
  case case2 => cases h
  case case3 tolen n hne hroom len ih =>
    obtain ⟨⟨out', t'⟩, h', hst⟩ := Option.map_eq_some_iff.mp h
    cases hst
    obtain ⟨ps, hwf, rfl, hexp, hlen⟩ := ih h'
    refine ⟨.run b len :: ps, ?_, by simp [Piece.bytes], ?_, ?_⟩
    · intro p hp
      rcases List.mem_cons.mp hp with rfl | hp
      · exact ⟨by omega, by omega⟩
      · exact hwf p hp
    · rw [List.flatMap_cons, hexp, Piece.expand, List.replicate_append_replicate]
      congr 1
      omega
    · simp only [List.length_cons] at hlen ⊢
      omega

/-- The compressor's output is pieces that expand to its input, within the room
it was given. -/
theorem rle8CompressFrom_pieces {tolen : ℕ} {l out : List UInt8}
    (h : rle8CompressFrom tolen l = some out) :
    ∃ ps : List Piece, (∀ p ∈ ps, p.WF) ∧ out = ps.flatMap Piece.bytes ∧
      ps.flatMap Piece.expand = l ∧ out.length ≤ tolen := by
  fun_induction rle8CompressFrom tolen l generalizing out
  case case1 => cases h
  case case2 tolen l k lit tolen' hlit hr =>
    cases h
    obtain ⟨ps, hwf, rfl, hexp, hlen⟩ := putLiteral_pieces hlit
    refine ⟨ps, hwf, rfl, ?_, by omega⟩
    rw [hexp, List.take_of_length_le (by simpa using hr)]
  case case3 => cases h
  case case4 tolen l k lit tolen₁ hlit b t hr n run tolen₂ hrun ih =>
    obtain ⟨out', h', rfl⟩ := Option.map_eq_some_iff.mp h
    obtain ⟨ps₁, hwf₁, rfl, hexp₁, hlen₁⟩ := putLiteral_pieces hlit
    obtain ⟨ps₂, hwf₂, rfl, hexp₂, hlen₂⟩ := putRun_pieces hrun
    obtain ⟨ps₃, hwf₃, rfl, hexp₃, hlen₃⟩ := ih h'
    -- the literal, the run and the rest cover the input in order
    have hrun' : (b :: t).take n = List.replicate n b := take_run (literalSpan_run l hr)
    refine ⟨ps₁ ++ ps₂ ++ ps₃, ?_, by simp, ?_, ?_⟩
    · intro p hp
      simp only [List.mem_append] at hp
      rcases hp with (hp | hp) | hp
      · exact hwf₁ p hp
      · exact hwf₂ p hp
      · exact hwf₃ p hp
    · rw [List.flatMap_append, List.flatMap_append, hexp₁, hexp₂, hexp₃, ← hrun', ← hr,
        List.append_assoc, List.take_append_drop, List.take_append_drop]
    · simp only [List.length_append] at hlen₁ hlen₂ hlen₃ ⊢
      omega

/-- What `rle8_compress` writes fits its room and `rle8_decompress` reads it back. -/
theorem rle8Decompress_rle8Compress {src out : List UInt8} {tolen : ℕ}
    (h : rle8Compress src tolen = some out) :
    out.length ≤ tolen ∧ ∀ room, src.length ≤ room → rle8Decompress out room = some src := by
  unfold rle8Compress at h
  split at h
  · cases h
  · obtain ⟨ps, hwf, rfl, hexp, hlen⟩ := rle8CompressFrom_pieces h
    refine ⟨hlen, fun room hroom => ?_⟩
    rw [rle8Decompress, rle8DecompressFrom_pieces ps hwf room (by rw [hexp]; exact hroom), hexp]

/-! ## A run -/

theorem literalSpan_nil : literalSpan [] = 0 := by
  unfold literalSpan; simp

theorem putLiteral_nil (tolen : ℕ) : putLiteral tolen [] = some ([], tolen) := by
  rw [putLiteral, if_pos rfl]

theorem rle8CompressFrom_nil (tolen : ℕ) : rle8CompressFrom tolen [] = some [] := by
  rw [rle8CompressFrom]
  simp only [literalSpan_nil, List.take_zero, putLiteral_nil]
  split
  · rfl
  · rename_i b t hr
    simp at hr

/-- A run of four to 127 copies of a byte compresses to its count and the byte. -/
theorem rle8Compress_replicate (b : UInt8) {n tolen : ℕ} (h4 : 4 ≤ n) (h : n ≤ 0x7f) (ht : 2 ≤ tolen) :
    rle8Compress (List.replicate n b) tolen = some [UInt8.ofNat (n ||| 0x80), b] := by
  obtain ⟨k, rfl⟩ : ∃ k, n = k + 4 := ⟨n - 4, by omega⟩
  have hrep : List.replicate (k + 4) b = b :: b :: b :: b :: List.replicate k b := by
    simp [List.replicate_succ]
  have hspan : literalSpan (List.replicate (k + 4) b) = 0 := by
    rw [hrep, literalSpan]
    simp
  have hrun : putRun tolen b (k + 4) = some ([UInt8.ofNat ((k + 4) ||| 0x80), b], tolen - 2) := by
    have h0 : putRun (tolen - 2) b 0 = some ([], tolen - 2) := by rw [putRun, if_pos rfl]
    rw [putRun, if_neg (by omega), if_neg (by omega)]
    simp [Nat.min_eq_left h, h0]
  rw [rle8Compress, if_neg (by simp), rle8CompressFrom]
  simp only [hspan, List.take_zero, putLiteral_nil]
  split
  · rename_i hr
    rw [hspan] at hr
    simp at hr
  · rename_i b' t hr
    rw [hspan, List.drop_zero, hrep] at hr
    simp only [List.cons.injEq] at hr
    obtain ⟨rfl, rfl⟩ := hr
    -- the run goes on to the end of the input
    have hn : 4 + (List.takeWhile (fun x => decide (x = b))
        (List.drop 3 (b :: b :: b :: List.replicate k b))).length = k + 4 := by
      simp
      omega
    have hdrop : (b :: b :: b :: b :: List.replicate k b).drop (k + 4) = [] := by simp
    rw [hn, hrun]
    simp only [hdrop, rle8CompressFrom_nil, Option.map_some, List.append_nil, List.nil_append]

/-! ## The decompressor over a buffer -/

/-- What `rle8_decompress` does with a source buffer: it writes bytes and returns
their count, returns -1, or reads a byte outside the buffer. -/
inductive Outcome where
  | written (out : List UInt8)
  | failed
  | outside
  deriving DecidableEq, Repr

/-- The `memcpy` of `count` bytes from offset `start` of the source, byte by
byte; a byte past the end is `none`. -/
def readBytes (src : List UInt8) : ℕ → ℕ → Option (List UInt8)
  | _, 0 => some []
  | start, count + 1 =>
    src[start]?.bind fun b => (readBytes src (start + 1) count).map (b :: ·)

/-- The loop of `rle8_decompress` by offsets, as the C walks its pointers:
`fromPos` is `from_pos - from`, `out` what lies before `to_pos`.  Every read of
the source goes through `src[i]?`, so a read past the end shows as `.outside`. -/
def decompressLoop (src : List UInt8) (tolen fromPos : ℕ) (out : List UInt8) : Outcome :=
  if fromPos = src.length then .written out
  else
    match _hb : src[fromPos]? with
    | none => .outside
    | some byte =>
      let count := byte &&& 0x7f
      if out.length + count.toNat > tolen then .failed
      else if byte = count then
        if fromPos + 1 + count.toNat > src.length then .failed
        else
          match readBytes src (fromPos + 1) count.toNat with
          | none => .outside
          | some bs => decompressLoop src tolen (fromPos + 1 + count.toNat) (out ++ bs)
      else if fromPos + 1 = src.length then .failed
      else
        match src[fromPos + 1]? with
        | none => .outside
        | some b => decompressLoop src tolen (fromPos + 2) (out ++ List.replicate count.toNat b)
termination_by src.length - fromPos
decreasing_by
  all_goals
    have := (List.getElem?_eq_some_iff.1 _hb).1
    omega

/-- `rle8_decompress(from, fromlen, to, tolen)` on the buffer `from`. -/
def rle8DecompressBuf (src : List UInt8) (tolen : ℕ) : Outcome := decompressLoop src tolen 0 []

theorem readBytes_of_le {src : List UInt8} {start count : ℕ} (h : start + count ≤ src.length) :
    readBytes src start count = some ((src.drop start).take count) := by
  induction count generalizing start with
  | zero => rfl
  | succ count ih =>
    have hs : start < src.length := by omega
    rw [readBytes, List.getElem?_eq_getElem hs, Option.bind_some, ih (by omega),
      List.drop_eq_getElem_cons hs]
    rfl

/-- The buffer loop's outcome from what the list decoder returns. -/
def Outcome.ofOption (out : List UInt8) : Option (List UInt8) → Outcome
  | some o => .written (out ++ o)
  | none => .failed

/-- The buffer loop computes what the list decoder does, from any offset inside
the source: it never reads outside, and it writes or fails as the list decoder
does.  The induction is on the bytes left, each piece read being checked in
place. -/
theorem decompressLoop_eq (src : List UInt8) (tolen : ℕ) :
    ∀ n pos (out : List UInt8), src.length - pos = n → pos ≤ src.length → out.length ≤ tolen →
      decompressLoop src tolen pos out =
        Outcome.ofOption out (rle8DecompressFrom (tolen - out.length) (src.drop pos)) := by
  intro n
  induction n using Nat.strong_induction_on with
  | _ n ih =>
    intro pos out hn hpos hout
    rw [decompressLoop]
    by_cases hend : pos = src.length
    · subst hend
      simp [rle8DecompressFrom, Outcome.ofOption]
    have hlt : pos < src.length := by omega
    rw [if_neg hend, List.drop_eq_getElem_cons hlt]
    split
    · next hb => simp [List.getElem?_eq_getElem hlt] at hb
    next byte hb =>
    have hbyte : src[pos] = byte := by simpa [List.getElem?_eq_getElem hlt] using hb
    subst hbyte
    rw [rle8DecompressFrom.eq_def]
    dsimp only
    generalize hc : (src[pos] &&& 127).toNat = c
    by_cases hroom : out.length + c > tolen
    · rw [if_pos hroom, if_pos (show c > tolen - out.length by omega)]
      rfl
    rw [if_neg hroom, if_neg (show ¬c > tolen - out.length by omega)]
    by_cases hlit : src[pos] = src[pos] &&& 127
    · -- a literal piece: its bytes are read in place
      simp only [if_pos hlit]
      by_cases hshort : pos + 1 + c > src.length
      · rw [if_pos hshort, if_pos (show c > (List.drop (pos + 1) src).length by simp; omega)]
        rfl
      rw [if_neg hshort, if_neg (show ¬c > (List.drop (pos + 1) src).length by simp; omega),
        readBytes_of_le (by omega)]
      dsimp only
      rw [ih _ (by omega) _ _ rfl (by omega) (by simp; omega), List.drop_drop]
      have hlen : (out ++ List.take c (List.drop (pos + 1) src)).length = out.length + c := by
        simp; omega
      rw [hlen, Nat.sub_add_eq]
      cases rle8DecompressFrom (tolen - out.length - c) (List.drop (pos + 1 + c) src) <;>
        simp [Outcome.ofOption]
    · -- a run piece: its byte is read in place
      simp only [if_neg hlit]
      by_cases hlast : pos + 1 = src.length
      · rw [if_pos hlast, List.drop_eq_nil_of_le (by omega)]
        rfl
      have hlt' : pos + 1 < src.length := by omega
      rw [if_neg hlast, List.getElem?_eq_getElem hlt', List.drop_eq_getElem_cons hlt']
      dsimp only
      rw [ih _ (by omega) _ _ rfl (by omega) (by simp; omega)]
      have hlen : (out ++ List.replicate c src[pos + 1]).length = out.length + c := by simp
      rw [hlen, Nat.sub_add_eq]
      cases rle8DecompressFrom (tolen - out.length - c) (List.drop (pos + 2) src) <;>
        simp [Outcome.ofOption]

/-- The list decoder writes no more than its room. -/
theorem length_le_of_rle8DecompressFrom {room : ℕ} {src out : List UInt8}
    (h : rle8DecompressFrom room src = some out) : out.length ≤ room := by
  fun_induction rle8DecompressFrom room src generalizing out with
  | case1 => cases h; exact Nat.zero_le _
  | case2 | case3 | case5 => simp at h
  | case4 =>
    rename_i ih
    obtain ⟨o, ho, rfl⟩ := Option.map_eq_some_iff.1 h
    have := ih ho
    simp only [List.length_append, List.length_take]
    omega
  | case6 =>
    rename_i ih
    obtain ⟨o, ho, rfl⟩ := Option.map_eq_some_iff.1 h
    have := ih ho
    simp only [List.length_append, List.length_replicate]
    omega

theorem rle8DecompressBuf_eq (src : List UInt8) (tolen : ℕ) :
    rle8DecompressBuf src tolen = Outcome.ofOption [] (rle8Decompress src tolen) := by
  rw [rle8DecompressBuf, decompressLoop_eq src tolen _ 0 [] rfl (Nat.zero_le _) (Nat.zero_le _)]
  rfl

/-- What `rle8_compress` writes fits its room and `rle8_decompress` reads it back
from the buffer; and on every source buffer and room, `rle8_decompress` reads no
byte outside the buffer and writes no more than the room. -/
theorem rle8DecompressBuf_sound :
    (∀ (x out : List UInt8) (t : ℕ), rle8Compress x t = some out →
      out.length ≤ t ∧ ∀ m, x.length ≤ m → rle8DecompressBuf out m = .written x) ∧
    ∀ (y : List UInt8) (m : ℕ), rle8DecompressBuf y m ≠ .outside ∧
      ∀ out, rle8DecompressBuf y m = .written out → out.length ≤ m := by
  refine ⟨fun x out t h => ?_, fun y m => ?_⟩
  · obtain ⟨hlen, hdec⟩ := rle8Decompress_rle8Compress h
    exact ⟨hlen, fun m hm => by rw [rle8DecompressBuf_eq, hdec m hm]; rfl⟩
  · rw [rle8DecompressBuf_eq]
    cases h : rle8Decompress y m with
    | none => exact ⟨Outcome.noConfusion, fun out hout => Outcome.noConfusion hout⟩
    | some o =>
      refine ⟨Outcome.noConfusion, fun out hout => ?_⟩
      cases hout
      exact length_le_of_rle8DecompressFrom h

/-- The compressor succeeds on a run of four bytes, and the decompressor reads
its output back. -/
theorem rle8DecompressBuf_sound_nine :
    rle8Compress [9, 9, 9, 9] 2 = some [0x84, 9] ∧ ([0x84, 9] : List UInt8).length ≤ 2 ∧
      rle8DecompressBuf [0x84, 9] 4 = .written [9, 9, 9, 9] := by
  have h : rle8Compress [9, 9, 9, 9] 2 = some [0x84, 9] := rle8Compress_replicate 9 (n := 4) le_rfl (by decide) le_rfl
  exact ⟨h, (rle8DecompressBuf_sound.1 _ _ _ h).1, (rle8DecompressBuf_sound.1 _ _ _ h).2 4 le_rfl⟩

end Rle8
