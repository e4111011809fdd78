import Mathlib

/-!
# The buffered socket reader

A `COMDB2BUF` reads a socket through a buffer `rbuf`: the bytes
`rbuf[rtl .. rhd)` are read and not yet delivered, and an empty buffer is
refilled by one call of `sb->read`.  Above the buffer sits a stack of up to
`CDB2BUF_UNGETC_BUF_MAX` values that `cdb2buf_ungetc` pushed back;
`handle_appsock` pushes back the bytes of the first packet after its first
byte, and `cdb2buf_eof` pushes back the byte it peeks at.  What the reader has
still to deliver is `Sbuf.stream`: the pushed-back values, last pushed first,
then the buffered bytes, then the bytes of the reads to come.

`cdb2buf_getc` and `cdb2buf_gets` take from the front of that stream
(`cdb2bufGetc_cons`, `getsLoop_spec`), and `cdb2buf_ungetc` adds to it
(`cdb2bufUngetc_stream`).  So does `cdb2buf_fread` take from the front when at
most half of what it is asked for sits on the stack, rounded up
(`cdb2bufFread_spec`).  Its pushback loop tests `done < need`
while it counts `done` up and `need` down, so it stops halfway: asked for two
bytes with two pushed back, it takes one from the stack and one from the
buffer, and the other pushed-back byte comes later
(`cdb2bufFread_splits_pushback`).

`cdb2buf_ungetc` takes a `char`, which is signed on the x86-64 targets: the
byte `0xff` converts to `EOF` and is refused, and the bytes from `0x80` up are
stored as negative `int`s, which `cdb2buf_getc` returns as errors
(`cdb2buf_signed_char`).  The model takes the `char` as an `Int8`.

Reads return nonempty chunks until the input ends, where a read returns 0;
the retry of a read across an SSL downgrade and the `CDB2BUF_DEBUG_LAST_LINE`
copy of `cdb2buf_gets` are left out.
-/

namespace Cdb2buf

/-! ## The reader -/

/-- `CDB2BUF_UNGETC_BUF_MAX`. -/
def ungetcBufMax : ℕ := 8

/-- The read side of a `COMDB2BUF`: the stack `ungetc_buf[0 .. ungetc_buf_len)`
with its top first, the buffered bytes `rbuf[rtl .. rhd)`, and what the coming
calls of `sb->read` return. -/
structure Sbuf where
  ungetcBuf : List ℤ
  rbuf : List UInt8
  input : List (List UInt8)
deriving DecidableEq, Repr

/-- `cdb2buf_open(fd, 0)` on a socket whose reads return `input`. -/
def cdb2bufOpen (input : List (List UInt8)) : Sbuf := ⟨[], [], input⟩

/-- One call of `sb->read(sb, rbuf, lbuf - 1)`: the next chunk, whose length is
`rc`; at the end of the input, `rc = 0`. -/
def Sbuf.read (sb : Sbuf) : List UInt8 × Sbuf :=
  match sb.input with
  | [] => ([], sb)
  | chunk :: more => (chunk, { sb with input := more })

/-- `cdb2buf_getc(sb)`: the top of the stack, else the next buffered byte,
refilling an empty buffer by one read; `-1 + rc` when the read fails. -/
def cdb2bufGetc (sb : Sbuf) : ℤ × Sbuf :=
  match sb.ungetcBuf with
  | c :: rest => (c, { sb with ungetcBuf := rest })
  | [] =>
    let (rbuf, sb) := if sb.rbuf = [] then sb.read else (sb.rbuf, sb)
    match rbuf with
    | [] => (-1, sb)
    | b :: rest => (b.toNat, { sb with rbuf := rest })

/-- `cdb2buf_ungetc(c, sb)`: push the `int` the `char` converts to; a `char`
equal to `EOF`, or a full stack, is refused with `EOF`. -/
def cdb2bufUngetc (c : Int8) (sb : Sbuf) : ℤ × Sbuf :=
  if c.toInt = -1 ∨ sb.ungetcBuf.length = ungetcBufMax then (-1, sb)
  else (c.toInt, { sb with ungetcBuf := c.toInt :: sb.ungetcBuf })

/-- The loop of `cdb2buf_gets`, with room for `n` more bytes after `out`: stop
after a newline, and fail only on the first byte. -/
def getsLoop : ℕ → List UInt8 → Sbuf → ℤ × List UInt8 × Sbuf
  | 0, out, sb => (out.length, out, sb)
  | n + 1, out, sb =>
    let (cc, sb) := cdb2bufGetc sb
    if cc < 0 then (if out = [] then (cc, out, sb) else (out.length, out, sb))
    else if cc = 10 then ((out.length + 1 : ℕ), out ++ [UInt8.ofInt cc], sb)
    else getsLoop n (out ++ [UInt8.ofInt cc]) sb

/-- `cdb2buf_gets(out, lout, sb)`: the length of the line read, or the error
of its first byte, and the bytes written before the terminating NUL. -/
def cdb2bufGets (lout : ℤ) (sb : Sbuf) : ℤ × List UInt8 × Sbuf :=
  getsLoop (lout - 1).toNat [] sb

/-- The pushback loop of `cdb2buf_fread_int`: pop while `done < need`, where
each pop adds one to `done` and takes one from `need`. -/
def ungetcLoop : List ℤ → List UInt8 → ℕ → List ℤ × List UInt8 × ℕ
  | [], out, need => ([], out, need)
  | c :: rest, out, need =>
    if out.length < need then ungetcLoop rest (out ++ [UInt8.ofInt c]) (need - 1)
    else (c :: rest, out, need)

/-- The `while (1)` of `cdb2buf_fread_int`, over the buffered bytes and the
reads to come: copy what is buffered, and read again while bytes are needed;
a failed read returns the whole items copied. -/
def freadLoop (size nitems : ℕ) :
    ℕ → List UInt8 → List UInt8 → List (List UInt8) → ℤ × List UInt8 × List UInt8 × List (List UInt8)
  | need, out, rbuf, input =>
    let amt := min need rbuf.length
    let out := out ++ rbuf.take amt
    if amt < need then
      match input with
      | [] => ((out.length / size : ℕ), out, [], [])
      | [] :: more => ((out.length / size : ℕ), out, [], more)
      | chunk :: more => freadLoop size nitems (need - amt) out chunk more
    else (nitems, out, rbuf.drop amt, input)

/-- `cdb2buf_fread(ptr, size, nitems, sb)`, which is `cdb2buf_fread_int`
without a timeout flag: the items read and the bytes copied to `ptr`. -/
def cdb2bufFread (size nitems : ℕ) (sb : Sbuf) : ℤ × List UInt8 × Sbuf :=
  let (ungetcBuf, out, need) := ungetcLoop sb.ungetcBuf [] (size * nitems)
  let (rc, out, rbuf, input) := freadLoop size nitems need out sb.rbuf sb.input
  (rc, out, ⟨ungetcBuf, rbuf, input⟩)

/-- `cdb2buf_eof(sb)`: peek at the next byte and push it back through a
`char`; 0 when there is one, 1 at the end of the input. -/
def cdb2bufEof (sb : Sbuf) : ℤ × Sbuf :=
  let (i, sb) := cdb2bufGetc sb
  if 0 ≤ i then (0, (cdb2bufUngetc (Int8.ofInt i) sb).2) else (1, sb)

/-- The stream the reader has still to deliver. -/
def Sbuf.stream (sb : Sbuf) : List ℤ :=
  sb.ungetcBuf ++ (sb.rbuf ++ sb.input.flatten).map fun b => (b.toNat : ℤ)

/-! ## Taking from the front of the stream -/

/-- Every read to come returns some bytes: a read returns 0 only at the end. -/
def NoEmptyReads (sb : Sbuf) : Prop := [] ∉ sb.input

theorem ofInt_toNat (b : UInt8) : UInt8.ofInt (b.toNat : ℤ) = b := by
  apply UInt8.toNat_inj.mp
  rw [UInt8.ofInt, UInt8.toNat_ofNat']
  have := b.toNat_lt
  omega

/-- `cdb2buf_getc` delivers the front of a stream that has one. -/
theorem cdb2bufGetc_cons {sb : Sbuf} (hne : NoEmptyReads sb) {x : ℤ} {s : List ℤ}
    (hs : sb.stream = x :: s) :
    (cdb2bufGetc sb).1 = x ∧ (cdb2bufGetc sb).2.stream = s ∧ NoEmptyReads (cdb2bufGetc sb).2 := by
  rcases sb with ⟨_ | ⟨c, rest⟩, rbuf, input⟩
  · simp only [Sbuf.stream, List.nil_append] at hs
    rcases rbuf with _ | ⟨b, rbuf⟩
    · -- an empty buffer is refilled by a read, which returns the next chunk
      rcases input with _ | ⟨_ | ⟨b, chunk⟩, more⟩
      · cases hs
      · exact absurd (List.mem_cons_self ..) hne
      · simp only [List.nil_append, List.flatten_cons, List.cons_append, List.map_cons,
          List.cons.injEq] at hs
        refine ⟨hs.1, ?_, fun h => hne (List.mem_cons_of_mem _ h)⟩
        simp [cdb2bufGetc, Sbuf.read, Sbuf.stream, ← hs.2]
    · simp only [List.cons_append, List.map_cons, List.cons.injEq] at hs
      refine ⟨hs.1, ?_, hne⟩
      simp [cdb2bufGetc, Sbuf.stream, ← hs.2]
  · simp only [Sbuf.stream, List.cons_append, List.cons.injEq] at hs
    exact ⟨hs.1, by simp [cdb2bufGetc, Sbuf.stream, ← hs.2], hne⟩

/-- On an empty stream `cdb2buf_getc` fails and changes nothing. -/
theorem cdb2bufGetc_nil {sb : Sbuf} (hne : NoEmptyReads sb) (hs : sb.stream = []) :
    cdb2bufGetc sb = (-1, sb) := by
  rcases sb with ⟨ungetcBuf, rbuf, input⟩
  simp only [Sbuf.stream, List.append_eq_nil_iff, List.map_eq_nil_iff, List.flatten_eq_nil_iff] at hs
  obtain ⟨rfl, rfl, hi⟩ := hs
  -- no read returns nothing, so no read is left
  have hin : input = [] := by
    rcases input with _ | ⟨chunk, more⟩
    · rfl
    · exact absurd (hi chunk (List.mem_cons_self ..) ▸ List.mem_cons_self ..) hne
  subst hin
  rfl

/-- The pushback loop pops the whole stack when the stack, counted twice, is no
more than one over what is still needed. -/
theorem ungetcLoop_all : ∀ (st : List ℤ) (out : List UInt8) (need : ℕ),
    out.length + 2 * st.length ≤ need + 1 →
    ungetcLoop st out need = ([], out ++ st.map UInt8.ofInt, need - st.length)
  | [], out, need, _ => by simp [ungetcLoop]
  | c :: rest, out, need, h => by
    simp only [List.length_cons] at h
    rw [ungetcLoop, if_pos (by omega),
      ungetcLoop_all rest _ _ (by simp only [List.length_append, List.length_singleton]; omega)]
    simp only [List.append_assoc, List.map_cons, List.singleton_append, List.length_cons,
      Nat.sub_sub, Nat.add_comm 1]

/-- The read loop of `cdb2buf_fread_int` copies the next `need` bytes after the
buffered ones, or all there are, and counts whole items when the input ends
first. -/
theorem freadLoop_spec (size nitems : ℕ) : ∀ (input : List (List UInt8)) (need : ℕ)
    (out rbuf : List UInt8), [] ∉ input →
    let bytes := rbuf ++ input.flatten
    let r := freadLoop size nitems need out rbuf input
    r.2.1 = out ++ bytes.take need ∧ r.2.2.1 ++ r.2.2.2.flatten = bytes.drop need ∧
      [] ∉ r.2.2.2 ∧
      r.1 = if need ≤ bytes.length then (nitems : ℤ) else ((out.length + bytes.length) / size : ℕ)
  | input, need, out, rbuf, hne => by
    intro bytes r
    by_cases hb : need ≤ rbuf.length
    · -- the buffer holds all that is needed
      have hr : r = ((nitems : ℤ), out ++ rbuf.take need, rbuf.drop need, input) := by
        unfold r freadLoop
        rw [Nat.min_eq_left hb, if_neg (lt_irrefl _)]
      have hlen : need ≤ bytes.length := by simp only [bytes, List.length_append]; omega
      rw [hr]
      refine ⟨?_, ?_, hne, (if_pos hlen).symm⟩
      · rw [List.take_append_of_le_length hb]
      · rw [List.drop_append_of_le_length hb]
    · -- the buffer is copied whole, and the next chunk is read
      have hlt : rbuf.length < need := by omega
      rcases input with _ | ⟨_ | ⟨b, chunk⟩, more⟩
      · have hr : r = ((((out ++ rbuf).length / size : ℕ) : ℤ), out ++ rbuf, [], []) := by
          unfold r freadLoop
          rw [Nat.min_eq_right hlt.le, if_pos hlt, List.take_length]
        rw [hr]
        refine ⟨?_, ?_, List.not_mem_nil, ?_⟩
        · simp only [bytes, List.flatten_nil, List.append_nil, List.take_of_length_le hlt.le]
        · simp only [bytes, List.flatten_nil, List.append_nil, List.drop_eq_nil_of_le hlt.le]
        · simp only [bytes, List.flatten_nil, List.append_nil, List.length_append,
            if_neg (not_le.2 hlt)]
      · exact absurd (List.mem_cons_self ..) hne
      · have hne' : [] ∉ more := fun h => hne (List.mem_cons_of_mem _ h)
        have hr : r = freadLoop size nitems (need - rbuf.length) (out ++ rbuf) (b :: chunk) more := by
          unfold r
          rw [freadLoop, Nat.min_eq_right hlt.le, if_pos hlt, List.take_length]
          exact List.cons_ne_nil b chunk
        obtain ⟨h1, h2, h3, h4⟩ := freadLoop_spec size nitems more (need - rbuf.length) (out ++ rbuf)
          (b :: chunk) hne'
        rw [hr]
        refine ⟨?_, ?_, h3, ?_⟩
        · rw [h1]
          simp only [bytes, List.flatten_cons, List.take_append, List.take_of_length_le hlt.le,
            List.append_assoc]
        · rw [h2]
          simp only [bytes, List.flatten_cons, List.drop_append, List.drop_eq_nil_of_le hlt.le,
            List.nil_append]
        · rw [h4]
          simp only [bytes, List.flatten_cons, List.length_append, List.length_cons]
          -- the same test and the same count, with the buffered bytes moved across
          by_cases hfit : need ≤ rbuf.length + (chunk.length + 1 + more.flatten.length)
          · rw [if_pos (by omega), if_pos hfit]
          · rw [if_neg (by omega), if_neg hfit, Nat.add_assoc]

/-- `cdb2buf_ungetc` puts an accepted value on the front of the stream. -/
theorem cdb2bufUngetc_stream {sb : Sbuf} {c : Int8} (hc : c.toInt ≠ -1)
    (hlen : sb.ungetcBuf.length < ungetcBufMax) :
    (cdb2bufUngetc c sb).1 = c.toInt ∧ (cdb2bufUngetc c sb).2.stream = c.toInt :: sb.stream ∧
      (cdb2bufUngetc c sb).2.input = sb.input := by
  have hkeep : ¬(c.toInt = -1 ∨ sb.ungetcBuf.length = ungetcBufMax) := by
    rintro (h | h)
    · exact hc h
    · exact absurd h (Nat.ne_of_lt hlen)
  simp only [cdb2bufUngetc, if_neg hkeep, Sbuf.stream, List.cons_append, and_self]

/-- At most `n` values of `s`, up to and including the first newline. -/
def takeLine : ℕ → List ℤ → List ℤ
  | 0, _ => []
  | _, [] => []
  | n + 1, x :: s => if x = 10 then [x] else x :: takeLine n s

/-- `cdb2buf_gets` delivers the front of the stream up to a newline when the
stream holds bytes only: a pushed-back negative value would stop it as an
error. -/
theorem getsLoop_spec : ∀ (n : ℕ) (out : List UInt8) (sb : Sbuf), NoEmptyReads sb →
    (∀ x ∈ sb.stream, 0 ≤ x ∧ x < 256) →
    let r := getsLoop n out sb
    r.2.1 = out ++ (takeLine n sb.stream).map UInt8.ofInt ∧
      r.2.2.stream = sb.stream.drop (takeLine n sb.stream).length ∧ NoEmptyReads r.2.2 ∧
      r.1 = if 0 < n ∧ sb.stream = [] ∧ out = [] then -1
        else ((out.length + (takeLine n sb.stream).length : ℕ) : ℤ)
  | 0, out, sb, hne, _ => by
    simp [getsLoop, takeLine, hne]
  | n + 1, out, sb, hne, hbytes => by
    intro r
    cases hs : sb.stream with
    | nil =>
      have hr : r = (if out = [] then -1 else (out.length : ℤ), out, sb) := by
        simp only [r, getsLoop, cdb2bufGetc_nil hne hs, Int.reduceNeg, Left.neg_neg_iff,
          zero_lt_one, if_true]
        split_ifs <;> rfl
      rw [hr]
      refine ⟨by simp [takeLine], by simp [takeLine, hs], hne, ?_⟩
      by_cases ho : out = [] <;> simp [ho, takeLine]
    | cons x s =>
      obtain ⟨hx, hs', hne'⟩ := cdb2bufGetc_cons hne hs
      have hx0 : 0 ≤ x := (hbytes x (by rw [hs]; exact List.mem_cons_self ..)).1
      obtain ⟨sb1, hgetc⟩ : ∃ sb1, cdb2bufGetc sb = (x, sb1) := ⟨_, Prod.ext hx rfl⟩
      rw [hgetc] at hs' hne'
      dsimp only at hs' hne'
      by_cases hnl : x = 10
      · -- a newline ends the line
        have hr : r = (((out.length + 1 : ℕ) : ℤ), out ++ [UInt8.ofInt x], sb1) := by
          simp only [r, getsLoop, hgetc, if_neg (not_lt.2 hx0), if_pos hnl]
        rw [hr]
        refine ⟨by simp [takeLine, hnl], by simp [takeLine, hnl, hs'], hne', ?_⟩
        simp [takeLine, hnl]
      · -- another byte is stored, and the loop goes on
        have hr : r = getsLoop n (out ++ [UInt8.ofInt x]) sb1 := by
          simp only [r, getsLoop, hgetc, if_neg (not_lt.2 hx0), if_neg hnl]
        obtain ⟨h1, h2, h3, h4⟩ := getsLoop_spec n (out ++ [UInt8.ofInt x]) sb1 hne'
          (fun y hy => hbytes y (by rw [hs]; exact List.mem_cons_of_mem _ (hs' ▸ hy)))
        rw [hr]
        refine ⟨?_, ?_, h3, ?_⟩
        · rw [h1, hs']
          simp [takeLine, hnl]
        · rw [h2, hs']
          simp [takeLine, hnl]
        · rw [h4, hs']
          simp [takeLine, hnl]
          omega

theorem map_ofInt_bytes (l : List UInt8) : (l.map fun b => (b.toNat : ℤ)).map UInt8.ofInt = l := by
  simp only [List.map_map, Function.comp_def, ofInt_toNat, List.map_id']

/-- `cdb2buf_fread` delivers the front of the stream when at most half of the
bytes asked for, rounded up, sit on the stack: it copies the next
`size * nitems` bytes, or all there are, and counts the items read whole. -/
theorem cdb2bufFread_spec {sb : Sbuf} (hne : NoEmptyReads sb) {size nitems : ℕ}
    (hk : 2 * sb.ungetcBuf.length ≤ size * nitems + 1) :
    let r := cdb2bufFread size nitems sb
    r.2.1 = (sb.stream.take (size * nitems)).map UInt8.ofInt ∧
      r.2.2.stream = sb.stream.drop (size * nitems) ∧ NoEmptyReads r.2.2 ∧
      r.1 = if size * nitems ≤ sb.stream.length then (nitems : ℤ)
        else (sb.stream.length / size : ℕ) := by
  intro r
  have hkn : sb.ungetcBuf.length ≤ size * nitems := by omega
  -- the whole stack is popped first
  have hu := ungetcLoop_all sb.ungetcBuf [] (size * nitems) (by simpa using hk)
  obtain ⟨h1, h2, h3, h4⟩ := freadLoop_spec size nitems sb.input (size * nitems - sb.ungetcBuf.length)
    (sb.ungetcBuf.map UInt8.ofInt) sb.rbuf hne
  rcases hfl : freadLoop size nitems (size * nitems - sb.ungetcBuf.length)
    (sb.ungetcBuf.map UInt8.ofInt) sb.rbuf sb.input with ⟨rc, out, rbuf', input'⟩
  rw [hfl] at h1 h2 h3 h4
  dsimp only at h1 h2 h3 h4
  have hr : r = (rc, out, ⟨[], rbuf', input'⟩) := by
    simp only [r, cdb2bufFread, hu, List.nil_append, hfl]
  rw [hr]
  -- the stream is the stack, then the bytes of the buffer and of the reads
  have hstream : sb.stream = sb.ungetcBuf ++ (sb.rbuf ++ sb.input.flatten).map fun b => (b.toNat : ℤ) :=
    rfl
  have htake : sb.stream.take (size * nitems) = sb.ungetcBuf ++
      ((sb.rbuf ++ sb.input.flatten).map fun b => (b.toNat : ℤ)).take
        (size * nitems - sb.ungetcBuf.length) := by
    rw [hstream, List.take_append, List.take_of_length_le hkn]
  have hdrop : sb.stream.drop (size * nitems) =
      ((sb.rbuf ++ sb.input.flatten).map fun b => (b.toNat : ℤ)).drop
        (size * nitems - sb.ungetcBuf.length) := by
    rw [hstream, List.drop_append, List.drop_eq_nil_of_le hkn, List.nil_append]
  refine ⟨?_, ?_, h3, ?_⟩
  · show out = _
    rw [h1, htake, List.map_append, ← List.map_take, map_ofInt_bytes]
  · show [] ++ (rbuf' ++ input'.flatten).map _ = _
    rw [List.nil_append, h2, hdrop, List.map_drop]
  · show rc = _
    rw [h4, hstream]
    simp only [List.length_append, List.length_map]
    by_cases hfit : size * nitems ≤ sb.ungetcBuf.length + (sb.rbuf.length + sb.input.flatten.length)
    · rw [if_pos (by omega), if_pos hfit]
    · rw [if_neg (by omega), if_neg hfit]

/-- One byte pushed back, one buffered and one to read: an `fread` of two items
of one byte takes the pushed-back byte and the buffered one. -/
theorem cdb2bufFread_spec_twoItems :
    NoEmptyReads ⟨[0x42], [0x43], [[0x44]]⟩ ∧ 2 * [(0x42 : ℤ)].length ≤ 1 * 2 + 1 ∧
      let r := cdb2bufFread 1 2 ⟨[0x42], [0x43], [[0x44]]⟩
      r.2.1 = ((Sbuf.stream ⟨[0x42], [0x43], [[0x44]]⟩).take (1 * 2)).map UInt8.ofInt ∧
        r.2.2.stream = (Sbuf.stream ⟨[0x42], [0x43], [[0x44]]⟩).drop (1 * 2) ∧ NoEmptyReads r.2.2 ∧
        r.1 = if 1 * 2 ≤ (Sbuf.stream ⟨[0x42], [0x43], [[0x44]]⟩).length then ((2 : ℕ) : ℤ)
          else ((Sbuf.stream ⟨[0x42], [0x43], [[0x44]]⟩).length / 1 : ℕ) := by
  have hne : NoEmptyReads ⟨[0x42], [0x43], [[0x44]]⟩ := by simp [NoEmptyReads]
  have hk : 2 * [(0x42 : ℤ)].length ≤ 1 * 2 + 1 := by decide
  exact ⟨hne, hk, cdb2bufFread_spec hne hk⟩

/-! ## A read that splits the pushed-back bytes -/

/-- The pushback of `handle_appsock`: a reader on the socket with the bytes of
the first packet after its first one pushed back, the last first, so that the
second byte comes next. -/
def handleAppsock (req : List UInt8) (input : List (List UInt8)) : Sbuf :=
  (req.drop 1).reverse.foldl (fun sb b => (cdb2bufUngetc b.toInt8 sb).2) (cdb2bufOpen input)

/-- After a first packet `0x41 0x42 0x43` the stream goes on `0x42 0x43` and
then the socket's `0x44`.  An `fread` of two bytes takes `0x42` from the stack,
stops the pushback loop at `done = need = 1`, and takes `0x44` from the socket;
`0x43` stays on the stack and comes after it. -/
theorem cdb2bufFread_splits_pushback :
    (handleAppsock [0x41, 0x42, 0x43] [[0x44]]).stream = [0x42, 0x43, 0x44] ∧
      cdb2bufFread 1 2 (handleAppsock [0x41, 0x42, 0x43] [[0x44]]) =
        (2, [0x42, 0x44], ⟨[0x43], [], []⟩) := by
  decide

/-! ## Bytes through a signed `char` -/

/-- `cdb2buf_eof` peeks at a byte `0xff` and pushes it back as the `char` -1,
which `cdb2buf_ungetc` refuses as `EOF`: the byte is lost.  A pushed-back byte
`0x80` is stored as -128, which `cdb2buf_getc` returns, an error value, while
bytes remain. -/
theorem cdb2buf_signed_char :
    cdb2bufEof (cdb2bufOpen [[0xff, 0x41]]) = (0, ⟨[], [0x41], []⟩) ∧
      (cdb2bufGetc (cdb2bufUngetc (0x80 : UInt8).toInt8 (cdb2bufOpen [[0x41]])).2).1 = -128 := by
  decide

end Cdb2buf
