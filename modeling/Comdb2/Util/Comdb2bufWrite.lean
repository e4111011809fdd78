import Comdb2.Lib.Ring

/-!
# The buffered socket writer

A `COMDB2BUF` writes a socket through a ring buffer `wbuf` of `lbuf` bytes
(`cdb2buf_setbufsize`, at least 1024): the bytes from the tail `wtl` up to the
head `whd`, round past the end, wait to be written.  `cdb2buf_putc` and
`cdb2buf_write` store at the head and move it; both first flush a buffer whose
head is one byte behind its tail, so one byte always stays free.
`cdb2buf_write` copies as much as fits before the tail or the end at a time,
and leaves the head at `lbuf - 1` rather than wrap it while the tail is at 0.
`cdb2buf_flush` offers the socket the bytes from the tail to the head, or to
the end, and moves the tail past what `sb->write` takes, until the buffer is
empty; then it puts the head and tail at 0.

The ring is `Ring.view` of the library, and the calls are its operations:
`cdb2buf_putc` and `cdb2buf_write` are stores at the head that fit
(`Wbuf.Inv.moves_set`, `Wbuf.Inv.moves_copy`), and a flush hands the whole
contents to the socket when the socket takes at least one byte a call
(`flushLoop_spec`).  What the socket has taken, then what is buffered, is the
stream (`Wbuf.stream`); each call grows it by the bytes it hands over
(`Wbuf.Moves`), so any run of calls does (`runOps_spec`, `cdb2buf_stream`).

The loops run on fuel: a flush has a call for each byte of the buffer and one
more, a write a turn for each byte and one more.  The model keeps, besides the
C fields, the bytes the socket has taken.  The SSL downgrade retry of a flush,
the timeouts and the `CDB2BUF_DEBUG_LAST_LINE` copy of `cdb2buf_puts` are left
out, and `cdb2buf_setbufsize`'s read buffer is the reader's.
-/

namespace Cdb2buf

/-! ## The writer -/

/-- The write side of a `COMDB2BUF`: the ring `wbuf` of `lbuf` bytes with its
head `whd` and tail `wtl`, the `CDB2BUF_WRITE_LINE` flag, the state of the
socket that `sb->write` writes to, and, kept by the model only, the bytes the
socket has taken so far. -/
structure Wbuf (σ : Type) where
  lbuf : ℕ
  whd : ℕ
  wtl : ℕ
  wbuf : List UInt8
  writeLine : Bool
  sock : σ
  sent : List UInt8

variable {σ : Type} (write : σ → List UInt8 → σ × ℤ)

/-- The loop of `cdb2buf_flush_chk_timeout`, with the count `cnt` of bytes
written so far: offer the bytes from the tail to the head, or to the end of
the buffer, and move the tail past what `sb->write` takes.  Each call the
model allows takes a byte, so `fuel` bounds the calls; `none` is a loop that
would call more often. -/
def flushLoop : ℕ → ℤ → Wbuf σ → Option (ℤ × Wbuf σ)
  | 0, _, _ => none
  | fuel + 1, cnt, sb =>
    if sb.whd = sb.wtl then some (cnt, { sb with whd := 0, wtl := 0 })
    else
      let len := if sb.wtl > sb.whd then sb.lbuf - sb.wtl else sb.whd - sb.wtl
      let out := (sb.wbuf.drop sb.wtl).take len
      match write sb.sock out with
      | (sock, rc) =>
        if rc ≤ 0 then some (-1 + rc, { sb with sock := sock })
        else
          let wtl := sb.wtl + rc.toNat
          flushLoop fuel (cnt + rc)
            { sb with sock := sock, sent := sb.sent ++ out.take rc.toNat,
                      wtl := if wtl ≥ sb.lbuf then 0 else wtl }

/-- `cdb2buf_flush(sb)`. -/
def cdb2bufFlush (sb : Wbuf σ) : Option (ℤ × Wbuf σ) :=
  flushLoop write sb.lbuf 0 sb

/-- The test `cdb2buf_putc` and `cdb2buf_write` make before they store: a full
buffer, whose head is one byte behind its tail, is flushed first. -/
def flushIfFull (sb : Wbuf σ) : Option (ℤ × Wbuf σ) :=
  if (sb.whd = sb.lbuf - 1 ∧ sb.wtl = 0) ∨ sb.whd + 1 = sb.wtl then cdb2bufFlush write sb
  else some (0, sb)

/-- `cdb2buf_putc(sb, c)`. -/
def cdb2bufPutc (c : UInt8) (sb : Wbuf σ) : Option (ℤ × Wbuf σ) :=
  match flushIfFull write sb with
  | none => none
  | some (rc, sb) =>
    if rc < 0 then some (rc, sb)
    else
      let whd := sb.whd + 1
      let sb := { sb with wbuf := sb.wbuf.set sb.whd c, whd := if whd ≥ sb.lbuf then 0 else whd }
      if sb.writeLine ∧ c = 10 then
        match cdb2bufFlush write sb with
        | none => none
        | some (rc, sb) => if rc < 0 then some (rc, sb) else some (1, sb)
      else some (1, sb)

/-- The loop of `cdb2buf_puts`: put each byte before the NUL, counting them in
`ii`.  Past the list the string's NUL. -/
def putsLoop : List UInt8 → ℕ → Wbuf σ → Option (ℤ × Wbuf σ)
  | [], ii, sb => some (ii, sb)
  | c :: rest, ii, sb =>
    if c = 0 then some (ii, sb)
    else
      match cdb2bufPutc write c sb with
      | none => none
      | some (rc, sb) => if rc < 0 then some (rc, sb) else putsLoop rest (ii + 1) sb

/-- `cdb2buf_puts(sb, string)`. -/
def cdb2bufPuts (string : List UInt8) (sb : Wbuf σ) : Option (ℤ × Wbuf σ) :=
  putsLoop write string 0 sb

/-- The loop of `cdb2buf_write`, with `rest` the bytes `ptr[off ..]` still to
store and `written` the count stored: flush a full buffer, copy as much as fits
before the tail or the end, and move the head, to 0 at the end unless the tail
is at 0.  Each turn stores a byte, so `fuel` bounds the turns. -/
def writeLoop (nbytes : ℤ) : ℕ → List UInt8 → ℤ → Wbuf σ → Option (ℤ × Wbuf σ)
  | 0, _, _, _ => none
  | fuel + 1, rest, written, sb =>
    if rest.length = 0 then some (nbytes, sb)
    else
      match flushIfFull write sb with
      | none => none
      | some (rc, sb) =>
        if rc < 0 then some (written, sb)
        else
          let towrite := if sb.whd < sb.wtl then sb.wtl - sb.whd - 1
            else sb.lbuf - sb.whd - 1 + (if sb.wtl ≠ 0 then 1 else 0)
          let towrite := min towrite rest.length
          let sb := { sb with wbuf := Ring.writeAt sb.wbuf sb.whd (rest.take towrite),
                              whd := sb.whd + towrite }
          let sb := if sb.wtl = 0 ∧ sb.whd ≥ sb.lbuf - 1 then sb
            else if sb.whd ≥ sb.lbuf then { sb with whd := 0 } else sb
          writeLoop nbytes fuel (rest.drop towrite) (written + towrite) sb

/-- `cdb2buf_write(ptr, nbytes, sb)` of the `nbytes` bytes `ptr`. -/
def cdb2bufWrite (ptr : List UInt8) (sb : Wbuf σ) : Option (ℤ × Wbuf σ) :=
  writeLoop write ptr.length (ptr.length + 1) ptr 0 sb

/-- `cdb2buf_setbufsize(sb, size)`: a new, empty buffer of at least 1024 bytes,
whose contents `malloc` leaves unspecified and the model fills with zeros. -/
def cdb2bufSetbufsize (size : ℕ) (sb : Wbuf σ) : Wbuf σ :=
  let size := if size < 1024 then 1024 else size
  { sb with whd := 0, wtl := 0, lbuf := size, wbuf := List.replicate size 0 }

/-- The calls on the write side. -/
inductive Op
  | putc (c : UInt8)
  | puts (string : List UInt8)
  | write (ptr : List UInt8)
  | flush
deriving DecidableEq, Repr

/-- The bytes a call hands to the buffer. -/
def Op.bytes : Op → List UInt8
  | .putc c => [c]
  | .puts string => string.takeWhile (· != 0)
  | .write ptr => ptr
  | .flush => []

/-- One call. -/
def cdb2bufStep : Op → Wbuf σ → Option (ℤ × Wbuf σ)
  | .putc c, sb => cdb2bufPutc write c sb
  | .puts string, sb => cdb2bufPuts write string sb
  | .write ptr, sb => cdb2bufWrite write ptr sb
  | .flush, sb => cdb2bufFlush write sb

/-- A run of calls, with what each returns. -/
def runOps : List Op → Wbuf σ → Option (List ℤ × Wbuf σ)
  | [], sb => some ([], sb)
  | op :: ops, sb =>
    match cdb2bufStep write op sb with
    | none => none
    | some (rc, sb) =>
      match runOps ops sb with
      | none => none
      | some (rcs, sb) => some (rc :: rcs, sb)

/-! ## The stream -/

/-- The bytes in the buffer, from the tail to the head. -/
def Wbuf.contents (sb : Wbuf σ) : List UInt8 := Ring.view sb.wbuf sb.wtl sb.whd

/-- What the socket has taken, then what waits in the buffer. -/
def Wbuf.stream (sb : Wbuf σ) : List UInt8 := sb.sent ++ sb.contents

/-- The shape of a buffer from `cdb2buf_setbufsize`. -/
structure Wbuf.Inv (sb : Wbuf σ) : Prop where
  lbuf_ge : 1024 ≤ sb.lbuf
  whd_lt : sb.whd < sb.lbuf
  wtl_lt : sb.wtl < sb.lbuf
  length_wbuf : sb.wbuf.length = sb.lbuf

/-- A call took `sb` to `sb'` and handed `bytes` on: the shape is kept, and the
stream grew by `bytes`. -/
structure Wbuf.Moves (sb sb' : Wbuf σ) (bytes : List UInt8) : Prop where
  inv : sb'.Inv
  lbuf_eq : sb'.lbuf = sb.lbuf
  writeLine_eq : sb'.writeLine = sb.writeLine
  stream_eq : sb'.stream = sb.stream ++ bytes

/-- `sb->write` takes, on each call, from one byte to all it is offered. -/
def Accepts : Prop :=
  ∀ s out, out ≠ [] → 1 ≤ (write s out).2 ∧ (write s out).2 ≤ out.length

section Flush

variable {write}

theorem Wbuf.Inv.length_contents_lt {sb : Wbuf σ} (h : sb.Inv) : sb.contents.length < sb.lbuf :=
  Ring.length_view_lt h.length_wbuf h.wtl_lt h.whd_lt

/-- **The flush loop** hands the whole contents to the socket, in order, when
it has a call for each byte and one more. -/
theorem flushLoop_spec (hw : Accepts write) :
    ∀ fuel cnt (sb : Wbuf σ), sb.Inv → sb.contents.length < fuel →
      ∃ s, flushLoop write fuel cnt sb =
        some (cnt + sb.contents.length, { sb with whd := 0, wtl := 0, sock := s, sent := sb.stream }) := by
  intro fuel
  induction fuel with
  | zero => intro _ _ _ h; omega
  | succ fuel ih =>
    intro cnt sb hI hf
    rw [flushLoop]
    by_cases he : sb.whd = sb.wtl
    · rw [if_pos he]
      have hnil : sb.contents = [] := by rw [Wbuf.contents, he, Ring.view_self]
      exact ⟨sb.sock, by simp [Wbuf.stream, hnil]⟩
    · rw [if_neg he]
      -- the bytes offered are the first segment of the contents
      have hspan : (if sb.wtl > sb.whd then sb.lbuf - sb.wtl else sb.whd - sb.wtl) =
          Ring.span sb.lbuf sb.wtl sb.whd := rfl
      have hout : (sb.wbuf.drop sb.wtl).take (Ring.span sb.lbuf sb.wtl sb.whd) =
          (Ring.view sb.wbuf sb.wtl sb.whd).take (Ring.span sb.lbuf sb.wtl sb.whd) :=
        Ring.take_span hI.length_wbuf hI.wtl_lt
      have hle := Ring.span_le_length_view hI.length_wbuf hI.wtl_lt hI.whd_lt
      have hpos : 1 ≤ Ring.span sb.lbuf sb.wtl sb.whd := by
        have := hI.wtl_lt
        unfold Ring.span
        split_ifs <;> omega
      have hadv := fun r (hr : r ≤ Ring.span sb.lbuf sb.wtl sb.whd) =>
        Ring.view_advance hI.length_wbuf hI.wtl_lt hI.whd_lt hr
      dsimp only
      rw [hspan]
      generalize Ring.span sb.lbuf sb.wtl sb.whd = k at hout hle hpos hadv ⊢
      rw [hout]
      have hne : (sb.contents.take k) ≠ [] := by
        rw [Ne, ← List.length_eq_zero_iff, List.length_take]
        unfold Wbuf.contents
        omega
      obtain ⟨h1, h2⟩ := hw sb.sock _ hne
      rcases hwr : write sb.sock (Ring.view sb.wbuf sb.wtl sb.whd |>.take k) with ⟨s', rc⟩
      rw [Wbuf.contents, hwr] at h1 h2
      dsimp only at h1 h2
      rw [if_neg (by omega)]
      -- the socket took `rc` bytes; the tail moves past them
      have hr : rc.toNat ≤ k := by
        rw [List.length_take] at h2
        omega
      obtain ⟨s, hs⟩ := ih (cnt + rc)
        { sb with sock := s', sent := sb.sent ++ (sb.contents.take k).take rc.toNat,
                  wtl := Ring.wrap sb.lbuf (sb.wtl + rc.toNat) }
        ⟨hI.lbuf_ge, hI.whd_lt, Ring.wrap_lt (by have := hI.lbuf_ge; omega) _, hI.length_wbuf⟩
        (by
          show (Ring.view sb.wbuf _ sb.whd).length < fuel
          rw [hadv _ hr, List.length_drop]
          unfold Wbuf.contents at hf
          omega)
      refine ⟨s, ?_⟩
      rw [show (if sb.wtl + rc.toNat ≥ sb.lbuf then 0 else sb.wtl + rc.toNat) =
        Ring.wrap sb.lbuf (sb.wtl + rc.toNat) from rfl, ← Wbuf.contents, hs]
      simp only [Wbuf.stream, Wbuf.contents, hadv _ hr, List.length_drop, List.take_take,
        Nat.min_eq_left hr, List.append_assoc, List.take_append_drop]
      congr 2
      omega

theorem cdb2bufFlush_spec (hw : Accepts write) {sb : Wbuf σ} (hI : sb.Inv) :
    ∃ s, cdb2bufFlush write sb =
      some ((sb.contents.length : ℤ), { sb with whd := 0, wtl := 0, sock := s, sent := sb.stream }) := by
  obtain ⟨s, hs⟩ := flushLoop_spec hw sb.lbuf 0 sb hI hI.length_contents_lt
  exact ⟨s, by rw [cdb2bufFlush, hs, zero_add]⟩

/-- Whatever `sb->write` does, a flush that returns a count has emptied the
buffer and put its head and tail at 0. -/
theorem flushLoop_of_nonneg : ∀ fuel cnt (sb sb' : Wbuf σ) rc, 0 ≤ cnt →
    flushLoop write fuel cnt sb = some (rc, sb') → 0 ≤ rc → sb'.whd = 0 ∧ sb'.wtl = 0 := by
  intro fuel
  induction fuel with
  | zero => intro _ _ _ _ _ h; cases h
  | succ fuel ih =>
    intro cnt sb sb' rc hcnt h hrc
    rw [flushLoop] at h
    by_cases he : sb.whd = sb.wtl
    · rw [if_pos he] at h
      cases h
      exact ⟨rfl, rfl⟩
    · rw [if_neg he] at h
      dsimp only at h
      generalize write sb.sock ((sb.wbuf.drop sb.wtl).take
        (if sb.wtl > sb.whd then sb.lbuf - sb.wtl else sb.whd - sb.wtl)) = res at h
      obtain ⟨s', r⟩ := res
      dsimp only at h
      by_cases hle : r ≤ 0
      · -- a failed call returns `-1 + rc`, which is negative
        rw [if_pos hle] at h
        cases h
        omega
      · rw [if_neg hle] at h
        exact ih _ _ _ _ (by omega) h hrc

theorem Wbuf.Moves.refl {sb : Wbuf σ} (h : sb.Inv) : sb.Moves sb [] :=
  ⟨h, rfl, rfl, (List.append_nil _).symm⟩

theorem Wbuf.Moves.trans {sb₁ sb₂ sb₃ : Wbuf σ} {x y : List UInt8} (h₁ : sb₁.Moves sb₂ x)
    (h₂ : sb₂.Moves sb₃ y) : sb₁.Moves sb₃ (x ++ y) :=
  ⟨h₂.inv, h₂.lbuf_eq.trans h₁.lbuf_eq, h₂.writeLine_eq.trans h₁.writeLine_eq,
    by rw [h₂.stream_eq, h₁.stream_eq, List.append_assoc]⟩

/-- A flush moves the contents to the socket: the stream stays. -/
theorem Wbuf.Inv.moves_flushed {sb : Wbuf σ} (hI : sb.Inv) (s : σ) :
    sb.Moves { sb with whd := 0, wtl := 0, sock := s, sent := sb.stream } [] := by
  refine ⟨⟨hI.lbuf_ge, by have := hI.lbuf_ge; simp; omega, by have := hI.lbuf_ge; simp; omega,
    hI.length_wbuf⟩, rfl, rfl, ?_⟩
  simp [Wbuf.stream, Wbuf.contents, Ring.view_self]

theorem cdb2bufFlush_moves (hw : Accepts write) {sb : Wbuf σ} (hI : sb.Inv) :
    ∃ sb', cdb2bufFlush write sb = some ((sb.contents.length : ℤ), sb') ∧ sb.Moves sb' [] := by
  obtain ⟨s, hs⟩ := cdb2bufFlush_spec hw hI
  exact ⟨_, hs, hI.moves_flushed s⟩

/-- Before a store: the buffer, flushed if it was full, has room for a byte. -/
theorem flushIfFull_spec (hw : Accepts write) {sb : Wbuf σ} (hI : sb.Inv) :
    ∃ rc sb', flushIfFull write sb = some (rc, sb') ∧ 0 ≤ rc ∧ sb.Moves sb' [] ∧
      1 ≤ Ring.room sb'.lbuf sb'.wtl sb'.whd := by
  unfold flushIfFull
  split_ifs with hfull
  · obtain ⟨s, hs⟩ := cdb2bufFlush_spec hw hI
    refine ⟨_, _, hs, Int.natCast_nonneg _, hI.moves_flushed s, ?_⟩
    have := hI.lbuf_ge
    simp [Ring.room]
    omega
  · refine ⟨0, sb, rfl, le_rfl, .refl hI, ?_⟩
    have := (Ring.room_eq_zero_iff hI.wtl_lt hI.whd_lt).not.2 hfull
    omega

/-- A store of `src` at the head, where it fits, ends the contents with it. -/
theorem Wbuf.Inv.moves_writeAt {sb : Wbuf σ} (hI : sb.Inv) {src : List UInt8}
    (hk : src.length ≤ Ring.room sb.lbuf sb.wtl sb.whd) :
    sb.Moves { sb with wbuf := Ring.writeAt sb.wbuf sb.whd src,
                       whd := Ring.wrap sb.lbuf (sb.whd + src.length) } src := by
  have hroom : sb.whd + src.length ≤ sb.lbuf := by
    have := hI.wtl_lt
    have := hI.whd_lt
    unfold Ring.room at hk
    split_ifs at hk <;> omega
  refine ⟨⟨hI.lbuf_ge, Ring.wrap_lt (by have := hI.lbuf_ge; omega) _, hI.wtl_lt, ?_⟩, rfl, rfl, ?_⟩
  · rw [Ring.length_writeAt (by rw [hI.length_wbuf]; exact hroom), hI.length_wbuf]
  · simp only [Wbuf.stream, Wbuf.contents]
    rw [Ring.view_writeAt hI.length_wbuf hI.wtl_lt hI.whd_lt hk, List.append_assoc]

theorem Wbuf.Inv.moves_set {sb : Wbuf σ} (hI : sb.Inv) (c : UInt8)
    (hroom : 1 ≤ Ring.room sb.lbuf sb.wtl sb.whd) :
    sb.Moves { sb with wbuf := sb.wbuf.set sb.whd c,
                       whd := if sb.whd + 1 ≥ sb.lbuf then 0 else sb.whd + 1 } [c] := by
  have h := hI.moves_writeAt (show [c].length ≤ _ from hroom)
  rwa [Ring.writeAt_singleton c (by rw [hI.length_wbuf]; exact hI.whd_lt)] at h

/-- The copy of `cdb2buf_write` and its move of the head, which skips the wrap
when the tail is at 0: where the chunk fits, this is the store at the head. -/
theorem Wbuf.Inv.moves_copy {sb : Wbuf σ} (hI : sb.Inv) {src : List UInt8} {k : ℕ}
    (hsrc : src.length = k) (hk : k ≤ Ring.room sb.lbuf sb.wtl sb.whd) :
    sb.Moves
      (if sb.wtl = 0 ∧ sb.whd + k ≥ sb.lbuf - 1 then
        { sb with wbuf := Ring.writeAt sb.wbuf sb.whd src, whd := sb.whd + k }
      else if sb.whd + k ≥ sb.lbuf then { sb with wbuf := Ring.writeAt sb.wbuf sb.whd src, whd := 0 }
      else { sb with wbuf := Ring.writeAt sb.wbuf sb.whd src, whd := sb.whd + k }) src := by
  subst hsrc
  have h := hI.moves_writeAt hk
  have := hI.whd_lt
  unfold Ring.wrap at h
  unfold Ring.room at hk
  split_ifs at h hk ⊢ <;> first | exact h | omega

theorem towrite_eq_room {sb : Wbuf σ} (hI : sb.Inv) :
    (if sb.whd < sb.wtl then sb.wtl - sb.whd - 1
      else sb.lbuf - sb.whd - 1 + (if sb.wtl ≠ 0 then 1 else 0)) = Ring.room sb.lbuf sb.wtl sb.whd := by
  have := hI.whd_lt
  unfold Ring.room
  split_ifs <;> omega

end Flush

/-! ## The calls -/

section Calls

variable {write}

/-- **`cdb2buf_putc`** hands the byte to the buffer and returns 1. -/
theorem cdb2bufPutc_spec (hw : Accepts write) {sb : Wbuf σ} (hI : sb.Inv) (c : UInt8) :
    ∃ sb', cdb2bufPutc write c sb = some (1, sb') ∧ sb.Moves sb' [c] := by
  obtain ⟨rc, sb₁, hff, hrc, hm₁, hroom⟩ := flushIfFull_spec hw hI
  have hm₂ := hm₁.inv.moves_set c hroom
  unfold cdb2bufPutc
  rw [hff]
  dsimp only
  rw [if_neg (by omega)]
  by_cases hnl : sb₁.writeLine = true ∧ c = 10
  · -- `CDB2BUF_WRITE_LINE` flushes after a newline
    obtain ⟨sb₃, hfl, hm₃⟩ := cdb2bufFlush_moves hw hm₂.inv
    rw [if_pos hnl, hfl]
    dsimp only
    rw [if_neg (by omega)]
    exact ⟨_, rfl, by simpa using (hm₁.trans hm₂).trans hm₃⟩
  · rw [if_neg hnl]
    exact ⟨_, rfl, by simpa using hm₁.trans hm₂⟩

/-- `cdb2buf_puts` hands on the bytes before the NUL and counts them. -/
theorem putsLoop_spec (hw : Accepts write) :
    ∀ (string : List UInt8) (ii : ℕ) (sb : Wbuf σ), sb.Inv →
      ∃ sb', putsLoop write string ii sb =
          some (((ii + (string.takeWhile (· != 0)).length : ℕ) : ℤ), sb') ∧
        sb.Moves sb' (string.takeWhile (· != 0)) := by
  intro string
  induction string with
  | nil => intro ii sb hI; exact ⟨sb, rfl, .refl hI⟩
  | cons c rest ih =>
    intro ii sb hI
    by_cases hc : c = 0
    · subst hc
      exact ⟨sb, rfl, .refl hI⟩
    · obtain ⟨sb₁, hp, hm₁⟩ := cdb2bufPutc_spec hw hI c
      obtain ⟨sb₂, hl, hm₂⟩ := ih (ii + 1) sb₁ hm₁.inv
      rw [putsLoop, if_neg hc, hp]
      dsimp only
      rw [if_neg (by omega), hl, List.takeWhile_cons_of_pos (by simpa using hc)]
      refine ⟨sb₂, ?_, hm₁.trans hm₂⟩
      simp only [List.length_cons]
      congr 2
      omega

/-- **The loop of `cdb2buf_write`** hands on every byte left, when it has a turn
for each byte and one more. -/
theorem writeLoop_spec (hw : Accepts write) (nbytes : ℤ) :
    ∀ fuel (rest : List UInt8) (written : ℤ) (sb : Wbuf σ), sb.Inv → rest.length < fuel →
      ∃ sb', writeLoop write nbytes fuel rest written sb = some (nbytes, sb') ∧ sb.Moves sb' rest := by
  intro fuel
  induction fuel with
  | zero => intro _ _ _ _ h; omega
  | succ fuel ih =>
    intro rest written sb hI hf
    rw [writeLoop]
    by_cases h0 : rest.length = 0
    · rw [if_pos h0, List.eq_nil_of_length_eq_zero h0]
      exact ⟨sb, rfl, .refl hI⟩
    · rw [if_neg h0]
      obtain ⟨rc, sb₁, hff, hrc, hm₁, hroom⟩ := flushIfFull_spec hw hI
      rw [hff]
      dsimp only
      rw [if_neg (by omega), towrite_eq_room hm₁.inv]
      -- each turn stores at least one byte: the room after the flush
      have hk : 1 ≤ min (Ring.room sb₁.lbuf sb₁.wtl sb₁.whd) rest.length := by omega
      generalize hk' : min (Ring.room sb₁.lbuf sb₁.wtl sb₁.whd) rest.length = k at hk ⊢
      have hsrc : (rest.take k).length = k := by simp; omega
      have hm₂ := hm₁.inv.moves_copy hsrc (by omega)
      obtain ⟨sb₃, hl, hm₃⟩ := ih (rest.drop k) (written + k) _ hm₂.inv (by simp; omega)
      refine ⟨sb₃, hl, ?_⟩
      simpa using (hm₁.trans hm₂).trans hm₃

theorem cdb2bufWrite_spec (hw : Accepts write) {sb : Wbuf σ} (hI : sb.Inv) (ptr : List UInt8) :
    ∃ sb', cdb2bufWrite write ptr sb = some ((ptr.length : ℤ), sb') ∧ sb.Moves sb' ptr :=
  writeLoop_spec hw _ _ ptr 0 sb hI (Nat.lt_succ_self _)

theorem cdb2bufStep_spec (hw : Accepts write) {sb : Wbuf σ} (hI : sb.Inv) (op : Op) :
    ∃ rc sb', cdb2bufStep write op sb = some (rc, sb') ∧ sb.Moves sb' op.bytes := by
  cases op with
  | putc c =>
    obtain ⟨sb', h, hm⟩ := cdb2bufPutc_spec hw hI c
    exact ⟨_, _, h, hm⟩
  | puts string =>
    obtain ⟨sb', h, hm⟩ := putsLoop_spec hw string 0 sb hI
    exact ⟨_, _, h, hm⟩
  | write ptr =>
    obtain ⟨sb', h, hm⟩ := cdb2bufWrite_spec hw hI ptr
    exact ⟨_, _, h, hm⟩
  | flush =>
    obtain ⟨sb', h, hm⟩ := cdb2bufFlush_moves hw hI
    exact ⟨_, _, h, hm⟩

/-- Every run of calls keeps the shape and hands on its bytes in order. -/
theorem runOps_spec (hw : Accepts write) :
    ∀ (ops : List Op) (sb : Wbuf σ), sb.Inv →
      ∃ rcs sb', runOps write ops sb = some (rcs, sb') ∧ sb.Moves sb' (ops.flatMap Op.bytes) := by
  intro ops
  induction ops with
  | nil => intro sb hI; exact ⟨[], sb, rfl, .refl hI⟩
  | cons op ops ih =>
    intro sb hI
    obtain ⟨rc, sb₁, hs, hm₁⟩ := cdb2bufStep_spec hw hI op
    obtain ⟨rcs, sb₂, hr, hm₂⟩ := ih sb₁ hm₁.inv
    refine ⟨rc :: rcs, sb₂, ?_, by simpa using hm₁.trans hm₂⟩
    rw [runOps, hs]
    dsimp only
    rw [hr]

theorem cdb2bufSetbufsize_inv (size : ℕ) (sb : Wbuf σ) : (cdb2bufSetbufsize size sb).Inv := by
  -- the size is at least 1024 either way
  have h : 1024 ≤ if size < 1024 then 1024 else size := by split_ifs <;> omega
  refine ⟨?_, ?_, ?_, List.length_replicate⟩ <;> simp only [cdb2bufSetbufsize] <;> omega

theorem cdb2bufSetbufsize_stream (size : ℕ) (sb : Wbuf σ) :
    (cdb2bufSetbufsize size sb).stream = sb.sent := by
  simp [cdb2bufSetbufsize, Wbuf.stream, Wbuf.contents, Ring.view_self]

/-- **The writer keeps the stream.**  After `cdb2buf_setbufsize` and any calls
of `cdb2buf_putc`, `cdb2buf_puts`, `cdb2buf_write` and `cdb2buf_flush`, with a
socket that takes one byte or more of what it is offered, what the socket took
and then what is buffered are what the calls handed over, in order; the head
and the tail stay in the buffer, which holds at most `lbuf - 1` bytes.  A flush
that returns a count leaves nothing buffered and the head and tail at 0. -/
theorem cdb2buf_stream (write : σ → List UInt8 → σ × ℤ) (hw : Accepts write) (size : ℕ)
    (sb : Wbuf σ) (ops : List Op) :
    (∃ rcs sb', runOps write ops (cdb2bufSetbufsize size sb) = some (rcs, sb') ∧
      sb'.sent ++ sb'.contents = sb.sent ++ ops.flatMap Op.bytes ∧
      1024 ≤ sb'.lbuf ∧ sb'.whd < sb'.lbuf ∧ sb'.wtl < sb'.lbuf ∧ sb'.contents.length ≤ sb'.lbuf - 1) ∧
    ∀ (sb₁ sb₂ : Wbuf σ) (rc : ℤ), cdb2bufFlush write sb₁ = some (rc, sb₂) → 0 ≤ rc →
      sb₂.contents = [] ∧ sb₂.whd = 0 ∧ sb₂.wtl = 0 := by
  constructor
  · obtain ⟨rcs, sb', hr, hm⟩ := runOps_spec hw ops _ (cdb2bufSetbufsize_inv size sb)
    have hlt := hm.inv.length_contents_lt
    refine ⟨rcs, sb', hr, ?_, hm.inv.lbuf_ge, hm.inv.whd_lt, hm.inv.wtl_lt, by omega⟩
    rw [← cdb2bufSetbufsize_stream size sb]
    exact hm.stream_eq
  · intro sb₁ sb₂ rc hf hrc
    obtain ⟨hhd, htl⟩ := flushLoop_of_nonneg _ _ sb₁ sb₂ rc le_rfl hf hrc
    refine ⟨?_, hhd, htl⟩
    rw [Wbuf.contents, hhd, htl, Ring.view_self]

/-- A socket that takes all it is offered. -/
def acceptAll (s : Unit) (out : List UInt8) : Unit × ℤ := (s, out.length)

theorem acceptAll_accepts : Accepts acceptAll := by
  intro _ out hne
  simp only [acceptAll]
  have := List.length_pos_of_ne_nil hne
  omega

theorem cdb2buf_stream_acceptAll :
    Accepts acceptAll ∧
      ∃ rcs sb', runOps acceptAll [.putc 0x41, .write [0x42, 0x43], .flush]
          (cdb2bufSetbufsize 0 ⟨0, 0, 0, [], false, (), []⟩) = some (rcs, sb') ∧
        sb'.sent ++ sb'.contents = [] ++ [Op.putc 0x41, .write [0x42, 0x43], .flush].flatMap Op.bytes ∧
        1024 ≤ sb'.lbuf ∧ sb'.whd < sb'.lbuf ∧ sb'.wtl < sb'.lbuf ∧
        sb'.contents.length ≤ sb'.lbuf - 1 :=
  ⟨acceptAll_accepts, (cdb2buf_stream acceptAll acceptAll_accepts 0 ⟨0, 0, 0, [], false, (), []⟩
    [.putc 0x41, .write [0x42, 0x43], .flush]).1⟩

end Calls

end Cdb2buf
