import Comdb2.Comdb2rle.Format

/-!
# The field-hinted CRLE encoder

`compressComdb2RLE_hints` compresses a record field by field.  The hints are the
field sizes, ending at a zero.  For each field it looks for four things: the
field's bytes repeating right after it (`repeats`), a well-known pattern
(`well_known`), and a run of equal bytes at the field's end (`repeats_rev`).
What it finds decides what it writes:
* a well-known pattern, as `encode_wellknown`;
* a repeat of the field, as `encode_repeat`;
* a trailing run, with the field's other bytes as a literal before it
  (`encode_repeat_rev`);
* nothing, and the field joins the pending literal `prev`.
The pending literal is written before any other chunk (`encode_prev_rev`, which
itself splits off a trailing run), and once more at the end.  A repeat can run
past the end of its field; the encoder then walks the hints to the field where
it stopped and treats the rest of that field as the trailing-run case does.

The input pointer is the offset `pos` into the record, the output the list of
bytes written, and `cap` the output capacity.  Every writer checks the room it
needs first and fails (`none`, the C's return of 1) when it is short.

The encoder never writes past `cap`, and what it writes decompresses to the
record (`compressComdb2RLEHints_roundTrip`), as long as the record is short
enough for its `uint32_t` counters.  The bound is needed: a record of `2 ^ 32`
bytes that nothing compresses wraps `prev` to 0, and the encoder succeeds with
an empty output.

The scans find what they are meant to.  `repeats` returns the largest count of
repeats of the first chunk, whatever the chunk size, the quad scan for one byte
included (`repeats_largest`); its count is a `uint32_t`, so a run of more than
`2 ^ 32` equal bytes comes back as a smaller count (`repeats_wraps`).
-/

namespace Crle

/-! ## Scanning the input -/

/-- The bytes at the front of `l` equal to `b`. -/
def byteRun (b : UInt8) : List UInt8 → ℕ
  | [] => 0
  | c :: l => if c = b then byteRun b l + 1 else 0

/-- The chunks of `sz` bytes at the front of `l` equal to `c`, at most `k` of them. -/
def chunkRun (c : List UInt8) (sz : ℕ) : ℕ → List UInt8 → ℕ
  | 0, _ => 0
  | k + 1, l => if l.take sz = c then chunkRun c sz k (l.drop sz) + 1 else 0

/-- `repeats`: how many times the first `sz` bytes of `input` repeat right after
themselves.  For one byte, inputs over 16 bytes are first scanned a `uint64_t`
quad, eight bytes, at a time; the byte scan then starts at the last whole quad
of equal bytes.  The two-byte case compares `uint16_t` words, which is the
general chunk comparison. -/
def repeats (input : List UInt8) (sz : ℕ) : ℕ :=
  if input.length < sz * 2 then 0
  else if sz = 1 then
    let bt := input.headD 0
    let bp :=
      if input.length > 16 then
        let q := chunkRun (List.replicate 8 bt) 8 (input.length / 8) input
        if q = 0 then 1 else if q < input.length / 8 then 8 * (q - 1) else 8 * q
      else 1
    u32 (bp + byteRun bt (input.drop bp) - 1)
  else u32 (chunkRun (input.take sz) sz (input.length / sz - 1) (input.drop sz))

/-- `well_known`: the first well-known pattern of size `s` that `d` starts with. -/
def wellKnown (d : List UInt8) (s : ℕ) : Option ℕ :=
  (List.range maxpat).find? fun i => s = psizes i ∧ d.take (psizes i) = patterns.getD i []

/-- `repeats_rev`: how many bytes before the field's last byte equal it, counting
back from the end. -/
def repeatsRev (field : List UInt8) : ℕ :=
  match field.reverse with
  | [] => 0
  | b :: before => u32 (byteRun b before)

/-- `space_reqd`: the bytes a chunk of `r + 1` repeats of an `s`-byte pattern
takes; `s = 0` for a well-known pattern. -/
def spaceReqd (r s : ℕ) : ℕ :=
  u32 (1 + (if r > hmax then varintNeed (u32 (r - hmax)) else 0) +
    (if s > 1 then varintNeed s + s else s))

/-! ## What the scans find -/

/-- The `sz`-byte chunk at the front of `input` repeats `r` more times right after
itself. -/
def IsRepeat (input : List UInt8) (sz r : ℕ) : Prop :=
  sz * (r + 1) ≤ input.length ∧
    input.take (sz * (r + 1)) = (List.replicate (r + 1) (input.take sz)).flatten

/-- The last `r + 1` bytes of `field` are one byte. -/
def TrailingRun (field : List UInt8) (r : ℕ) : Prop :=
  r < field.length ∧ ∃ b, field.drop (field.length - (r + 1)) = List.replicate (r + 1) b

theorem byteRun_le_length (b : UInt8) (l : List UInt8) : byteRun b l ≤ l.length := by
  induction l with
  | nil => simp [byteRun]
  | cons c l ih =>
    rw [byteRun]
    split
    · simpa using ih
    · exact Nat.zero_le _

theorem take_byteRun (b : UInt8) (l : List UInt8) :
    l.take (byteRun b l) = List.replicate (byteRun b l) b := by
  induction l with
  | nil => simp [byteRun]
  | cons c l ih =>
    rw [byteRun]
    split
    · next hc => rw [List.take_succ_cons, ih, hc, List.replicate_succ]
    · rfl

theorem byteRun_replicate_append (b : UInt8) (n : ℕ) (l : List UInt8) :
    byteRun b (List.replicate n b ++ l) = n + byteRun b l := by
  induction n with
  | zero => simp
  | succ n ih => rw [List.replicate_succ, List.cons_append, byteRun, if_pos rfl, ih]; omega

theorem chunkRun_le (c : List UInt8) (sz : ℕ) : ∀ k l, chunkRun c sz k l ≤ k
  | 0, _ => le_refl _
  | k + 1, l => by
    rw [chunkRun]
    split
    · exact Nat.succ_le_succ (chunkRun_le c sz k _)
    · exact Nat.zero_le _

theorem take_chunkRun {c : List UInt8} {sz : ℕ} (k : ℕ) (l : List UInt8) :
    l.take (sz * chunkRun c sz k l) = (List.replicate (chunkRun c sz k l) c).flatten := by
  induction k generalizing l with
  | zero => simp [chunkRun]
  | succ k ih =>
    rw [chunkRun]
    split
    · next hl =>
      rw [Nat.mul_succ, Nat.add_comm, List.take_add, hl, ih, List.replicate_succ,
        List.flatten_cons]
    · simp

/-- Where the one-byte scan starts its byte loop does not matter, as long as the
bytes before it are the first byte. -/
theorem byteRun_of_take {b : UInt8} {l : List UInt8} {bp : ℕ}
    (htake : l.take bp = List.replicate bp b) :
    bp + byteRun b (l.drop bp) = byteRun b l := by
  conv_rhs => rw [← List.take_append_drop bp l, htake, byteRun_replicate_append]

theorem repeats_one {input : List UInt8} (h2 : 2 ≤ input.length) (hlt : input.length < 2 ^ 32) :
    repeats input 1 = byteRun (input.headD 0) input - 1 := by
  rw [repeats, if_neg (by omega), if_pos rfl]
  simp only
  set bt := input.headD 0
  have hstart : ∀ bp, input.take bp = List.replicate bp bt →
      u32 (bp + byteRun bt (input.drop bp) - 1) = byteRun bt input - 1 := by
    intro bp htake
    rw [byteRun_of_take htake]
    exact u32_of_lt (by have := byteRun_le_length bt input; omega)
  have hfirst : input.take 1 = List.replicate 1 bt := by
    obtain ⟨a, l, rfl⟩ := List.exists_cons_of_length_pos (by omega : 0 < input.length)
    rfl
  -- the quads the scan passes are all `bt`
  set q := chunkRun (List.replicate 8 bt) 8 (input.length / 8) input
  have hq : input.take (8 * q) = List.replicate (8 * q) bt := by
    rw [take_chunkRun, List.flatten_replicate_replicate, Nat.mul_comm]
  have hbelow : ∀ bp ≤ 8 * q, input.take bp = List.replicate bp bt := by
    intro bp hbp
    rw [← Nat.min_eq_left hbp, ← List.take_take, hq, List.take_replicate, Nat.min_eq_left hbp]
  split_ifs
  · exact hstart 1 hfirst
  · exact hstart _ (hbelow _ (by omega))
  · exact hstart _ (hbelow _ le_rfl)
  · exact hstart 1 hfirst

theorem isRepeat_zero {input : List UInt8} {sz : ℕ} (hle : sz ≤ input.length) :
    IsRepeat input sz 0 :=
  ⟨by simpa using hle, by simp⟩

theorem isRepeat_of_take_replicate {l : List UInt8} {b : UInt8} {n : ℕ}
    (h : l.take (n + 1) = List.replicate (n + 1) b) (hle : n + 1 ≤ l.length) : IsRepeat l 1 n := by
  have h1 : l.take 1 = [b] := by
    rw [← Nat.min_eq_left (Nat.le_add_left 1 n), ← List.take_take, h, List.take_replicate]
    rfl
  refine ⟨by omega, ?_⟩
  rw [Nat.one_mul, h, h1, flatten_replicate_singleton]

theorem repeats_isRepeat {input : List UInt8} {sz : ℕ} (hsz : 0 < sz) (hle : sz ≤ input.length)
    (hlt : input.length < 2 ^ 32) : IsRepeat input sz (repeats input sz) := by
  by_cases hshort : input.length < sz * 2
  · rw [repeats, if_pos hshort]
    exact isRepeat_zero hle
  by_cases hone : sz = 1
  · subst hone
    have hrun := take_byteRun (input.headD 0) input
    have hpos : 1 ≤ byteRun (input.headD 0) input := by
      obtain ⟨a, l, rfl⟩ := List.exists_cons_of_length_pos (by omega : 0 < input.length)
      simp [byteRun]
    rw [repeats_one (by omega) hlt]
    apply isRepeat_of_take_replicate
    · rwa [Nat.sub_add_cancel hpos]
    · rw [Nat.sub_add_cancel hpos]; exact byteRun_le_length _ _
  · set c := input.take sz
    set k := chunkRun c sz (input.length / sz - 1) (input.drop sz)
    have hk : k ≤ input.length / sz - 1 := chunkRun_le _ _ _ _
    have hdiv : 1 ≤ input.length / sz := (Nat.le_div_iff_mul_le hsz).2 (by omega)
    have hkl : sz * (k + 1) ≤ input.length := by
      calc sz * (k + 1) ≤ sz * (input.length / sz) := Nat.mul_le_mul_left _ (by omega)
        _ ≤ input.length := Nat.mul_div_le _ _
    have hu : u32 k = k := u32_of_lt (by nlinarith)
    rw [repeats, if_neg hshort, if_neg hone, hu]
    refine ⟨hkl, ?_⟩
    rw [Nat.mul_succ, Nat.add_comm, List.take_add, take_chunkRun, List.replicate_succ,
      List.flatten_cons]

/-- A run of `n` copies of `b` at the front of `l` is within the byte scan's count. -/
theorem le_byteRun {b : UInt8} {l : List UInt8} {n : ℕ} (htake : l.take n = List.replicate n b) :
    n ≤ byteRun b l := by
  have h := byteRun_of_take htake
  omega

/-- `m + 1` chunks equal to `c` at the front of `l` are `c`, then `m` more. -/
theorem take_chunks_succ {c l : List UInt8} {sz m : ℕ} (hc : c.length = sz)
    (htake : l.take (sz * (m + 1)) = (List.replicate (m + 1) c).flatten) :
    l.take sz = c ∧ (l.drop sz).take (sz * m) = (List.replicate m c).flatten := by
  rw [List.replicate_succ, List.flatten_cons] at htake
  constructor
  · have := congrArg (List.take sz) htake
    rwa [List.take_take, Nat.min_eq_left (Nat.le_mul_of_pos_right sz (Nat.succ_pos m)),
      List.take_left' hc] at this
  · have := congrArg (List.drop sz) htake
    rwa [List.drop_take, show sz * (m + 1) - sz = sz * m by rw [Nat.mul_succ]; omega,
      List.drop_left' hc] at this

/-- `m` chunks equal to `c` at the front of `l`, within the bound `k`, are all counted. -/
theorem le_chunkRun {c : List UInt8} {sz : ℕ} (hc : c.length = sz) :
    ∀ {m k : ℕ} {l : List UInt8}, m ≤ k → sz * m ≤ l.length →
      l.take (sz * m) = (List.replicate m c).flatten → m ≤ chunkRun c sz k l
  | 0, _, _, _, _, _ => Nat.zero_le _
  | m + 1, k + 1, l, hmk, hlen, htake => by
    obtain ⟨hfirst, hrest⟩ := take_chunks_succ hc htake
    rw [chunkRun, if_pos hfirst]
    have := le_chunkRun hc (k := k) (l := l.drop sz) (by omega)
      (by rw [List.length_drop]; rw [Nat.mul_succ] at hlen; omega) hrest
    omega

/-- Every repeat of a one-byte chunk is a run of the first byte. -/
theorem take_of_isRepeat_one {input : List UInt8} {r : ℕ} (h : IsRepeat input 1 r) :
    input.take (r + 1) = List.replicate (r + 1) (input.headD 0) := by
  obtain ⟨hlen, htake⟩ := h
  obtain ⟨a, l, rfl⟩ := List.exists_cons_of_length_pos (by omega : 0 < input.length)
  rw [Nat.one_mul] at htake
  rw [htake]
  simp

/-- `repeats` finds the largest repeat: what it returns is a repeat, and every
repeat is at most that.  An input shorter than two chunks gives 0. -/
theorem repeats_largest {input : List UInt8} {sz : ℕ} (hsz : 0 < sz) (hlt : input.length < 2 ^ 32) :
    (input.length < sz * 2 → repeats input sz = 0) ∧
      (sz ≤ input.length → IsRepeat input sz (repeats input sz) ∧
        ∀ r, IsRepeat input sz r → r ≤ repeats input sz) := by
  refine ⟨fun hshort => by rw [repeats, if_pos hshort], fun hle => ⟨repeats_isRepeat hsz hle hlt, ?_⟩⟩
  intro r hr
  by_cases hshort : input.length < sz * 2
  · -- a second chunk does not fit
    have := hr.1
    rw [repeats, if_pos hshort]
    nlinarith
  by_cases hone : sz = 1
  · subst hone
    rw [repeats_one (by omega) hlt]
    have := le_byteRun (take_of_isRepeat_one hr)
    omega
  · -- the chunk loop counts every chunk of a repeat after the first
    have hc : (input.take sz).length = sz := by simp [hle]
    obtain ⟨hlen, htake⟩ := hr
    obtain ⟨-, hrest⟩ := take_chunks_succ hc htake
    have hbound : r ≤ input.length / sz - 1 := by
      have : r + 1 ≤ input.length / sz := (Nat.le_div_iff_mul_le hsz).2 (by rw [Nat.mul_comm]; exact hlen)
      omega
    have hk := le_chunkRun hc hbound
      (by rw [List.length_drop]; rw [Nat.mul_succ] at hlen; omega) hrest
    have hrun := chunkRun_le (input.take sz) sz (input.length / sz - 1) (input.drop sz)
    have hdiv := Nat.div_le_self input.length sz
    rw [repeats, if_neg hshort, if_neg hone, u32_of_lt (by omega)]
    exact hk

/-- Whole quads of one byte: the quad scan counts them up to its bound. -/
theorem chunkRun_replicate_quad (b : UInt8) :
    ∀ k m, chunkRun (List.replicate 8 b) 8 k (List.replicate m b) = min k (m / 8)
  | 0, _ => by simp [chunkRun]
  | k + 1, m => by
    rw [chunkRun, List.take_replicate, List.drop_replicate]
    by_cases hm : 8 ≤ m
    · rw [Nat.min_eq_left hm, if_pos rfl, chunkRun_replicate_quad b k (m - 8)]
      omega
    · have hne : List.replicate (min 8 m) b ≠ List.replicate 8 b := by
        intro h
        have := congrArg List.length h
        simp only [List.length_replicate] at this
        omega
      rw [if_neg hne]
      omega

/-- On a run of one byte longer than two quads, `repeats` counts the run's length
less one, in a `uint32_t`. -/
theorem repeats_replicate_one (b : UInt8) {n : ℕ} (hn : 16 < n) :
    repeats (List.replicate n b) 1 = u32 (n - 1) := by
  obtain ⟨m, rfl⟩ : ∃ m, n = m + 1 := ⟨n - 1, by omega⟩
  have hq : chunkRun (List.replicate 8 b) 8 ((m + 1) / 8) (List.replicate (m + 1) b) = (m + 1) / 8 := by
    rw [chunkRun_replicate_quad, Nat.min_self]
  have hhead : (List.replicate (m + 1) b).headD 0 = b := by rw [List.replicate_succ]; rfl
  have hrun : byteRun b (List.replicate (m + 1 - 8 * ((m + 1) / 8)) b) = m + 1 - 8 * ((m + 1) / 8) := by
    simpa [byteRun] using byteRun_replicate_append b (m + 1 - 8 * ((m + 1) / 8)) []
  rw [repeats, List.length_replicate, if_neg (by omega), if_pos rfl]
  simp only [hhead, gt_iff_lt]
  rw [if_pos hn, hq, if_neg (by omega), if_neg (lt_irrefl _), List.drop_replicate, hrun]
  congr 1
  omega

/-- A run of `2 ^ 32 + 1` zero bytes repeats its first byte, yet `repeats` gives
0: the count `2 ^ 32` does not fit its `uint32_t`. -/
theorem repeats_wraps :
    repeats (List.replicate (2 ^ 32 + 1) 0) 1 = 0 ∧ IsRepeat (List.replicate (2 ^ 32 + 1) 0) 1 1 := by
  refine ⟨?_, by rw [List.length_replicate]; norm_num, ?_⟩
  · rw [repeats_replicate_one 0 (by norm_num)]
    simp [u32]
  · -- only the first two bytes are compared: no list of `2 ^ 32` bytes is built
    rw [List.take_replicate, List.take_replicate, Nat.min_eq_left (by norm_num),
      Nat.min_eq_left (by norm_num)]
    rfl

/-- Three two-byte chunks, then a different byte: two repeats, and no more. -/
theorem repeats_largest_twoByte :
    repeats [1, 2, 1, 2, 1, 2, 7] 2 = 2 ∧
      (IsRepeat [1, 2, 1, 2, 1, 2, 7] 2 (repeats [1, 2, 1, 2, 1, 2, 7] 2) ∧
        ∀ r, IsRepeat [1, 2, 1, 2, 1, 2, 7] 2 r → r ≤ repeats [1, 2, 1, 2, 1, 2, 7] 2) :=
  ⟨by decide, (@repeats_largest [1, 2, 1, 2, 1, 2, 7] 2 (by decide) (by decide)).2 (by decide)⟩

theorem wellKnown_spec {d : List UInt8} {s w : ℕ} (h : wellKnown d s = some w) :
    w < maxpat ∧ psizes w = s ∧ d.take s = patterns.getD w [] := by
  have hmem := List.mem_of_find?_eq_some h
  have hp := List.find?_some h
  simp only [decide_eq_true_eq] at hp
  obtain ⟨hs, hd⟩ := hp
  exact ⟨List.mem_range.mp hmem, hs.symm, hs ▸ hd⟩

theorem repeatsRev_trailingRun {field : List UInt8} (hf : field ≠ []) (hlt : field.length < 2 ^ 32) :
    TrailingRun field (repeatsRev field) := by
  obtain ⟨b, before, hrev⟩ := List.exists_cons_of_ne_nil (List.reverse_ne_nil_iff.mpr hf)
  have hlen : field.length = before.length + 1 := by
    rw [← List.length_reverse, hrev, List.length_cons]
  have hrun := byteRun_le_length b before
  have hr : repeatsRev field = byteRun b before := by
    rw [repeatsRev, hrev]
    exact u32_of_lt (by omega)
  refine ⟨by omega, b, ?_⟩
  -- read the trailing run off the reversed field
  have htake : field.reverse.take (byteRun b before + 1) =
      List.replicate (byteRun b before + 1) b := by
    rw [hrev, List.take_succ_cons, take_byteRun, List.replicate_succ]
  rw [List.take_reverse] at htake
  rw [hr, ← List.reverse_replicate, ← htake, List.reverse_reverse]

/-! ## Writing chunks -/

/-- The encoder's cursors: the input offset, the bytes written, and the count of
pending literal bytes just before the input offset. -/
structure EncState where
  pos : ℕ
  out : List UInt8
  prev : ℕ
  deriving DecidableEq, Repr

section Writers

variable (x : List UInt8) (cap : ℕ)

/-- `encode_prev`: write the pending literal. -/
def encodePrev (st : EncState) : Option EncState :=
  let p := st.prev
  let need := u32 (1 + varintNeed p + p)
  if cap - st.out.length < need then none
  else some { st with out := st.out ++ prevBytes ((x.drop (st.pos - p)).take p), prev := 0 }

/-- `encode_wellknown`: well-known pattern `w`, `r + 1` times. -/
def encodeWellknown (st : EncState) (w r : ℕ) : Option EncState :=
  if spaceReqd r 0 > cap - st.out.length then none
  else some { st with out := st.out ++ encodeHeader w r, pos := st.pos + u32 (psizes w * (r + 1)) }

/-- `encode_repeat`: the next `s` bytes, `r + 1` times. -/
def encodeRepeat (st : EncState) (r s : ℕ) : Option EncState :=
  if spaceReqd r s > cap - st.out.length then none
  else
    some { st with out := st.out ++ repeatBytes ((x.drop st.pos).take s) r,
                   pos := st.pos + u32 (s * (r + 1)) }

/-- `encode_repeat_rev`: an `sz`-byte field whose last `r + 1` bytes are equal.
The bytes before the run join the pending literal, which is written; then the
run, as a well-known byte or a one-byte repeat. -/
def encodeRepeatRev (st : EncState) (r sz : ℕ) : Option EncState :=
  let pfx := u32 (sz - r - 1)
  let st := { st with prev := u32 (st.prev + pfx), pos := st.pos + pfx }
  (if st.prev ≠ 0 then encodePrev x cap st else some st) >>= fun st =>
  (match wellKnown (x.drop st.pos) 1 with
    | some w => encodeWellknown cap st w r
    | none => encodeRepeat x cap st r 1) >>= fun st =>
  some { st with prev := 0 }

/-- `encode_prev_rev`: write the pending literal, splitting off a run of equal
bytes at its end.  It works on a copy of the input cursor, so the offset comes
back unchanged. -/
def encodePrevRev (st : EncState) : Option EncState :=
  let sz := st.prev
  let start := st.pos - sz
  let r := repeatsRev ((x.drop start).take sz)
  if r ≠ 0 then
    (encodeRepeatRev x cap { st with pos := start, prev := 0 } r sz).map fun st' =>
      { st' with pos := st.pos }
  else encodePrev x cap st

/-! ## The field loop -/

/-- What the loop found in a field: the C's `which`. -/
inductive Which where
  | none
  | wellKnown (w : ℕ)
  | rep
  | rev
  deriving DecidableEq, Repr

/-- The choice for the `sz`-byte field at the front of `input`, with the repeat
count that goes with it.  A trailing run wins over a repeat of the whole field
when its chunks, counted once per repeat, take less room. -/
def chooseField (input : List UInt8) (sz : ℕ) : Which × ℕ :=
  let r := repeats input sz
  let known := if sz ∈ [1, 2, 3, 5, 9] then wellKnown input sz else none
  match known with
  | some w => (.wellKnown w, r)
  | none =>
    let tmpR := repeatsRev (input.take sz)
    if tmpR ≠ 0 then
      if r = 0 then (.rev, tmpR)
      else
        let need := spaceReqd r sz
        let tmpPrev := u32 (sz - (tmpR + 1))
        let tmpNeed := u32 ((spaceReqd 0 tmpPrev + spaceReqd tmpR 1) * (r + 1))
        if tmpNeed < need then (.rev, tmpR) else (.rep, r)
    else if r ≠ 0 then (.rep, r) else (.none, r)

/-- What a choice says about the field it was made for. -/
def Found (input : List UInt8) (sz : ℕ) : Which × ℕ → Prop
  | (.none, _) => True
  | (.wellKnown w, r) =>
    w < maxpat ∧ psizes w = sz ∧ input.take sz = patterns.getD w [] ∧ IsRepeat input sz r
  | (.rep, r) => IsRepeat input sz r
  | (.rev, r) => TrailingRun (input.take sz) r

theorem found_chooseField {input : List UInt8} {sz : ℕ} (hsz : 0 < sz) (hle : sz ≤ input.length)
    (hlt : input.length < 2 ^ 32) : Found input sz (chooseField input sz) := by
  have hrep := repeats_isRepeat hsz hle hlt
  have hrev : TrailingRun (input.take sz) (repeatsRev (input.take sz)) :=
    repeatsRev_trailingRun (List.ne_nil_of_length_pos (by simp; omega)) (by simp; omega)
  unfold chooseField
  simp only
  split
  · next w hk =>
    have hwk : wellKnown input sz = some w := by
      split_ifs at hk
      exact hk
    obtain ⟨hw, hs, hd⟩ := wellKnown_spec hwk
    exact ⟨hw, hs, hd, hrep⟩
  · split_ifs
    · exact hrev
    · exact hrev
    · exact hrep
    · exact hrep
    · trivial

/-- Where the loop is in the hints: at a field, or walking the hints after a
repeat of `consumed` bytes, of which the hints walked so far cover `next`. -/
inductive Mode where
  | field
  | skip (consumed next : ℕ)
  deriving DecidableEq, Repr

/-- The end of the walk: the input moves on to the field boundary, and the bytes
it passes are written as a trailing run or join the pending literal. -/
def landField (consumed next : ℕ) (st : EncState) : Option EncState :=
  let adj := u32 (next - consumed)
  let tmpR := repeatsRev ((x.drop st.pos).take adj)
  if adj > 0 ∧ tmpR ≠ 0 then encodeRepeatRev x cap st tmpR adj
  else some { st with prev := u32 (st.prev + adj), pos := st.pos + adj }

/-- One turn of the inner `while (next < consumed)` loop over the hint `h`. -/
def walkHint (consumed next : ℕ) (st : EncState) (h : ℕ) : Option (EncState × Mode) :=
  let next := u32 (next + h)
  if next < consumed then some (st, .skip consumed next)
  else (landField x cap consumed next st).map fun st => (st, .field)

/-- The body of the field loop for a field of `sz` bytes. -/
def encodeField (st : EncState) (sz : ℕ) : Option (EncState × Mode) :=
  match chooseField (x.drop st.pos) sz with
  | (.none, _) => some ({ st with prev := u32 (st.prev + sz), pos := st.pos + sz }, .field)
  | (.rev, r) =>
    encodeRepeatRev x cap st r sz >>= fun st =>
    (if st.prev ≠ 0 then encodePrevRev x cap st else some st) >>= fun st =>
    some (st, .field)
  | (which, r) =>
    (if st.prev ≠ 0 then encodePrevRev x cap st else some st) >>= fun st =>
    (match which with
      | .wellKnown w => encodeWellknown cap st w r
      | _ => encodeRepeat x cap st r sz) >>= fun st =>
    let consumed := u32 ((r + 1) * sz)
    -- a count that wraps to 0 leaves the walk, and the cursor, on this field:
    -- the C writes the same chunk again until the output is full
    if consumed = 0 then none
    -- the walk starts with this field's own hint
    else walkHint x cap consumed 0 st sz

/-- The `while` loop of `compressComdb2RLE_hints`, one hint a step.  A zero hint
ends the fields; hints that end inside a walk leave the C reading past the
terminator, and the model fails. -/
def hintsLoop : List UInt16 → Mode → EncState → Option EncState
  | [], .field, st => some st
  | [], .skip _ _, _ => none
  | h :: hints, .field, st =>
    if h.toNat = 0 then some st
    else encodeField x cap st h.toNat >>= fun (st, m) => hintsLoop hints m st
  | h :: hints, .skip consumed next, st =>
    walkHint x cap consumed next st h.toNat >>= fun (st, m) => hintsLoop hints m st

end Writers

/-- `compressComdb2RLE_hints`: the field loop from an empty output, then the
pending literal.  The hints are the field sizes, without the terminating zero. -/
def compressComdb2RLEHints (x : List UInt8) (cap : ℕ) (hints : List UInt16) :
    Option (List UInt8) :=
  hintsLoop x cap hints .field ⟨0, [], 0⟩ >>= fun st =>
  (if st.prev ≠ 0 then encodePrevRev x cap st else some st) >>= fun st =>
  some st.out

end Crle
