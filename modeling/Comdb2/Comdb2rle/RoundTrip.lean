import Comdb2.Comdb2rle.Hints

/-!
# The hinted encoder's output reads back

What `compressComdb2RLEHints` writes, `decompressComdb2RLE` reads back to the
record, and it fits the capacity the encoder was given
(`compressComdb2RLEHints_roundTrip`).  This holds for every record shorter than
`2 ^ 32 - 6` bytes and every hint list of positive field sizes that add up to
the record's length.

The argument follows the encoder's cursors.  `EncInv` says what holds between
two writes: the output is a list of well-formed tokens that expand to the input
before the pending literal.  Each writer keeps it (`encodePrev_inv` and the
lemmas after it).  Each turn of the loop keeps it together with where the
hints stand (`LoopInv`, `encodeField_inv`, `walkHint_inv`).  `Format`'s
`decompressFrom_tokens` then reads the tokens back.

The bound on the record keeps the `uint32_t` counters from wrapping.  Every
record of a table is within it: `create_fld_hints` builds the hints from an
ondisk schema of at most 2048 members and 65536 bytes.  Past it the bound is
needed.  Take a record of `2 ^ 32` alternating bytes, cut into 65538 fields
that nothing compresses.  `prev` is `0` after the last field, and the encoder
succeeds with nothing written (`compressComdb2RLEHints_wraps`).

The writers' own size checks are exact: every chunk takes the bytes
`space_reqd` counts, modulo `2 ^ 32` as the `uint32_t` counters hold them
(`chunk_bytes_eq_spaceReqd`).
-/

namespace Crle

/-! ## Sizes of what the writers write -/

@[simp] theorem Token.expand_literal (b : List UInt8) : (Token.literal b).expand = b := by
  simp [Token.expand, Token.count, Token.chunk]

theorem length_encodeNumber (i : ℕ) : (encodeNumber i).length = varintNeed i := by
  simp [encodeNumber]

theorem varintNeed_le (i : ℕ) : varintNeed i ≤ 5 := by
  unfold varintNeed
  split_ifs <;> norm_num

theorem length_encodeHeader (w : ℕ) {r : ℕ} (hr : r < 2 ^ 32) :
    (encodeHeader w r).length = 1 + (if hmax < r then varintNeed (u32 (r - hmax)) else 0) := by
  by_cases h : r > hmax
  · have hu : u32 (r - hmax) ≠ 0 := by
      rw [u32_of_lt (by omega)]
      omega
    simp [encodeHeader, headerFields, h, hu, length_encodeNumber]
    omega
  · simp [encodeHeader, headerFields, h]

theorem spaceReqd_eq (r : ℕ) {s : ℕ} (hs : s < 2 ^ 16) :
    spaceReqd r s = 1 + (if hmax < r then varintNeed (u32 (r - hmax)) else 0) +
      (if s > 1 then varintNeed s + s else s) := by
  have := varintNeed_le (u32 (r - hmax))
  have := varintNeed_le s
  unfold spaceReqd
  apply u32_of_lt
  split_ifs <;> omega

theorem length_prevBytes (b : List UInt8) :
    (prevBytes b).length = 1 + varintNeed b.length + b.length := by
  simp [prevBytes, length_encodeNumber]
  omega

theorem length_repeatBytes {b : List UInt8} {r : ℕ} (hr : r < 2 ^ 32) (hb : b.length < 2 ^ 16) :
    (repeatBytes b r).length = spaceReqd r b.length := by
  rw [spaceReqd_eq r hb, repeatBytes, List.length_append, List.length_append,
    length_encodeHeader _ hr]
  split_ifs <;> simp [length_encodeNumber]

/-- What `encode_repeat` writes, counted in its `uint32_t used`, is `space_reqd`
for every count and pattern: both sides are the same sum modulo `2 ^ 32`. -/
theorem u32_length_repeatBytes (b : List UInt8) {r : ℕ} (hr : r < 2 ^ 32) :
    u32 (repeatBytes b r).length = spaceReqd r b.length := by
  rw [repeatBytes, List.length_append, List.length_append, length_encodeHeader _ hr, spaceReqd]
  congr 1
  split_ifs <;> simp [length_encodeNumber]

theorem length_encodeHeader_spaceReqd (w : ℕ) {r : ℕ} (hr : r < 2 ^ 32) :
    (encodeHeader w r).length = spaceReqd r 0 := by
  rw [length_encodeHeader w hr, spaceReqd_eq r (by norm_num)]
  simp

/-- The size accounting of the chunk writers: a number takes `varint_need` bytes
and reads back; `encode_wellknown` and `encode_repeat` write `space_reqd` bytes
and `encode_prev` its `need`, so none of their `assert(reqd == used)` can fail. -/
theorem chunk_bytes_eq_spaceReqd :
    (∀ v < 2 ^ 32, ∀ rest : List UInt8, (encodeNumber v).length = varintNeed v ∧
        decodeNumber (encodeNumber v ++ rest) = some (v, rest)) ∧
      (∀ w, ∀ r < 2 ^ 32, (encodeHeader w r).length = spaceReqd r 0) ∧
      (∀ b : List UInt8, ∀ r < 2 ^ 32, u32 (repeatBytes b r).length = spaceReqd r b.length) ∧
      ∀ b : List UInt8, u32 (prevBytes b).length = u32 (1 + varintNeed b.length + b.length) :=
  ⟨fun v hv rest => ⟨length_encodeNumber v, decodeNumber_encodeNumber hv rest⟩,
    fun w r hr => length_encodeHeader_spaceReqd w hr,
    fun b r hr => u32_length_repeatBytes b hr,
    fun b => by rw [length_prevBytes]⟩

/-! ## The encoder's invariant -/

/-- What holds between two writes: the output is well-formed tokens that expand
to the input before the pending literal, and it fits the capacity. -/
structure EncInv (x : List UInt8) (cap : ℕ) (st : EncState) : Prop where
  prev_le : st.prev ≤ st.pos
  pos_le : st.pos ≤ x.length
  out_le : st.out.length ≤ cap
  tokens : ∃ ts : List Token, (∀ t ∈ ts, t.WF) ∧ st.out = ts.flatMap Token.bytes ∧
    ts.flatMap Token.expand = x.take (st.pos - st.prev)

section Writers

variable {x : List UInt8} {cap : ℕ} {st st' : EncState}

theorem EncInv.init (x : List UInt8) (cap : ℕ) : EncInv x cap ⟨0, [], 0⟩ :=
  ⟨le_rfl, Nat.zero_le _, Nat.zero_le _, [], by simp, rfl, by simp⟩

/-- Moving the cursors over input that stays pending keeps the invariant. -/
theorem EncInv.move (hinv : EncInv x cap st) {pos prev : ℕ} (hd : pos - prev = st.pos - st.prev)
    (hp : prev ≤ pos) (hpos : pos ≤ x.length) : EncInv x cap ⟨pos, st.out, prev⟩ := by
  obtain ⟨-, -, hout, ts, hwf, hbytes, hexp⟩ := hinv
  exact ⟨hp, hpos, hout, ts, hwf, hbytes, hd ▸ hexp⟩

/-- `n` more bytes join the pending literal. -/
theorem EncInv.defer (hx : x.length < 2 ^ 32) (hinv : EncInv x cap st) {n : ℕ}
    (hn : st.pos + n ≤ x.length) : EncInv x cap ⟨st.pos + n, st.out, u32 (st.prev + n)⟩ := by
  have hp := hinv.prev_le
  rw [u32_of_lt (by omega)]
  exact hinv.move (by omega) (by omega) hn

/-- Writing a token for the input right after the written part keeps the invariant. -/
theorem EncInv.emit (hinv : EncInv x cap st) {t : Token} (ht : t.WF)
    (hx : (x.drop (st.pos - st.prev)).take t.expand.length = t.expand)
    (hcap : st.out.length + t.bytes.length ≤ cap) {pos prev : ℕ}
    (hd : pos - prev = st.pos - st.prev + t.expand.length) (hp : prev ≤ pos)
    (hpos : pos ≤ x.length) : EncInv x cap ⟨pos, st.out ++ t.bytes, prev⟩ := by
  obtain ⟨-, -, -, ts, hwf, hbytes, hexp⟩ := hinv
  refine ⟨hp, hpos, by simpa using hcap, ts ++ [t], ?_, by simp [hbytes], ?_⟩
  · intro t' ht'
    rcases List.mem_append.mp ht' with h | h
    · exact hwf t' h
    · rw [List.mem_singleton.mp h]
      exact ht
  · rw [List.flatMap_append, hexp, hd, List.take_add, hx]
    simp

theorem encodePrev_inv (hx : x.length + 6 < 2 ^ 32) (hinv : EncInv x cap st)
    (hp : 0 < st.prev) (h : encodePrev x cap st = some st') :
    EncInv x cap st' ∧ st'.pos = st.pos ∧ st'.prev = 0 := by
  have hle := hinv.prev_le
  have hpos := hinv.pos_le
  have hout := hinv.out_le
  unfold encodePrev at h
  dsimp only at h
  split at h
  · cases h
  · next hroom =>
    cases h
    set lit := (x.drop (st.pos - st.prev)).take st.prev
    have hlit : lit.length = st.prev := by simp [lit]; omega
    have hv := varintNeed_le st.prev
    rw [u32_of_lt (by omega)] at hroom
    refine ⟨hinv.emit (t := .literal lit) ⟨by omega, by omega⟩ (by simp [hlit, lit]) ?_
      (by simp [hlit]; omega) (Nat.zero_le _) hpos, rfl, rfl⟩
    simp only [Token.bytes, length_prevBytes, hlit]
    omega

theorem encodeWellknown_inv (hx : x.length < 2 ^ 32) (hinv : EncInv x cap st) (hp : st.prev = 0)
    {w r : ℕ}
    (hw : w < maxpat) (hpat : (x.drop st.pos).take (psizes w) = patterns.getD w [])
    (hrep : IsRepeat (x.drop st.pos) (psizes w) r)
    (h : encodeWellknown cap st w r = some st') :
    EncInv x cap st' ∧ st'.pos = st.pos + psizes w * (r + 1) ∧ st'.prev = 0 := by
  have hpos := hinv.pos_le
  have hout := hinv.out_le
  have hs := psizes_pos w hw
  obtain ⟨hfit, hrun⟩ := hrep
  rw [List.length_drop] at hfit
  have hr1 : r + 1 ≤ psizes w * (r + 1) := Nat.le_mul_of_pos_left _ hs
  have hr : r < 2 ^ 32 := by omega
  have hexp : (Token.wellKnown w r).expand.length = psizes w * (r + 1) := by
    rw [Token.length_expand]
    rfl
  unfold encodeWellknown at h
  split at h
  · cases h
  · next hroom =>
    cases h
    rw [u32_of_lt (by omega)]
    refine ⟨hinv.emit (t := .wellKnown w r) ⟨hw, hr⟩ ?_ ?_ ?_ (by omega) (by omega), rfl, hp⟩
    · rw [hp, Nat.sub_zero, hexp, hrun, hpat]
      rfl
    · simp only [Token.bytes, length_encodeHeader w hr]
      rw [spaceReqd_eq r (by norm_num)] at hroom
      simp at hroom
      omega
    · rw [hexp, hp]
      omega

theorem encodeRepeat_inv (hx : x.length < 2 ^ 32) (hinv : EncInv x cap st) (hp : st.prev = 0)
    {r s : ℕ}
    (hs : 0 < s) (hs16 : s < 2 ^ 16) (hrep : IsRepeat (x.drop st.pos) s r)
    (h : encodeRepeat x cap st r s = some st') :
    EncInv x cap st' ∧ st'.pos = st.pos + s * (r + 1) ∧ st'.prev = 0 := by
  have hpos := hinv.pos_le
  have hout := hinv.out_le
  obtain ⟨hfit, hrun⟩ := hrep
  rw [List.length_drop] at hfit
  have hr1 : r + 1 ≤ s * (r + 1) := Nat.le_mul_of_pos_left _ hs
  have hs1 : s ≤ s * (r + 1) := Nat.le_mul_of_pos_right _ (Nat.succ_pos r)
  have hr : r < 2 ^ 32 := by omega
  set c := (x.drop st.pos).take s
  have hc : c.length = s := by simp [c]; omega
  have hexp : (Token.rep c r).expand.length = s * (r + 1) := by
    rw [Token.length_expand]
    simp [Token.chunk, Token.count, hc]
  unfold encodeRepeat at h
  split at h
  · cases h
  · next hroom =>
    cases h
    rw [u32_of_lt (by omega)]
    refine ⟨hinv.emit (t := .rep c r) ⟨by omega, by omega, hr⟩ ?_ ?_ ?_ (by omega) (by omega),
      rfl, hp⟩
    · rw [hp, Nat.sub_zero, hexp, hrun]
      rfl
    · simp only [Token.bytes, length_repeatBytes hr (hc ▸ hs16), hc]
      omega
    · rw [hexp, hp]
      omega

/-- The flush before a run inside `encode_repeat_rev`. -/
theorem flushPrev_inv (hx : x.length + 6 < 2 ^ 32) (hinv : EncInv x cap st)
    (h : (if st.prev ≠ 0 then encodePrev x cap st else some st) = some st') :
    EncInv x cap st' ∧ st'.pos = st.pos ∧ st'.prev = 0 := by
  split at h
  · next hp => exact encodePrev_inv hx hinv (Nat.pos_of_ne_zero hp) h
  · next hp =>
    cases h
    exact ⟨hinv, rfl, by simpa using hp⟩

theorem encodeRepeatRev_inv (hx : x.length + 6 < 2 ^ 32) (hinv : EncInv x cap st) {r sz : ℕ}
    (hfield : st.pos + sz ≤ x.length) (hrun : TrailingRun ((x.drop st.pos).take sz) r)
    (h : encodeRepeatRev x cap st r sz = some st') :
    EncInv x cap st' ∧ st'.pos = st.pos + sz ∧ st'.prev = 0 := by
  obtain ⟨hr, b, hb⟩ := hrun
  have hlen : ((x.drop st.pos).take sz).length = sz := by simp; omega
  rw [hlen] at hr hb
  -- the bytes before the run join the pending literal, and the run starts after them
  have hu : u32 (sz - r - 1) = sz - r - 1 := u32_of_lt (by omega)
  have hinv1 := hinv.defer (by omega) (n := sz - r - 1) (by omega)
  have hb1 : (x.drop (st.pos + (sz - r - 1))).take (r + 1) = List.replicate (r + 1) b := by
    rw [List.drop_take, List.drop_drop] at hb
    rwa [show sz - (sz - (r + 1)) = r + 1 by omega, show sz - (r + 1) = sz - r - 1 by omega] at hb
  unfold encodeRepeatRev at h
  simp only [hu, Option.bind_eq_bind, Option.bind_eq_some_iff] at h
  obtain ⟨st2, h2, st3, h3, hst⟩ := h
  cases hst
  obtain ⟨hinv2, hpos2, hprev2⟩ := flushPrev_inv hx hinv1 h2
  simp only at hpos2
  rw [← hpos2] at hb1
  have hrep : IsRepeat (x.drop st2.pos) 1 r :=
    isRepeat_of_take_replicate hb1 (by simp; omega)
  -- the run is a well-known byte or a one-byte repeat
  have hst3 : EncInv x cap st3 ∧ st3.pos = st2.pos + (r + 1) ∧ st3.prev = 0 := by
    split at h3
    · next w hw =>
      obtain ⟨hwm, hs, hd⟩ := wellKnown_spec hw
      have := encodeWellknown_inv (by omega) hinv2 hprev2 hwm (hs ▸ hd) (hs ▸ hrep) h3
      rwa [hs, Nat.one_mul] at this
    · have := encodeRepeat_inv (by omega) hinv2 hprev2 Nat.one_pos (by norm_num) hrep h3
      rwa [Nat.one_mul] at this
  obtain ⟨hinv3, hpos3, hprev3⟩ := hst3
  refine ⟨hinv3.move (by simp [hprev3]) (Nat.zero_le _) hinv3.pos_le, ?_, rfl⟩
  simp only
  omega

theorem encodePrevRev_inv (hx : x.length + 6 < 2 ^ 32) (hinv : EncInv x cap st)
    (hp : 0 < st.prev) (h : encodePrevRev x cap st = some st') :
    EncInv x cap st' ∧ st'.pos = st.pos ∧ st'.prev = 0 := by
  have hle := hinv.prev_le
  have hpos := hinv.pos_le
  unfold encodePrevRev at h
  dsimp only at h
  split at h
  · -- a trailing run: the literal is written from its start on a copy of the cursor
    obtain ⟨st1, h1, rfl⟩ := Option.map_eq_some_iff.mp h
    have hinv0 : EncInv x cap ⟨st.pos - st.prev, st.out, 0⟩ :=
      hinv.move (by omega) (Nat.zero_le _) (by omega)
    have hseg : ((x.drop (st.pos - st.prev)).take st.prev).length = st.prev := by simp; omega
    have hrun := repeatsRev_trailingRun (List.ne_nil_of_length_pos (hseg ▸ hp)) (by omega)
    obtain ⟨hinv1, hpos1, hprev1⟩ := encodeRepeatRev_inv hx hinv0 (by simp; omega) hrun h1
    simp only at hpos1
    exact ⟨hinv1.move (by omega) (by omega) (by omega), rfl, hprev1⟩
  · exact encodePrev_inv hx hinv hp h

/-- The flush before a chunk in the field loop. -/
theorem flushPrevRev_inv (hx : x.length + 6 < 2 ^ 32) (hinv : EncInv x cap st)
    (h : (if st.prev ≠ 0 then encodePrevRev x cap st else some st) = some st') :
    EncInv x cap st' ∧ st'.pos = st.pos ∧ st'.prev = 0 := by
  split at h
  · next hp => exact encodePrevRev_inv hx hinv (Nat.pos_of_ne_zero hp) h
  · next hp =>
    cases h
    exact ⟨hinv, rfl, by simpa using hp⟩

theorem landField_inv (hx : x.length + 6 < 2 ^ 32) (hinv : EncInv x cap st) {consumed next : ℕ}
    (hfit : st.pos + (next - consumed) ≤ x.length)
    (h : landField x cap consumed next st = some st') :
    EncInv x cap st' ∧ st'.pos = st.pos + (next - consumed) := by
  unfold landField at h
  dsimp only at h
  rw [u32_of_lt (by omega : next - consumed < 2 ^ 32)] at h
  split at h
  · next hc =>
    have hseg : ((x.drop st.pos).take (next - consumed)).length = next - consumed := by
      simp
      omega
    have hrun := repeatsRev_trailingRun (List.ne_nil_of_length_pos (hseg ▸ hc.1)) (by omega)
    obtain ⟨hinv', hpos', -⟩ := encodeRepeatRev_inv hx hinv hfit hrun h
    exact ⟨hinv', hpos'⟩
  · cases h
    exact ⟨hinv.defer (by omega) hfit, rfl⟩

end Writers

/-! ## The field loop -/

/-- Where the loop stands against the hints.  At a field boundary the hints left
cover the input left.  Inside a walk, the repeat has taken `consumed` bytes from
the start of a field, and the hints walked so far cover `next` of them. -/
def LoopInv (x : List UInt8) (cap : ℕ) (hints : List UInt16) : Mode → EncState → Prop
  | .field, st => EncInv x cap st ∧ st.pos + (hints.map UInt16.toNat).sum = x.length
  | .skip consumed next, st => EncInv x cap st ∧ next < consumed ∧ consumed ≤ st.pos ∧
      st.pos + (hints.map UInt16.toNat).sum + next = x.length + consumed

section Loop

variable {x : List UInt8} {cap : ℕ} {st st' : EncState} {h : UInt16} {hints : List UInt16}
  {m : Mode}

theorem walkHint_inv (hx : x.length + 6 < 2 ^ 32) {consumed next : ℕ}
    (hinv : LoopInv x cap (h :: hints) (.skip consumed next) st)
    (hw : walkHint x cap consumed next st h.toNat = some (st', m)) : LoopInv x cap hints m st' := by
  obtain ⟨hinv, hlt, hcp, hsum⟩ := hinv
  rw [List.map_cons, List.sum_cons] at hsum
  have hpos := hinv.pos_le
  unfold walkHint at hw
  dsimp only at hw
  rw [u32_of_lt (by omega)] at hw
  split at hw
  · next hnc =>
    cases hw
    exact ⟨hinv, hnc, hcp, by omega⟩
  · obtain ⟨st1, h1, hst⟩ := Option.map_eq_some_iff.mp hw
    cases hst
    obtain ⟨hinv1, hpos1⟩ := landField_inv hx hinv (by omega) h1
    exact ⟨hinv1, by omega⟩

/-- After a chunk that repeats the field at `st₀` `r + 1` times, the walk over
the hints starts with the field's own hint. -/
theorem walkRepeat_inv (hx : x.length + 6 < 2 ^ 32) {st₀ : EncState} {r : ℕ}
    (hsum : st₀.pos + ((h :: hints).map UInt16.toNat).sum = x.length) (hh : h.toNat ≠ 0)
    (hinv : EncInv x cap st) (hpos : st.pos = st₀.pos + h.toNat * (r + 1))
    (hw : (if u32 ((r + 1) * h.toNat) = 0 then none
      else walkHint x cap (u32 ((r + 1) * h.toNat)) 0 st h.toNat) = some (st', m)) :
    LoopInv x cap hints m st' := by
  have hle := hinv.pos_le
  have hpos1 : h.toNat ≤ h.toNat * (r + 1) := Nat.le_mul_of_pos_right _ (Nat.succ_pos r)
  rw [Nat.mul_comm, u32_of_lt (by omega), if_neg (by omega)] at hw
  exact walkHint_inv hx ⟨hinv, by omega, by omega, by omega⟩ hw

theorem encodeField_inv (hx : x.length + 6 < 2 ^ 32) (hinv : LoopInv x cap (h :: hints) .field st)
    (hh : h.toNat ≠ 0) (hf : encodeField x cap st h.toNat = some (st', m)) :
    LoopInv x cap hints m st' := by
  obtain ⟨hinv, hsum⟩ := hinv
  have hsum' := hsum
  rw [List.map_cons, List.sum_cons] at hsum'
  have hsz16 : h.toNat < 2 ^ 16 := UInt16.toNat_lt h
  have hfound : Found (x.drop st.pos) h.toNat (chooseField (x.drop st.pos) h.toNat) :=
    found_chooseField (Nat.pos_of_ne_zero hh) (by simp; omega) (by simp; omega)
  unfold encodeField at hf
  generalize chooseField (x.drop st.pos) h.toNat = c at hf hfound
  obtain ⟨which, r⟩ := c
  -- one case per choice; a repeat, known or not, then walks the hints
  cases which with
  | none =>
    cases hf
    exact ⟨hinv.defer (by omega) (by omega), by simp only; omega⟩
  | rev =>
    simp only [Option.bind_eq_bind, Option.bind_eq_some_iff] at hf
    obtain ⟨st1, h1, st2, h2, hst⟩ := hf
    cases hst
    obtain ⟨hinv1, hpos1, -⟩ := encodeRepeatRev_inv hx hinv (by omega) hfound h1
    obtain ⟨hinv2, hpos2, -⟩ := flushPrevRev_inv hx hinv1 h2
    exact ⟨hinv2, by omega⟩
  | wellKnown w =>
    obtain ⟨hw, hs, hd, hrep⟩ := hfound
    simp only [Option.bind_eq_bind, Option.bind_eq_some_iff] at hf
    obtain ⟨st1, h1, st2, h2, hwalk⟩ := hf
    obtain ⟨hinv1, hpos1, hprev1⟩ := flushPrevRev_inv hx hinv h1
    rw [← hpos1, ← hs] at hd hrep
    obtain ⟨hinv2, hpos2, -⟩ := encodeWellknown_inv (by omega) hinv1 hprev1 hw hd hrep h2
    rw [hs, hpos1] at hpos2
    exact walkRepeat_inv hx hsum hh hinv2 hpos2 hwalk
  | rep =>
    simp only [Option.bind_eq_bind, Option.bind_eq_some_iff] at hf
    obtain ⟨st1, h1, st2, h2, hwalk⟩ := hf
    obtain ⟨hinv1, hpos1, hprev1⟩ := flushPrevRev_inv hx hinv h1
    rw [← hpos1] at hfound
    obtain ⟨hinv2, hpos2, -⟩ :=
      encodeRepeat_inv (by omega) hinv1 hprev1 (Nat.pos_of_ne_zero hh) hsz16 hfound h2
    rw [hpos1] at hpos2
    exact walkRepeat_inv hx hsum hh hinv2 hpos2 hwalk

/-- The field loop keeps the invariant to its end, where the whole input has
been taken. -/
theorem hintsLoop_inv (hx : x.length + 6 < 2 ^ 32) :
    ∀ (hints : List UInt16) (m : Mode) (st : EncState), (∀ h ∈ hints, h.toNat ≠ 0) →
      LoopInv x cap hints m st → hintsLoop x cap hints m st = some st' →
      EncInv x cap st' ∧ st'.pos = x.length
  | [], .field, st, _, hinv, hl => by
    cases hl
    exact ⟨hinv.1, by simpa using hinv.2⟩
  | [], .skip _ _, _, _, _, hl => by cases hl
  | h :: hints, .field, st, hne, hinv, hl => by
    rw [hintsLoop, if_neg (hne h List.mem_cons_self)] at hl
    obtain ⟨⟨st1, m1⟩, h1, h2⟩ := Option.bind_eq_some_iff.mp hl
    exact hintsLoop_inv hx hints m1 st1 (fun h' hm => hne h' (List.mem_cons_of_mem _ hm))
      (encodeField_inv hx hinv (hne h List.mem_cons_self) h1) h2
  | h :: hints, .skip consumed next, st, hne, hinv, hl => by
    rw [hintsLoop] at hl
    obtain ⟨⟨st1, m1⟩, h1, h2⟩ := Option.bind_eq_some_iff.mp hl
    exact hintsLoop_inv hx hints m1 st1 (fun h' hm => hne h' (List.mem_cons_of_mem _ hm))
      (walkHint_inv hx hinv h1) h2

end Loop

/-! ## The round trip -/

/-- The encoder's output is well-formed tokens that expand to the record, within
the room it was given. -/
theorem compressComdb2RLEHints_tokens {x : List UInt8} (hx : x.length + 6 < 2 ^ 32) (cap : ℕ)
    {hints : List UInt16} (hpos : ∀ h ∈ hints, 0 < h.toNat)
    (hsum : (hints.map UInt16.toNat).sum = x.length) {y : List UInt8}
    (hy : compressComdb2RLEHints x cap hints = some y) :
    ∃ ts : List Token, (∀ t ∈ ts, t.WF) ∧ y = ts.flatMap Token.bytes ∧
      ts.flatMap Token.expand = x ∧ y.length ≤ cap := by
  unfold compressComdb2RLEHints at hy
  simp only [Option.bind_eq_bind, Option.bind_eq_some_iff] at hy
  obtain ⟨st1, h1, st2, h2, hy⟩ := hy
  cases hy
  obtain ⟨hinv1, hpos1⟩ := hintsLoop_inv hx hints .field _ (fun h hm => (hpos h hm).ne')
    ⟨EncInv.init x cap, by simpa using hsum⟩ h1
  obtain ⟨hinv2, hpos2, hprev2⟩ := flushPrevRev_inv hx hinv1 h2
  obtain ⟨-, -, hout, ts, hwf, hbytes, hexp⟩ := hinv2
  rw [hpos2, hpos1, hprev2, Nat.sub_zero, List.take_length] at hexp
  exact ⟨ts, hwf, hbytes, hexp, hout⟩

/-- Whatever the hinted encoder writes fits the output and decompresses to the
record, given room for it. -/
theorem compressComdb2RLEHints_roundTrip {x : List UInt8} (hx : x.length + 6 < 2 ^ 32) (cap : ℕ)
    {hints : List UInt16} (hpos : ∀ h ∈ hints, 0 < h.toNat)
    (hsum : (hints.map UInt16.toNat).sum = x.length) {y : List UInt8}
    (hy : compressComdb2RLEHints x cap hints = some y) :
    y.length ≤ cap ∧ ∀ m, x.length ≤ m → decompressComdb2RLE y m = some x := by
  obtain ⟨ts, hwf, rfl, hexp, hout⟩ := compressComdb2RLEHints_tokens hx cap hpos hsum hy
  refine ⟨hout, fun m hm => ?_⟩
  rw [decompressComdb2RLE, decompressFrom_tokens ts hwf m (by rw [hexp]; exact hm)
    (by rw [hexp]; omega), hexp]

theorem compressComdb2RLEHints_roundTrip_sample :
    compressComdb2RLEHints
        [1, 2, 3, 4, 1, 2, 3, 4, 1, 2, 3, 4, 1, 2, 0, 0, 0, 0, 0, 0, 0, 0, 0, 0, 0, 0, 0, 0, 0, 0,
          0, 0, 0, 0, 0, 0, 9, 9] 20 [4, 4, 4, 2, 2, 4, 4, 4, 4, 4, 1, 1] =
      some [77, 4, 1, 2, 3, 4, 13, 2, 1, 2, 253, 3, 2, 0, 0, 46, 9] ∧
    ([77, 4, 1, 2, 3, 4, 13, 2, 1, 2, 253, 3, 2, 0, 0, 46, 9] : List UInt8).length ≤ 20 ∧
    ∀ m, 38 ≤ m → decompressComdb2RLE [77, 4, 1, 2, 3, 4, 13, 2, 1, 2, 253, 3, 2, 0, 0, 46, 9] m =
      some [1, 2, 3, 4, 1, 2, 3, 4, 1, 2, 3, 4, 1, 2, 0, 0, 0, 0, 0, 0, 0, 0, 0, 0, 0, 0, 0, 0, 0, 0,
          0, 0, 0, 0, 0, 0, 9, 9] := by
  -- a repeat over three fields, a literal, a two-byte repeat that ends inside a
  -- field, and a trailing run
  have hy : compressComdb2RLEHints
        [1, 2, 3, 4, 1, 2, 3, 4, 1, 2, 3, 4, 1, 2, 0, 0, 0, 0, 0, 0, 0, 0, 0, 0, 0, 0, 0, 0, 0, 0,
          0, 0, 0, 0, 0, 0, 9, 9] 20 [4, 4, 4, 2, 2, 4, 4, 4, 4, 4, 1, 1] =
      some [77, 4, 1, 2, 3, 4, 13, 2, 1, 2, 253, 3, 2, 0, 0, 46, 9] := by decide
  exact ⟨hy, compressComdb2RLEHints_roundTrip (by norm_num) 20 (by simp) (by rfl) hy⟩

/-! ## A record too long for the counters -/

theorem chunkRun_eq_zero {c l : List UInt8} {sz : ℕ} (k : ℕ) (h : l.take sz ≠ c) :
    chunkRun c sz k l = 0 := by
  cases k with
  | zero => rfl
  | succ k => rw [chunkRun, if_neg h]

/-- A field of more than one byte whose first byte differs from the byte after it
does not repeat. -/
theorem repeats_eq_zero {input : List UInt8} {sz : ℕ} (hsz : 1 < sz)
    (hne : input[sz]? ≠ input[0]?) : repeats input sz = 0 := by
  unfold repeats
  by_cases hshort : input.length < sz * 2
  · rw [if_pos hshort]
  · rw [if_neg hshort, if_neg (by omega), chunkRun_eq_zero _ ?_]
    · rfl
    intro heq
    apply hne
    have := congrArg (·[0]?) heq
    simpa [List.getElem?_take, List.getElem?_drop, show 0 < sz by omega] using this

/-- A field whose last two bytes differ has no trailing run. -/
theorem repeatsRev_eq_zero {field : List UInt8} (hne : field.reverse[1]? ≠ field.reverse[0]?) :
    repeatsRev field = 0 := by
  unfold repeatsRev
  rcases hr : field.reverse with _ | ⟨b, _ | ⟨c, rest⟩⟩
  · rfl
  · simp [byteRun, u32]
  · rw [hr] at hne
    have hcb : c ≠ b := fun h => hne (by simp [h])
    simp [byteRun, hcb, u32]

theorem chooseField_none {input : List UInt8} {sz : ℕ} (hr : repeats input sz = 0)
    (hk : (if sz ∈ [1, 2, 3, 5, 9] then wellKnown input sz else none) = none)
    (hv : repeatsRev (input.take sz) = 0) : (chooseField input sz).1 = .none := by
  simp only [chooseField, hr, hk, hv]
  simp

theorem encodeField_of_none {x : List UInt8} {cap sz : ℕ} {st : EncState}
    (hc : (chooseField (x.drop st.pos) sz).1 = .none) :
    encodeField x cap st sz = some (⟨st.pos + sz, st.out, u32 (st.prev + sz)⟩, .field) := by
  unfold encodeField
  generalize chooseField (x.drop st.pos) sz = c at hc ⊢
  obtain ⟨which, r⟩ := c
  simp only at hc
  subst hc
  rfl

/-- Fields that nothing compresses only add to the pending count, modulo `2 ^ 32`. -/
theorem hintsLoop_incompressible {x : List UInt8} {cap : ℕ} (sz : UInt16) (hsz : sz.toNat ≠ 0)
    (rest : List UInt16) : ∀ (n : ℕ) (st : EncState), st.prev < 2 ^ 32 →
      (∀ j < n, (chooseField (x.drop (st.pos + sz.toNat * j)) sz.toNat).1 = .none) →
      hintsLoop x cap (List.replicate n sz ++ rest) .field st =
        hintsLoop x cap rest .field ⟨st.pos + sz.toNat * n, st.out, u32 (st.prev + sz.toNat * n)⟩
  | 0, st, hp, _ => by simp [u32_of_lt hp]
  | n + 1, st, hp, hnone => by
    have h0 := hnone 0 (Nat.succ_pos n)
    rw [Nat.mul_zero, Nat.add_zero] at h0
    rw [List.replicate_succ, List.cons_append, hintsLoop, if_neg hsz, encodeField_of_none h0]
    simp only [Option.bind_eq_bind, Option.bind_some]
    rw [hintsLoop_incompressible sz hsz rest n _ (u32_lt _) fun j hj => ?_]
    · dsimp only
      congr 2
      · rw [Nat.mul_succ]
        omega
      · rw [u32, u32, Nat.mod_add_mod, Nat.mul_succ]
        congr 1
        omega
    · have := hnone (j + 1) (by omega)
      rwa [Nat.mul_succ, ← Nat.add_assoc, Nat.add_right_comm] at this

/-- `2 ^ 32` bytes alternating between 1 and 2. -/
def wrapRecord : List UInt8 := (List.range (2 ^ 32)).map fun i => if i % 2 = 0 then 1 else 2

/-- Fields of 65535 bytes, then one byte: the `2 ^ 32` bytes of `wrapRecord`. -/
def wrapHints : List UInt16 := List.replicate 65537 65535 ++ [1]

theorem length_wrapRecord : wrapRecord.length = 2 ^ 32 := by simp [wrapRecord]

theorem getElem?_wrapRecord {i : ℕ} (hi : i < 2 ^ 32) :
    wrapRecord[i]? = some (if i % 2 = 0 then 1 else 2) := by
  rw [wrapRecord, List.getElem?_map, List.getElem?_range hi]
  rfl

theorem wrapByte_ne {a b : ℕ} (h : a % 2 ≠ b % 2) :
    (if a % 2 = 0 then (1 : UInt8) else 2) ≠ if b % 2 = 0 then 1 else 2 := by
  split_ifs <;> first | omega | decide

/-- Every 65535-byte field of `wrapRecord` is left to the pending literal. -/
theorem wrapField_none {j : ℕ} (hj : j < 65537) :
    (chooseField (wrapRecord.drop (65535 * j)) 65535).1 = .none := by
  have hbyte : ∀ k < 65536, (wrapRecord.drop (65535 * j))[k]? =
      some (if (65535 * j + k) % 2 = 0 then 1 else 2) := by
    intro k hk
    rw [List.getElem?_drop, getElem?_wrapRecord (by omega)]
  have hlen : ((wrapRecord.drop (65535 * j)).take 65535).length = 65535 := by
    simp [length_wrapRecord]
    omega
  apply chooseField_none
  · -- the byte after the field starts the other way round
    apply repeats_eq_zero (by norm_num)
    rw [hbyte 65535 (by norm_num), hbyte 0 (by norm_num)]
    exact fun h => wrapByte_ne (by omega) (Option.some.inj h)
  · rw [if_neg (by decide)]
  · apply repeatsRev_eq_zero
    rw [List.getElem?_reverse (by omega), List.getElem?_reverse (by omega), hlen,
      List.getElem?_take, List.getElem?_take, if_pos (by norm_num), if_pos (by norm_num),
      hbyte _ (by norm_num), hbyte _ (by norm_num)]
    exact fun h => wrapByte_ne (by omega) (Option.some.inj h)

theorem drop_wrapRecord_last : wrapRecord.drop (2 ^ 32 - 1) = [2] := by
  apply List.ext_getElem?
  intro k
  rw [List.getElem?_drop]
  rcases k with _ | k
  · rw [getElem?_wrapRecord (by norm_num)]
    rfl
  · rw [List.getElem?_eq_none (by rw [length_wrapRecord]; omega)]
    rfl

/-- Without the bound the round trip fails: the hinted encoder takes a record of
`2 ^ 32` bytes that nothing compresses, and succeeds with nothing written. -/
theorem compressComdb2RLEHints_wraps :
    wrapRecord.length = 2 ^ 32 ∧ (∀ h ∈ wrapHints, 0 < h.toNat) ∧
      (wrapHints.map UInt16.toNat).sum = wrapRecord.length ∧
      compressComdb2RLEHints wrapRecord 0 wrapHints = some [] ∧
      decompressComdb2RLE [] wrapRecord.length ≠ some wrapRecord := by
  refine ⟨length_wrapRecord, ?_, ?_, ?_, ?_⟩
  · intro h hh
    simp only [wrapHints, List.mem_append, List.mem_replicate, List.mem_singleton] at hh
    rcases hh with ⟨-, rfl⟩ | rfl <;> decide
  · simp only [wrapHints, List.map_append, List.map_replicate, List.sum_append,
      List.sum_replicate, List.map_cons, List.map_nil, List.sum_cons, List.sum_nil,
      length_wrapRecord]
    rfl
  · -- the pending count reaches `2 ^ 32`, which is 0
    have hlast : (chooseField (wrapRecord.drop (2 ^ 32 - 1)) 1).1 = .none := by
      rw [drop_wrapRecord_last]
      decide
    have hloop : hintsLoop wrapRecord 0 wrapHints .field ⟨0, [], 0⟩ = some ⟨2 ^ 32, [], 0⟩ := by
      rw [wrapHints, hintsLoop_incompressible 65535 (by decide) [1] 65537 ⟨0, [], 0⟩ (by norm_num)
        fun j hj => by simpa using wrapField_none hj]
      rw [hintsLoop, if_neg (by decide), encodeField_of_none (by simpa using hlast)]
      simp [hintsLoop, u32]
    rw [compressComdb2RLEHints, hloop]
    simp
  · rw [decompressComdb2RLE, decompressFrom, if_pos rfl]
    intro h
    have := congrArg List.length (Option.some.inj h)
    simp [length_wrapRecord] at this

end Crle
