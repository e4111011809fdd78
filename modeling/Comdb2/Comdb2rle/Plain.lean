import Comdb2.Comdb2rle.RoundTrip

/-!
# The plain CRLE encoder

`compressComdb2RLE` compresses a byte string with no field hints; the btree
uses it for keys and prefixes.  At every position it tries the pattern sizes
1, 9, 5, 3 and 2 (`sizes`).  For each it asks whether the bytes there are a
well-known pattern and how often they repeat (`candidate`), and it keeps the
choice that saves the most bytes (`bestCandidate`).  Inputs over 1024 bytes
are compressed greedily: the first size that offers a candidate at all is
taken.  A choice that saves bytes is written after the pending literal;
otherwise the byte joins the pending literal, which is written at the end.

The encoder reuses the writers of the hinted encoder, and its round trip the
invariant `EncInv` and the writer lemmas of `RoundTrip`.  What it writes fits
its capacity and decompresses to its input (`compressComdb2RLE_roundTrip`),
for inputs short enough for its `uint32_t` counters.  The bound is needed:
`2 ^ 32` bytes repeating `0x11 0x22 0x33 0x44` have no repeat of any of the
sizes, the pending count wraps to 0, and the encoder succeeds with nothing
written (`compressComdb2RLE_wraps`).
-/

namespace Crle

/-! ## The candidate search -/

/-- `sizes`: the pattern sizes the encoder tries, in order. -/
def sizes : List ℕ := [1, 9, 5, 3, 2]

/-- What one pattern size offers at the front of `input`, as the C has it
before it compares savings: a well-known pattern or a repeat, with the repeat
count, or `none` where the loop goes on to the next size. -/
def candidate (input : List UInt8) (sz : ℕ) : Option (Which × ℕ) :=
  if input.length < sz then none
  else
    let r := repeats input sz
    match wellKnown input sz with
    | some w => some (.wellKnown w, r)
    | none => if r ≠ 0 then some (.rep, r) else none

/-- The `for` loop over the sizes: the best saving so far, and the choice that
makes it as `(which, r, size)`.  A greedy search stops at the first size that
offers a candidate, whether or not it saves anything. -/
def bestCandidate (input : List UInt8) (greedy : Bool) :
    List ℕ → ℕ → Option (Which × ℕ × ℕ) → Option (Which × ℕ × ℕ)
  | [], _, best => best
  | sz :: szs, saved, best =>
    match candidate input sz with
    | none => bestCandidate input greedy szs saved best
    | some (which, r) =>
      let orig := u32 ((r + 1) * sz)
      let need := spaceReqd r (if which = .rep then sz else 0)
      let better := decide (need < orig) && decide (saved < orig - need)
      let saved := if better then orig - need else saved
      let best := if better then some (which, r, sz) else best
      if greedy then best else bestCandidate input greedy szs saved best

/-! ## The encoder -/

section Loop

variable (x : List UInt8) (cap : ℕ)

/-- The pending literal, then the chunk for a choice. -/
def encodeChoice (st : EncState) (which : Which) (r sz : ℕ) : Option EncState :=
  (if st.prev ≠ 0 then encodePrev x cap st else some st) >>= fun st =>
  match which with
  | .wellKnown w => encodeWellknown cap st w r
  | _ => encodeRepeat x cap st r sz

/-- The `while (input.sz)` loop of `compressComdb2RLE`. -/
def compressLoop (greedy : Bool) (st : EncState) : Option EncState :=
  if st.pos < x.length then
    match bestCandidate (x.drop st.pos) greedy sizes 0 none with
    | none => compressLoop greedy { st with prev := u32 (st.prev + 1), pos := st.pos + 1 }
    | some (which, r, sz) =>
      match encodeChoice x cap st which r sz with
      | none => none
      | some st' =>
        -- a count that wraps to 0 leaves the cursor where it was: the C then
        -- writes the same chunk again until the output is full
        if st'.pos ≤ st.pos then none else compressLoop greedy st'
  else some st
termination_by x.length - st.pos

end Loop

/-- `compressComdb2RLE`: the loop from an empty output, greedy above 1024
bytes, then the pending literal. -/
def compressComdb2RLE (x : List UInt8) (cap : ℕ) : Option (List UInt8) :=
  compressLoop x cap (decide (x.length > 1024)) ⟨0, [], 0⟩ >>= fun st =>
  (if st.prev ≠ 0 then encodePrev x cap st else some st) >>= fun st =>
  some st.out

/-! ## One turn of the loop -/

section Steps

variable {x : List UInt8} {cap : ℕ} {greedy : Bool} {st : EncState}

theorem compressLoop_done (h : x.length ≤ st.pos) : compressLoop x cap greedy st = some st := by
  rw [compressLoop, if_neg (by omega)]

/-- A position where no size saves anything joins the pending literal. -/
theorem compressLoop_defer (h : st.pos < x.length)
    (hb : bestCandidate (x.drop st.pos) greedy sizes 0 none = none) :
    compressLoop x cap greedy st =
      compressLoop x cap greedy ⟨st.pos + 1, st.out, u32 (st.prev + 1)⟩ := by
  rw [compressLoop, if_pos h, hb]

/-- A position where a choice saves bytes writes it, and the loop goes on past it. -/
theorem compressLoop_chunk {which : Which} {r sz : ℕ} {st' : EncState} (h : st.pos < x.length)
    (hb : bestCandidate (x.drop st.pos) greedy sizes 0 none = some (which, r, sz))
    (he : encodeChoice x cap st which r sz = some st') (hlt : st.pos < st'.pos) :
    compressLoop x cap greedy st = compressLoop x cap greedy st' := by
  rw [compressLoop, if_pos h, hb]
  simp only [he, if_neg (Nat.not_le.mpr hlt)]

end Steps

/-! ## What the search chooses -/

/-- A choice of the search: a candidate of one of the sizes. -/
def IsChoice (input : List UInt8) (c : Which × ℕ × ℕ) : Prop :=
  candidate input c.2.2 = some (c.1, c.2.1) ∧ c.2.2 ∈ sizes

/-- A candidate is a well-known pattern or a repeat of its size at the front of
the input. -/
theorem candidate_found {input : List UInt8} {sz r : ℕ} {which : Which} (hsz : 0 < sz)
    (hlt : input.length < 2 ^ 32) (h : candidate input sz = some (which, r)) :
    sz ≤ input.length ∧ Found input sz (which, r) ∧ (which = .rep ∨ ∃ w, which = .wellKnown w) := by
  unfold candidate at h
  split_ifs at h with hshort
  dsimp only at h
  have hrep := repeats_isRepeat hsz (by omega) hlt
  split at h
  · next w hw =>
    cases h
    obtain ⟨hwm, hs, hd⟩ := wellKnown_spec hw
    exact ⟨by omega, ⟨hwm, hs, hd, hrep⟩, .inr ⟨w, rfl⟩⟩
  · split_ifs at h
    cases h
    exact ⟨by omega, hrep, .inl rfl⟩

/-- Whatever the search returns is a choice, given that what it started from was. -/
theorem bestCandidate_isChoice {input : List UInt8} {greedy : Bool} :
    ∀ (szs : List ℕ) (saved : ℕ) (best : Option (Which × ℕ × ℕ)) {c : Which × ℕ × ℕ},
      (∀ sz ∈ szs, sz ∈ sizes) → (∀ c', best = some c' → IsChoice input c') →
      bestCandidate input greedy szs saved best = some c → IsChoice input c
  | [], _, _, _, _, hbest, h => hbest _ h
  | sz :: szs, saved, best, c, hszs, hbest, h => by
    have hsz := hszs sz List.mem_cons_self
    have hrest : ∀ sz ∈ szs, sz ∈ sizes := fun sz' h' => hszs sz' (List.mem_cons_of_mem _ h')
    rw [bestCandidate] at h
    split at h
    · exact bestCandidate_isChoice szs saved best hrest hbest h
    · next which r hc =>
      dsimp only at h
      -- the new best is this size's candidate, or the old one
      have hbest' : ∀ better : Bool, ∀ c', (if better then some (which, r, sz) else best) = some c' →
          IsChoice input c' := by
        intro better c' hc'
        cases better
        · exact hbest c' hc'
        · cases hc'
          exact ⟨hc, hsz⟩
      split at h
      · exact hbest' _ c h
      · exact bestCandidate_isChoice szs _ _ hrest (hbest' _) h

theorem mem_sizes {sz : ℕ} (h : sz ∈ sizes) : 0 < sz ∧ sz < 2 ^ 16 := by
  simp only [sizes, List.mem_cons, List.not_mem_nil, or_false] at h
  omega

/-! ## The round trip -/

section Loop

variable {x : List UInt8} {cap : ℕ} {st st' : EncState}

theorem encodeChoice_inv (hx : x.length + 6 < 2 ^ 32) (hinv : EncInv x cap st) {which : Which}
    {r sz : ℕ} (hc : IsChoice (x.drop st.pos) (which, r, sz))
    (h : encodeChoice x cap st which r sz = some st') : EncInv x cap st' ∧ st'.prev = 0 := by
  obtain ⟨hc, hsz⟩ := hc
  obtain ⟨hsz0, hsz16⟩ := mem_sizes hsz
  obtain ⟨-, hfound, hwhich⟩ := candidate_found hsz0 (by simp; omega) hc
  unfold encodeChoice at h
  simp only [Option.bind_eq_bind, Option.bind_eq_some_iff] at h
  obtain ⟨st1, h1, h2⟩ := h
  obtain ⟨hinv1, hpos1, hprev1⟩ := flushPrev_inv hx hinv h1
  rw [← hpos1] at hfound
  rcases hwhich with rfl | ⟨w, rfl⟩
  · obtain ⟨hinv2, -, hprev2⟩ := encodeRepeat_inv (by omega) hinv1 hprev1 hsz0 hsz16 hfound h2
    exact ⟨hinv2, hprev2⟩
  · obtain ⟨hw, hs, hd, hrep⟩ := hfound
    subst hs
    obtain ⟨hinv2, -, hprev2⟩ := encodeWellknown_inv (by omega) hinv1 hprev1 hw hd hrep h2
    exact ⟨hinv2, hprev2⟩

/-- The loop keeps the invariant and runs to the end of the input. -/
theorem compressLoop_inv (hx : x.length + 6 < 2 ^ 32) {greedy : Bool} (hinv : EncInv x cap st)
    (h : compressLoop x cap greedy st = some st') : EncInv x cap st' ∧ st'.pos = x.length := by
  fun_induction compressLoop x cap greedy st with
  | case1 st hlt hb ih =>
    exact ih (hinv.defer (by omega) (by omega)) h
  | case2 => cases h
  | case3 => cases h
  | case4 st hlt which r sz hb st1 he hle ih =>
    have hc := bestCandidate_isChoice sizes 0 none (fun _ h => h) (by simp) hb
    exact ih (encodeChoice_inv hx hinv hc he).1 h
  | case5 st hge =>
    cases h
    exact ⟨hinv, by have := hinv.pos_le; omega⟩

/-- The encoder's output is well-formed tokens that expand to its input, within
the room it was given. -/
theorem compressComdb2RLE_tokens {x : List UInt8} (hx : x.length + 6 < 2 ^ 32) {cap : ℕ}
    {y : List UInt8} (hy : compressComdb2RLE x cap = some y) :
    ∃ ts : List Token, (∀ t ∈ ts, t.WF) ∧ y = ts.flatMap Token.bytes ∧
      ts.flatMap Token.expand = x ∧ y.length ≤ cap := by
  unfold compressComdb2RLE at hy
  simp only [Option.bind_eq_bind, Option.bind_eq_some_iff] at hy
  obtain ⟨st1, h1, st2, h2, hy⟩ := hy
  cases hy
  obtain ⟨hinv1, hpos1⟩ := compressLoop_inv hx (EncInv.init x cap) h1
  obtain ⟨hinv2, hpos2, hprev2⟩ := flushPrev_inv hx hinv1 h2
  obtain ⟨-, -, hout, ts, hwf, hbytes, hexp⟩ := hinv2
  rw [hpos2, hpos1, hprev2, Nat.sub_zero, List.take_length] at hexp
  exact ⟨ts, hwf, hbytes, hexp, hout⟩

/-- Whatever the plain encoder writes fits the output and decompresses to its
input, given room for it. -/
theorem compressComdb2RLE_roundTrip {x : List UInt8} (hx : x.length + 6 < 2 ^ 32) (cap : ℕ)
    {y : List UInt8} (hy : compressComdb2RLE x cap = some y) :
    y.length ≤ cap ∧ ∀ m, x.length ≤ m → decompressComdb2RLE y m = some x := by
  obtain ⟨ts, hwf, rfl, hexp, hout⟩ := compressComdb2RLE_tokens hx hy
  refine ⟨hout, fun m hm => ?_⟩
  rw [decompressComdb2RLE, decompressFrom_tokens ts hwf m (by rw [hexp]; exact hm)
    (by rw [hexp]; omega), hexp]

end Loop

/-- A key with a run of one byte, a repeated pair, a literal byte, a run of the
well-known zero byte, and a literal byte at the end. -/
def sampleKey : List UInt8 := [7, 7, 7, 7, 7, 7, 1, 2, 1, 2, 1, 2, 5, 0, 0, 0, 0, 0, 0, 0, 0, 0, 9]

theorem compressComdb2RLE_roundTrip_sampleKey :
    compressComdb2RLE sampleKey 30 = some [174, 7, 77, 2, 1, 2, 13, 1, 5, 251, 1, 13, 1, 9] ∧
      ([174, 7, 77, 2, 1, 2, 13, 1, 5, 251, 1, 13, 1, 9] : List UInt8).length ≤ 30 ∧
      ∀ m, sampleKey.length ≤ m →
        decompressComdb2RLE [174, 7, 77, 2, 1, 2, 13, 1, 5, 251, 1, 13, 1, 9] m = some sampleKey := by
  -- the loop's five turns: two repeats, a literal byte, a well-known run, a literal byte
  have hb0 : bestCandidate (sampleKey.drop 0) false sizes 0 none = some (.rep, 5, 1) := by decide
  have he0 : encodeChoice sampleKey 30 ⟨0, [], 0⟩ .rep 5 1 = some ⟨6, [174, 7], 0⟩ := by decide
  have hb6 : bestCandidate (sampleKey.drop 6) false sizes 0 none = some (.rep, 2, 2) := by decide
  have he6 : encodeChoice sampleKey 30 ⟨6, [174, 7], 0⟩ .rep 2 2 =
      some ⟨12, [174, 7, 77, 2, 1, 2], 0⟩ := by decide
  have hb12 : bestCandidate (sampleKey.drop 12) false sizes 0 none = none := by decide
  have hb13 : bestCandidate (sampleKey.drop 13) false sizes 0 none = some (.wellKnown 11, 8, 1) := by
    decide
  have he13 : encodeChoice sampleKey 30 ⟨13, [174, 7, 77, 2, 1, 2], 1⟩ (.wellKnown 11) 8 1 =
      some ⟨22, [174, 7, 77, 2, 1, 2, 13, 1, 5, 251, 1], 0⟩ := by decide
  have hb22 : bestCandidate (sampleKey.drop 22) false sizes 0 none = none := by decide
  have h12 : compressLoop sampleKey 30 false ⟨12, [174, 7, 77, 2, 1, 2], 0⟩ =
      compressLoop sampleKey 30 false ⟨13, [174, 7, 77, 2, 1, 2], 1⟩ :=
    compressLoop_defer (by decide) hb12
  have h22 : compressLoop sampleKey 30 false ⟨22, [174, 7, 77, 2, 1, 2, 13, 1, 5, 251, 1], 0⟩ =
      compressLoop sampleKey 30 false ⟨23, [174, 7, 77, 2, 1, 2, 13, 1, 5, 251, 1], 1⟩ :=
    compressLoop_defer (by decide) hb22
  have hy : compressComdb2RLE sampleKey 30 = some [174, 7, 77, 2, 1, 2, 13, 1, 5, 251, 1, 13, 1, 9] := by
    rw [compressComdb2RLE, show decide (sampleKey.length > 1024) = false by decide,
      compressLoop_chunk (by decide) hb0 he0 (by decide),
      compressLoop_chunk (by decide) hb6 he6 (by decide), h12,
      compressLoop_chunk (by decide) hb13 he13 (by decide), h22, compressLoop_done (by decide)]
    decide
  exact ⟨hy, compressComdb2RLE_roundTrip (by decide) 30 hy⟩

/-! ## An input too long for the counters -/

/-- No well-known pattern starts with a byte that starts none of them. -/
theorem wellKnown_eq_none {d : List UInt8} {s : ℕ}
    (h : ∀ i < maxpat, (patterns.getD i []).head? ≠ d.head?) : wellKnown d s = none := by
  unfold wellKnown
  rw [List.find?_eq_none]
  intro i hi hmatch
  have him := List.mem_range.mp hi
  simp only [decide_eq_true_eq] at hmatch
  apply h i him
  rw [← hmatch.2, List.head?_take, if_neg (psizes_pos i him).ne']

/-- One byte that differs from the byte after it does not repeat. -/
theorem repeats_one_eq_zero {input : List UInt8} (hne : input[1]? ≠ input[0]?) :
    repeats input 1 = 0 := by
  unfold repeats
  by_cases hshort : input.length < 1 * 2
  · rw [if_pos hshort]
  · rcases input with _ | ⟨a, _ | ⟨b, l⟩⟩
    · simp at hshort
    · simp at hshort
    have hba : b ≠ a := fun h => hne (by simp [h])
    -- the quad scan stops at the first quad, and the byte scan at the second byte
    have hq : chunkRun (List.replicate 8 a) 8 ((a :: b :: l).length / 8) (a :: b :: l) = 0 := by
      apply chunkRun_eq_zero
      intro h
      have := congrArg (·[1]?) h
      simp [hba] at this
    rw [if_neg hshort, if_pos rfl]
    simp only [List.headD_cons, hq, if_pos, ite_self]
    simp [byteRun, hba, u32]

theorem candidate_eq_none {input : List UInt8} {sz : ℕ} (hr : repeats input sz = 0)
    (hk : wellKnown input sz = none) : candidate input sz = none := by
  unfold candidate
  simp [hr, hk]

/-- Sizes that offer nothing leave the search where it started. -/
theorem bestCandidate_of_none {input : List UInt8} {greedy : Bool} :
    ∀ (szs : List ℕ) (saved : ℕ) (best : Option (Which × ℕ × ℕ)),
      (∀ sz ∈ szs, candidate input sz = none) → bestCandidate input greedy szs saved best = best
  | [], _, _, _ => rfl
  | sz :: szs, saved, best, h => by
    rw [bestCandidate, h sz List.mem_cons_self]
    exact bestCandidate_of_none szs saved best fun sz' h' => h sz' (List.mem_cons_of_mem _ h')

/-- Positions that offer nothing only add to the pending count, modulo `2 ^ 32`. -/
theorem compressLoop_incompressible {x : List UInt8} {cap : ℕ} {greedy : Bool} :
    ∀ (n : ℕ) (st : EncState), st.prev < 2 ^ 32 → st.pos + n = x.length →
      (∀ j < n, bestCandidate (x.drop (st.pos + j)) greedy sizes 0 none = none) →
      compressLoop x cap greedy st = some ⟨x.length, st.out, u32 (st.prev + n)⟩
  | 0, st, hp, hn, _ => by
    rw [compressLoop_done (by omega), Nat.add_zero, u32_of_lt hp, ← hn, Nat.add_zero]
  | n + 1, st, hp, hn, hnone => by
    have h0 := hnone 0 (Nat.succ_pos n)
    rw [Nat.add_zero] at h0
    rw [compressLoop_defer (by omega) h0,
      compressLoop_incompressible n _ (u32_lt _) (by simp only; omega) fun j hj => by
        simpa only [Nat.add_assoc, Nat.add_comm 1] using hnone (j + 1) (by omega)]
    simp only [u32, Nat.mod_add_mod, Nat.add_assoc, Nat.add_comm 1 n]

/-- The bytes `0x11 0x22 0x33 0x44`, in a cycle. -/
def cycleByte (i : ℕ) : UInt8 := [0x11, 0x22, 0x33, 0x44].getD (i % 4) 0

/-- `2 ^ 32` bytes of the cycle. -/
def cycleKey : List UInt8 := (List.range (2 ^ 32)).map cycleByte

theorem length_cycleKey : cycleKey.length = 2 ^ 32 := by simp [cycleKey]

theorem getElem?_drop_cycleKey (pos k : ℕ) :
    (cycleKey.drop pos)[k]? = if pos + k < 2 ^ 32 then some (cycleByte (pos + k)) else none := by
  rw [List.getElem?_drop, cycleKey, List.getElem?_map]
  split_ifs with h
  · rw [List.getElem?_range h]
    rfl
  · rw [List.getElem?_eq_none (by simp; omega)]
    rfl

/-- Bytes of the cycle a number of places apart that is not a multiple of 4 differ. -/
theorem cycleByte_ne {a b : ℕ} (h : a % 4 ≠ b % 4) : cycleByte a ≠ cycleByte b := by
  have hsmall : ∀ i < 4, ∀ j < 4, i ≠ j →
      ([0x11, 0x22, 0x33, 0x44] : List UInt8).getD i 0 ≠ [0x11, 0x22, 0x33, 0x44].getD j 0 := by
    decide
  exact hsmall _ (Nat.mod_lt a (by norm_num)) _ (Nat.mod_lt b (by norm_num)) h

/-- Nowhere in `cycleKey` does a size offer anything. -/
theorem bestCandidate_cycleKey {pos : ℕ} (hpos : pos < 2 ^ 32) (greedy : Bool) :
    bestCandidate (cycleKey.drop pos) greedy sizes 0 none = none := by
  have hfirst : (cycleKey.drop pos)[0]? = some (cycleByte pos) := by
    rw [getElem?_drop_cycleKey, if_pos (by omega), Nat.add_zero]
  -- a byte `sz` places on is another byte of the cycle, or past the end
  have hne : ∀ sz ∈ sizes, (cycleKey.drop pos)[sz]? ≠ (cycleKey.drop pos)[0]? := by
    intro sz hsz h
    rw [hfirst, getElem?_drop_cycleKey] at h
    -- past the end the byte reads `none`, which `split_ifs` discharges itself
    split_ifs at h
    apply cycleByte_ne _ (Option.some.inj h)
    simp only [sizes, List.mem_cons, List.not_mem_nil, or_false] at hsz
    omega
  apply bestCandidate_of_none
  intro sz hsz
  apply candidate_eq_none
  · by_cases h1 : sz = 1
    · subst h1
      exact repeats_one_eq_zero (hne 1 hsz)
    · exact repeats_eq_zero (by have := mem_sizes hsz; omega) (hne sz hsz)
  · apply wellKnown_eq_none
    rw [List.head?_eq_getElem?, hfirst]
    have hheads : ∀ i < maxpat, ∀ k < 4,
        (patterns.getD i []).head? ≠ some (([0x11, 0x22, 0x33, 0x44] : List UInt8).getD k 0) := by
      decide
    exact fun i hi => hheads i hi _ (Nat.mod_lt pos (by norm_num))

/-- Without the bound the round trip fails: `2 ^ 32` bytes that nothing
compresses wrap the pending count to 0, and the encoder succeeds with nothing
written. -/
theorem compressComdb2RLE_wraps :
    cycleKey.length = 2 ^ 32 ∧ compressComdb2RLE cycleKey 0 = some [] ∧
      decompressComdb2RLE [] cycleKey.length ≠ some cycleKey := by
  refine ⟨length_cycleKey, ?_, ?_⟩
  · have hloop : compressLoop cycleKey 0 true ⟨0, [], 0⟩ = some ⟨2 ^ 32, [], 0⟩ := by
      rw [compressLoop_incompressible (2 ^ 32) ⟨0, [], 0⟩ (by norm_num) length_cycleKey.symm
        fun j hj => bestCandidate_cycleKey (by simpa using hj) true, length_cycleKey]
      rfl
    rw [compressComdb2RLE, length_cycleKey, show decide (2 ^ 32 > 1024) = true by decide, hloop]
    rfl
  · rw [decompressComdb2RLE, decompressFrom, if_pos rfl]
    intro h
    have := congrArg List.length (Option.some.inj h)
    simp [length_cycleKey] at this

end Crle
