import Comdb2.Bdb.Odh
import Comdb2.Bdb.Rle8
import Comdb2.Comdb2rle.RoundTrip

/-!
# Packing records behind the on-disk header

`bdb_pack` stores a record behind the seven header bytes of `Odh`.  The low
three bits of the flags name a compression algorithm.  The record is compressed
into room for one byte less than itself (zlib and `rle8` get the full length),
and where the compressor fails the record is stored as it is, with the
algorithm bits of the flags cleared.  `bdb_unpack_updateid` reads the header,
checks the update id it is asked for, and decompresses or points at the
payload.

zlib and LZ4 are third-party code.  Their four entry points are parameters
(`Codecs`), and what `bdb_pack` relies on is named: what the compressor writes
fits its room and the decompressor reads it back (`Codecs.ZlibInverse`,
`Codecs.Lz4Inverse`).  `rle8` and `comdb2rle` are modelled in their own modules
and their round trips are proved there.

Packing then unpacking gives back the record and its header
(`bdbUnpackUpdateid_bdbPack`).  The proof goes through one algorithm at a time
(`inflate_compress`) and through the header round trip of `Odh`.
-/

namespace Bdb

/-! ## Algorithms and codecs -/

/-- `BDB_COMPRESS_*`: the algorithms the low bits of the flags name. -/
inductive BdbCompress where
  | none
  | zlib
  | rle8
  | crle
  | lz4
deriving DecidableEq, Repr

/-- The algorithm with the number `alg`, if there is one. -/
def BdbCompress.ofNat? : ℕ → Option BdbCompress
  | 0 => some .none
  | 1 => some .zlib
  | 2 => some .rle8
  | 3 => some .crle
  | 4 => some .lz4
  | _ => none

/-- The entry points of zlib and LZ4 that `bdb_pack` and `bdb_unpack` call:
`compress2(dest, &destLen, src, srcLen, level)`, `uncompress(dest, &destLen,
src, srcLen)`, `LZ4_compress_default(src, dst, srcSize, dstCapacity)` and
`LZ4_decompress_safe(src, dst, srcSize, dstCapacity)`.  Each takes the source
and the room for its output and gives the bytes it writes, or `none` where it
fails. -/
structure Codecs where
  compress2 : List UInt8 → ℕ → ℕ → Option (List UInt8)
  uncompress : List UInt8 → ℕ → Option (List UInt8)
  lz4CompressDefault : List UInt8 → ℕ → Option (List UInt8)
  lz4DecompressSafe : List UInt8 → ℕ → Option (List UInt8)

/-- What zlib promises: `compress2` writes within its room, and `uncompress`
reads it back into room for the source. -/
def Codecs.ZlibInverse (c : Codecs) : Prop :=
  ∀ src cap level out, c.compress2 src cap level = some out →
    out.length ≤ cap ∧ c.uncompress out src.length = some src

/-- What LZ4 promises, in the same terms. -/
def Codecs.Lz4Inverse (c : Codecs) : Prop :=
  ∀ src cap out, c.lz4CompressDefault src cap = some out →
    out.length ≤ cap ∧ c.lz4DecompressSafe out src.length = some src

/-- What `bdb_pack` and `bdb_unpack_updateid` read from `bdb_state`: whether
records have a header, the zlib level, and the field hints of the table and of
its partial datacopies. -/
structure PackState where
  ondiskHeader : Bool
  zlibLevel : ℕ
  fldHints : List UInt16
  fldHintsPd : ℕ → List UInt16

/-- `pd_index != -1 ? bdb_state->fld_hints_pd[pd_index] : bdb_state->fld_hints`. -/
def PackState.fldHintsFor (st : PackState) (pdIndex : ℤ) : List UInt16 :=
  if pdIndex ≠ -1 then st.fldHintsPd pdIndex.toNat else st.fldHints

/-- `create_fld_hints(schema)`: the lengths of the schema's members as
`uint16_t`, before the terminating zero. -/
def createFldHints (memberLens : List ℕ) : List UInt16 :=
  memberLens.map UInt16.ofNat

/-! ## Packing -/

/-- The `switch (alg)` of `bdb_pack`: what the compressor writes for a record
of `length` bytes, or `none` where the record is stored as it is. -/
def compress (c : Codecs) (st : PackState) (pdIndex : ℤ) (length : ℕ) (rec : List UInt8) :
    BdbCompress → Option (List UInt8)
  | .none => none
  | .zlib => c.compress2 rec length st.zlibLevel
  | .rle8 => Rle8.rle8Compress rec length
  | .crle => Crle.compressComdb2RLEHints rec (length - 1) (st.fldHintsFor pdIndex)
  | .lz4 => c.lz4CompressDefault rec (length - 1)

/-- The error codes of `bdb_pack` and `bdb_unpack_updateid`.  `unknownAlg`
stands where the flags name an algorithm above `lz4`: `bdb_pack` then returns
with `*recsize` unset, and `bdb_unpack_updateid` with the record in a buffer it
never wrote. -/
inductive BdbError where
  | einval
  | odhCorrupt
  | notFound
  | uncompressErr
  | unknownAlg
deriving DecidableEq, Repr

/-- The algorithm `bdb_pack` runs: the one the flags name, or none for an empty
record. -/
def packAlg (odh : Odh) : ℕ :=
  if odh.length ≠ 0 then (odh.flags &&& odhFlagComprMask).toNat else 0

/-- `bdb_pack` with an on-disk header, once it has a buffer: the header, then
the compressed record, or the record as it is with the algorithm bits of the
flags cleared. -/
def packOdh (c : Codecs) (st : PackState) (odh : Odh) (rec : List UInt8) (pdIndex : ℤ) :
    Except BdbError (List UInt8) :=
  match BdbCompress.ofNat? (packAlg odh) with
  | none => .error .unknownAlg
  | some alg =>
    match compress c st pdIndex odh.length.toNat rec alg with
    | some out => .ok (writeOdh odh odh.flags ++ out)
    | none => .ok (writeOdh odh (odh.flags &&& ~~~odhFlagComprMask) ++ rec)

/-- `bdb_pack(bdb_state, odh, to, tolen, ...)`: the packed record or the error
code.  `tolen` is the length of the caller's buffer `to`, where it gives one;
`rec` is the `odh->length` bytes at `odh->recptr`. -/
def bdbPack (c : Codecs) (st : PackState) (odh : Odh) (rec : List UInt8) (tolen : Option ℕ)
    (pdIndex : ℤ) : Except BdbError (List UInt8) :=
  if st.ondiskHeader then
    match tolen with
    | some tolen =>
      if tolen < odh.length.toNat + odhSize then .error .einval
      else packOdh c st odh rec pdIndex
    | none => packOdh c st odh rec pdIndex
  else if odh.updateid ≠ 0 ∨ odh.flags ≠ 0 ∨ odh.csc2vers ≠ 0 then .error .einval
  else .ok rec

/-! ## Unpacking -/

/-- The decompressors of `bdb_unpack_updateid`, each into room for `length`
bytes. -/
def decompress (c : Codecs) (length : ℕ) (payload : List UInt8) :
    BdbCompress → Option (List UInt8)
  | .none => some payload
  | .zlib => c.uncompress payload length
  | .rle8 => Rle8.rle8Decompress payload length
  | .crle => Crle.decompressComdb2RLE payload length
  | .lz4 => c.lz4DecompressSafe payload length

/-- The decompression of a compressed record: what the algorithm reads back,
which must be exactly `length` bytes. -/
def inflate (c : Codecs) (length : ℕ) (payload : List UInt8) :
    Option BdbCompress → Except BdbError (List UInt8)
  | none => .error .unknownAlg
  | some alg =>
    match decompress c length payload alg with
    | some out => if out.length = length then .ok out else .error .uncompressErr
    | none => .error .uncompressErr

/-- The record behind a header: the payload itself, or what it decompresses to.
It is `none` where the C leaves `odh->recptr` NULL, for a compressed record
with neither a buffer nor a `freeptr`. -/
def unpackPayload (c : Codecs) (odh : Odh) (payload : List UInt8) (tolen : Option ℕ)
    (freeptr : Bool) : Except BdbError (Option (List UInt8)) :=
  let length := odh.length.toNat
  let alg := BdbCompress.ofNat? (odh.flags &&& odhFlagComprMask).toNat
  if alg = some .none then
    if length ≠ payload.length then .error .odhCorrupt else .ok (some payload)
  else
    match tolen with
    | some tolen =>
      if tolen < length then .error .einval else (inflate c length payload alg).map some
    | none => if freeptr then (inflate c length payload alg).map some else .ok none

/-- `bdb_unpack_updateid(bdb_state, from, fromlen, to, tolen, odh, updateid,
freeptr, verify_updateid, force_odh, ...)`: the header read and the record, or
the error code.  `tolen` is the length of the caller's buffer `to`, where it
gives one. -/
def bdbUnpackUpdateid (c : Codecs) (st : PackState) (src : List UInt8) (tolen : Option ℕ)
    (updateid : ℤ) (freeptr verifyUpdateid forceOdh : Bool) :
    Except BdbError (Odh × Option (List UInt8)) :=
  if st.ondiskHeader || forceOdh then
    if src.length < odhSize then .error .odhCorrupt
    else
      let odh := readOdh src
      if verifyUpdateid ∧ 0 ≤ updateid ∧ (odh.updateid.toNat : ℤ) ≠ updateid then .error .notFound
      else if !verifyUpdateid ∧ 0 ≤ updateid ∧ updateid < odh.updateid.toNat then .error .notFound
      else
        -- records written before schema versions have version 0, which is version 1
        let odh' := if odh.csc2vers = 0 then { odh with csc2vers := 1 } else odh
        (unpackPayload c odh (src.drop odhSize) tolen freeptr).map (odh', ·)
  else .ok (⟨UInt32.ofNat src.length, 0, 0, 0⟩, some src)

/-! ## Field hints -/

/-- The hints of a schema whose members take between 1 and `2 ^ 16 - 1` bytes
are positive. -/
theorem createFldHints_pos {memberLens : List ℕ} (h : ∀ l ∈ memberLens, 0 < l ∧ l < 2 ^ 16) :
    ∀ x ∈ createFldHints memberLens, 0 < x.toNat := by
  intro x hx
  obtain ⟨l, hl, rfl⟩ := List.mem_map.mp hx
  rw [UInt16.toNat_ofNat', Nat.mod_eq_of_lt (h l hl).2]
  exact (h l hl).1

/-- ... and add up to the members' lengths. -/
theorem sum_createFldHints {memberLens : List ℕ} (h : ∀ l ∈ memberLens, 0 < l ∧ l < 2 ^ 16) :
    ((createFldHints memberLens).map UInt16.toNat).sum = memberLens.sum := by
  have hid : memberLens.map (fun l => (UInt16.ofNat l).toNat) = memberLens.map id :=
    List.map_congr_left fun l hl => by rw [UInt16.toNat_ofNat', Nat.mod_eq_of_lt (h l hl).2, id]
  rw [createFldHints, List.map_map, Function.comp_def, hid, List.map_id]

/-! ## One algorithm at a time -/

theorem ofNat?_isSome {n : ℕ} (h : n ≤ 4) : ∃ alg, BdbCompress.ofNat? n = some alg := by
  interval_cases n <;> exact ⟨_, rfl⟩

section RoundTrip

variable {c : Codecs} {st : PackState} {pdIndex : ℤ} {rec : List UInt8}

/-- Whatever a compressor writes for a record, its decompressor reads back. -/
theorem decompress_compress (hz : c.ZlibInverse) (hl : c.Lz4Inverse)
    (hpos : ∀ h ∈ st.fldHintsFor pdIndex, 0 < h.toNat)
    (hsum : ((st.fldHintsFor pdIndex).map UInt16.toNat).sum = rec.length)
    (hrec : rec.length < 2 ^ 28) {alg : BdbCompress} {out : List UInt8}
    (h : compress c st pdIndex rec.length rec alg = some out) :
    decompress c rec.length out alg = some rec := by
  cases alg with
  | none => cases h
  | zlib => exact (hz _ _ _ _ h).2
  | rle8 => exact (Rle8.rle8Decompress_rle8Compress h).2 _ le_rfl
  | crle =>
    obtain ⟨ts, hwf, rfl, hexp, -⟩ := Crle.compressComdb2RLEHints_tokens (by omega) _ hpos hsum h
    rw [decompress, Crle.decompressComdb2RLE, Crle.decompressFrom_tokens ts hwf _ (by rw [hexp])
      (by rw [hexp]; omega), hexp]
  | lz4 => exact (hl _ _ _ h).2

theorem inflate_compress (hz : c.ZlibInverse) (hl : c.Lz4Inverse)
    (hpos : ∀ h ∈ st.fldHintsFor pdIndex, 0 < h.toNat)
    (hsum : ((st.fldHintsFor pdIndex).map UInt16.toNat).sum = rec.length)
    (hrec : rec.length < 2 ^ 28) {alg : BdbCompress} {out : List UInt8}
    (h : compress c st pdIndex rec.length rec alg = some out) :
    inflate c rec.length out (some alg) = .ok rec := by
  rw [inflate, decompress_compress hz hl hpos hsum hrec h]
  exact if_pos rfl

end RoundTrip

/-! ## Unpacking a packed record -/

/-- Unpacking a record behind a header whose fields fit their widths, with no
update id to check: the header as written, version 0 read as 1, and the record
behind it. -/
theorem bdbUnpackUpdateid_writeOdh (c : Codecs) {st : PackState} (hon : st.ondiskHeader = true)
    {odh : Odh} (hlen : odh.length.toNat < 2 ^ 28) (hid : odh.updateid.toNat < 2 ^ 12)
    (flags : UInt8) (payload : List UInt8) (tolen : Option ℕ) (freeptr verify forceOdh : Bool) :
    bdbUnpackUpdateid c st (writeOdh odh flags ++ payload) tolen (-1) freeptr verify forceOdh =
      (unpackPayload c { odh with flags } payload tolen freeptr).map
        ({ odh with flags, csc2vers := if odh.csc2vers = 0 then 1 else odh.csc2vers }, ·) := by
  have hsize : ¬ (writeOdh odh flags ++ payload).length < odhSize := by
    simp [length_writeOdh]
  have hdrop : (writeOdh odh flags ++ payload).drop odhSize = payload :=
    List.drop_left' (length_writeOdh odh flags)
  -- an update id of `-1` is never checked
  have hneg : ¬ (0 : ℤ) ≤ -1 := by decide
  rw [bdbUnpackUpdateid, hon, Bool.true_or, if_pos rfl, if_neg hsize]
  simp only [readOdh_writeOdh_of_lt hlen hid, hdrop]
  rw [if_neg fun h => hneg h.2.1, if_neg fun h => hneg h.2.1]
  by_cases hv : odh.csc2vers = 0 <;> simp [hv]

/-- A stored record is the payload itself. -/
theorem unpackPayload_stored (c : Codecs) {odh : Odh} (halg : odh.flags &&& odhFlagComprMask = 0)
    {payload : List UInt8} (hlen : odh.length.toNat = payload.length) (tolen : Option ℕ)
    (freeptr : Bool) :
    unpackPayload c odh payload tolen freeptr = .ok (some payload) := by
  have hstored : BdbCompress.ofNat? (odh.flags &&& odhFlagComprMask).toNat = some .none := by
    rw [halg]
    rfl
  simp only [unpackPayload, hstored, hlen, if_neg (not_not.mpr rfl), if_true]

/-- A compressed record is what its algorithm reads back, given a `freeptr`. -/
theorem unpackPayload_compressed (c : Codecs) {odh : Odh} {alg : BdbCompress}
    (halg : BdbCompress.ofNat? (odh.flags &&& odhFlagComprMask).toNat = some alg)
    (hne : alg ≠ .none) {payload rec : List UInt8}
    (h : inflate c odh.length.toNat payload (some alg) = .ok rec) :
    unpackPayload c odh payload none true = .ok (some rec) := by
  have hne' : some alg ≠ some BdbCompress.none := fun h' => hne (Option.some_inj.mp h')
  simp only [unpackPayload, halg, if_neg hne', h]
  rfl

/-- The algorithm `bdb_pack` ran, where it compressed the record, is the one the
flags name. -/
theorem ofNat?_flags_of_compress {c : Codecs} {st : PackState} {pdIndex : ℤ} {odh : Odh}
    {rec out : List UInt8} {alg : BdbCompress} (halg : BdbCompress.ofNat? (packAlg odh) = some alg)
    (h : compress c st pdIndex odh.length.toNat rec alg = some out) :
    BdbCompress.ofNat? (odh.flags &&& odhFlagComprMask).toNat = some alg := by
  unfold packAlg at halg
  split_ifs at halg with h0
  · exact halg
  · -- an empty record is never compressed
    cases Option.some_inj.mp halg
    cases h

/-! ## Packing, then unpacking -/

/-- A record packed behind the header reads back with its header.  The payload
is what the compressor wrote, or the record itself with the algorithm bits of
the flags cleared where the compressor failed.  Poking the update id of the
packed record changes only that field of its header. -/
theorem bdbUnpackUpdateid_bdbPack (c : Codecs) (hz : c.ZlibInverse) (hl : c.Lz4Inverse)
    (st : PackState) (hon : st.ondiskHeader = true) (pdIndex : ℤ) (memberLens : List ℕ)
    (hlens : ∀ l ∈ memberLens, 0 < l ∧ l < 2 ^ 16)
    (hhints : st.fldHintsFor pdIndex = createFldHints memberLens)
    (r : List UInt8) (hr : r.length < 2 ^ 28) (hsum : memberLens.sum = r.length)
    (u : ℕ) (hu : u < 2 ^ 12) (v flags : UInt8) (halg : (flags &&& odhFlagComprMask).toNat ≤ 4) :
    let odh : Odh := ⟨UInt32.ofNat r.length, UInt16.ofNat u, v, flags⟩
    ∃ b payload flags', bdbPack c st odh r none pdIndex = .ok b ∧
      b = writeOdh odh flags' ++ payload ∧ b.length = odhSize + payload.length ∧
      (∃ alg, BdbCompress.ofNat? (packAlg odh) = some alg ∧
        (compress c st pdIndex r.length r alg = some payload ∧ flags' = flags ∨
          compress c st pdIndex r.length r alg = none ∧ payload = r ∧
            flags' = flags &&& ~~~odhFlagComprMask)) ∧
      (∀ verify forceOdh, bdbUnpackUpdateid c st b none (-1) true verify forceOdh =
        .ok ({ odh with csc2vers := if v = 0 then 1 else v, flags := flags' }, some r)) ∧
      ∀ u' : ℤ, readOdh (pokeUpdateid b u') =
        { readOdh b with updateid := UInt16.ofNat (u' % 4096).toNat } := by
  intro odh
  have hlen : odh.length.toNat = r.length := by
    simp only [odh, UInt32.toNat_ofNat']
    omega
  have hid : odh.updateid.toNat < 2 ^ 12 := by
    simp only [odh, UInt16.toNat_ofNat']
    omega
  have hpos : ∀ h ∈ st.fldHintsFor pdIndex, 0 < h.toNat := hhints ▸ createFldHints_pos hlens
  have hsum' : ((st.fldHintsFor pdIndex).map UInt16.toNat).sum = r.length := by
    rw [hhints, sum_createFldHints hlens, hsum]
  have hpack : bdbPack c st odh r none pdIndex = packOdh c st odh r pdIndex := by
    rw [bdbPack, hon, if_pos rfl]
  have hpoke : ∀ flags' payload (u' : ℤ), readOdh (pokeUpdateid (writeOdh odh flags' ++ payload) u') =
      { readOdh (writeOdh odh flags' ++ payload) with updateid := UInt16.ofNat (u' % 4096).toNat } :=
    fun flags' payload u' => readOdh_pokeUpdateid
      (by rw [List.length_append, length_writeOdh, odhSize]; omega) u'
  obtain ⟨alg, halg'⟩ : ∃ alg, BdbCompress.ofNat? (packAlg odh) = some alg := by
    unfold packAlg
    split_ifs
    · exact ofNat?_isSome halg
    · exact ofNat?_isSome (by omega)
  cases hc : compress c st pdIndex r.length r alg with
  | some out =>
    -- compressed: the flags keep the algorithm, and unpacking inflates
    have hc' : compress c st pdIndex odh.length.toNat r alg = some out := hlen ▸ hc
    have hflags := ofNat?_flags_of_compress halg' hc'
    have hne : alg ≠ .none := by
      rintro rfl
      cases hc
    refine ⟨writeOdh odh flags ++ out, out, flags, ?_, rfl, by simp [length_writeOdh], ⟨alg, halg',
      .inl ⟨hc, rfl⟩⟩, fun verify forceOdh => ?_, hpoke flags out⟩
    · simp only [hpack, packOdh, halg', hc']
      rfl
    · rw [bdbUnpackUpdateid_writeOdh c hon (by omega) hid, unpackPayload_compressed c hflags hne
        (hlen ▸ inflate_compress hz hl hpos hsum' hr hc)]
      rfl
  | none =>
    -- stored: the algorithm bits are cleared, and unpacking points at the payload
    have hc' : compress c st pdIndex odh.length.toNat r alg = none := hlen ▸ hc
    have hclear : ({ odh with flags := flags &&& ~~~odhFlagComprMask } : Odh).flags &&&
        odhFlagComprMask = 0 := by
      rw [UInt8.and_assoc, UInt8.not_and_self, UInt8.and_zero]
    refine ⟨writeOdh odh (flags &&& ~~~odhFlagComprMask) ++ r, r, flags &&& ~~~odhFlagComprMask,
      ?_, rfl, by simp [length_writeOdh], ⟨alg, halg', .inr ⟨hc, rfl, rfl⟩⟩,
      fun verify forceOdh => ?_, hpoke _ r⟩
    · simp only [hpack, packOdh, halg', hc']
      rfl
    · rw [bdbUnpackUpdateid_writeOdh c hon (by omega) hid, unpackPayload_stored c hclear hlen]
      rfl

/-- Codecs that store the source as it is, where it fits. -/
def storedCodecs : Codecs where
  compress2 src cap _ := if src.length ≤ cap then some src else none
  uncompress src cap := if src.length ≤ cap then some src else none
  lz4CompressDefault src cap := if src.length ≤ cap then some src else none
  lz4DecompressSafe src cap := if src.length ≤ cap then some src else none

theorem storedCodecs_zlibInverse : storedCodecs.ZlibInverse := by
  intro src cap level out h
  simp only [storedCodecs, Option.ite_none_right_eq_some, Option.some.injEq] at h
  obtain ⟨hle, rfl⟩ := h
  exact ⟨hle, if_pos le_rfl⟩

theorem storedCodecs_lz4Inverse : storedCodecs.Lz4Inverse := by
  intro src cap out h
  simp only [storedCodecs, Option.ite_none_right_eq_some, Option.some.injEq] at h
  obtain ⟨hle, rfl⟩ := h
  exact ⟨hle, if_pos le_rfl⟩

/-- A record of ten equal bytes with the RLE8 flag and hints `[4, 4, 2]`: the
compressor runs, the payload is the run's two bytes and the flags keep RLE8,
and unpacking gives the record back. -/
theorem bdbUnpackUpdateid_bdbPack_rle8 :
    let odh : Odh := ⟨UInt32.ofNat 10, UInt16.ofNat 77, 0, 2⟩
    let st : PackState := ⟨true, 6, [4, 4, 2], fun _ => []⟩
    let r : List UInt8 := List.replicate 10 5
    ∃ b, bdbPack storedCodecs st odh r none (-1) = .ok b ∧ b = writeOdh odh 2 ++ [0x8a, 5] ∧
      ∀ verify forceOdh, bdbUnpackUpdateid storedCodecs st b none (-1) true verify forceOdh =
        .ok ({ odh with csc2vers := 1, flags := 2 }, some r) := by
  intro odh st r
  obtain ⟨b, payload, flags', hpack, hb, -, ⟨alg, halg, hc⟩, hunpack, -⟩ :=
    bdbUnpackUpdateid_bdbPack storedCodecs storedCodecs_zlibInverse storedCodecs_lz4Inverse
      st rfl (-1) [4, 4, 2] (by norm_num) (by decide) r (by simp [r]) (by simp [r]) 77 (by norm_num)
      0 2 (by decide)
  have hlen : r.length = 10 := by simp [r]
  rw [hlen] at hpack hb halg hunpack
  -- the flags name RLE8, which compresses the run
  have halg' : alg = .rle8 := by
    have : BdbCompress.ofNat? (packAlg odh) = some .rle8 := by decide
    rw [this] at halg
    exact (Option.some.inj halg).symm
  have hrle : compress storedCodecs st (-1) r.length r .rle8 = some [0x8a, 5] :=
    Rle8.rle8Compress_replicate 5 (n := 10) (by norm_num) (by norm_num) (by simp [r])
  subst halg'
  rcases hc with ⟨hc, rfl⟩ | ⟨hc, -, -⟩
  · rw [hrle] at hc
    cases hc
    exact ⟨b, hpack, hb, fun verify forceOdh => by simpa [odh] using hunpack verify forceOdh⟩
  · rw [hrle] at hc
    cases hc

end Bdb
