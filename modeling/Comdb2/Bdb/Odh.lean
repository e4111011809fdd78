import Comdb2.Lib.Bits

/-!
# The on-disk header

A record stored with an on-disk header (ODH) starts with seven bytes: the flags,
the schema version, a 12-bit update id and a 28-bit length.  The update id
straddles bytes 3 and 4, and byte 4 also holds the top four bits of the length.
`write_odh` writes the header, `read_odh` reads it back, and `poke_updateid`
rewrites the update id of a stored record in place.

The C computes each byte in `int` and stores it in a `uint8_t`.  The model
computes on naturals and truncates at the store (`UInt8.ofNat`).  `readOdh_eq`
reads the shifts and masks of `read_odh` as arithmetic on the bytes.  The header
reads back to its fields, each cut to its width (`readOdh_writeOdh`).  Poking
the update id changes that field only (`readOdh_pokeUpdateid`).
-/

namespace Bdb

/-! ## The header -/

/-- `ODH_SIZE`. -/
def odhSize : ℕ := 7

/-- `ODH_FLAG_COMPR_MASK`: the low three bits of the flags name the compression. -/
def odhFlagComprMask : UInt8 := 0x7

/-- The header fields of `struct odh`.  The record they describe travels beside
them. -/
structure Odh where
  length : UInt32
  updateid : UInt16
  csc2vers : UInt8
  flags : UInt8
deriving DecidableEq, Repr

/-- `write_odh(buf, odh, flags)`: the seven header bytes, with `flags` in place
of the record's own. -/
def writeOdh (odh : Odh) (flags : UInt8) : List UInt8 :=
  let len := odh.length.toNat
  let updid := odh.updateid.toNat
  [flags, odh.csc2vers, UInt8.ofNat (updid >>> 4),
    UInt8.ofNat (updid <<< 4 &&& 0xf0 ||| len >>> 24 &&& 0x0f),
    UInt8.ofNat (len >>> 16 &&& 0xff), UInt8.ofNat (len >>> 8 &&& 0xff),
    UInt8.ofNat (len &&& 0xff)]

/-- `read_odh(buf, odh)`: the header fields from the first seven bytes. -/
def readOdh (buf : List UInt8) : Odh :=
  let b := fun i => (buf.getD i 0).toNat
  { flags := buf.getD 0 0
    csc2vers := buf.getD 1 0
    updateid := UInt16.ofNat (b 2 <<< 4 ||| b 3 >>> 4)
    length := UInt32.ofNat
      ((b 3 &&& 0x0f) <<< 24 ||| (b 4 &&& 0xff) <<< 16 ||| (b 5 &&& 0xff) <<< 8 ||| b 6 &&& 0xff) }

/-- `poke_updateid(buf, updid)`: bytes 3 and 4 of `write_odh` for a new update
id, keeping the length's bits in byte 4.  The C masks in `int` and stores in a
`uint8_t`; the model stores first and masks the byte, which gives the same
byte. -/
def pokeUpdateid (buf : List UInt8) (updid : ℤ) : List UInt8 :=
  (buf.set 2 (UInt8.ofInt (updid >>> (4 : ℕ)))).set 3
    (UInt8.ofInt (updid <<< (4 : ℕ)) &&& 0xf0 ||| buf.getD 3 0 &&& 0x0f)

/-! ## Reading the bytes as numbers -/

theorem length_writeOdh (odh : Odh) (flags : UInt8) : (writeOdh odh flags).length = odhSize :=
  rfl

/-- `read_odh` as arithmetic: the update id is byte 3 and the high half of byte
4, the length the low half of byte 4 and bytes 5 to 7. -/
theorem readOdh_eq (buf : List UInt8) :
    readOdh buf =
      { flags := buf.getD 0 0
        csc2vers := buf.getD 1 0
        updateid := UInt16.ofNat ((buf.getD 2 0).toNat * 16 + (buf.getD 3 0).toNat / 16)
        length := UInt32.ofNat ((buf.getD 3 0).toNat % 16 * 2 ^ 24 +
          (buf.getD 4 0).toNat * 2 ^ 16 + (buf.getD 5 0).toNat * 2 ^ 8 + (buf.getD 6 0).toNat) } := by
  have hb : ∀ i, (buf.getD i 0).toNat < 2 ^ 8 := fun i => UInt8.toNat_lt _
  have h3 := hb 3
  have h4 := hb 4
  have h5 := hb 5
  have h6 := hb 6
  simp only [readOdh, Bits.and_ones (m := 0x0f) 4 rfl, Bits.and_ones (m := 0xff) 8 rfl,
    Nat.shiftLeft_eq, Nat.shiftRight_eq_div_pow, Nat.mod_eq_of_lt h4, Nat.mod_eq_of_lt h5,
    Nat.mod_eq_of_lt h6]
  -- each `|||` joins a multiple of `2 ^ k` with a value below it
  simp (disch := omega) only [Bits.or_eq_add_of_dvd (k := 4), Bits.or_eq_add_of_dvd (k := 8),
    Bits.or_eq_add_of_dvd (k := 16), Bits.or_eq_add_of_dvd (k := 24)]
  norm_num

/-! ## Round trips -/

/-- What `write_odh` writes, `read_odh` reads back, with the update id cut to 12
bits and the length to 28. -/
theorem readOdh_writeOdh (odh : Odh) (flags : UInt8) (rest : List UInt8) :
    readOdh (writeOdh odh flags ++ rest) =
      { odh with flags, updateid := odh.updateid % 4096, length := odh.length % 268435456 } := by
  have hu := odh.updateid.toNat_lt
  have hl := odh.length.toNat_lt
  rw [readOdh_eq]
  simp only [writeOdh, List.cons_append, List.getD_cons_zero, List.getD_cons_succ,
    UInt8.toNat_ofNat', Bits.and_ones (m := 0x0f) 4 rfl, Bits.and_ones (m := 0xff) 8 rfl,
    Bits.shiftLeft_and_field (m := 0xf0) 4 4 rfl, Nat.shiftRight_eq_div_pow]
  rw [Bits.or_eq_add_of_dvd (k := 4) (by omega) (by omega)]
  congr 1
  · apply UInt32.toNat_inj.mp
    simp only [UInt32.toNat_ofNat', UInt32.toNat_mod, UInt32.toNat_ofNat, Nat.reducePow,
      Nat.reduceMod]
    omega
  · apply UInt16.toNat_inj.mp
    simp only [UInt16.toNat_ofNat', UInt16.toNat_mod, UInt16.toNat_ofNat, Nat.reducePow,
      Nat.reduceMod]
    omega

/-- A header whose fields fit their widths reads back as written. -/
theorem readOdh_writeOdh_of_lt {odh : Odh} (hlen : odh.length.toNat < 2 ^ 28)
    (hid : odh.updateid.toNat < 2 ^ 12) (flags : UInt8) (rest : List UInt8) :
    readOdh (writeOdh odh flags ++ rest) = { odh with flags } := by
  have hl : odh.length % 268435456 = odh.length := by
    apply UInt32.toNat_inj.mp
    rw [UInt32.toNat_mod, UInt32.toNat_ofNat, Nat.mod_eq_of_lt (by omega)]
  have hu : odh.updateid % 4096 = odh.updateid := by
    apply UInt16.toNat_inj.mp
    rw [UInt16.toNat_mod, UInt16.toNat_ofNat, Nat.mod_eq_of_lt (by omega)]
  rw [readOdh_writeOdh, hl, hu]

/-- A byte stored from an `int`, as a number. -/
theorem toNat_ofInt (x : ℤ) : (UInt8.ofInt x).toNat = (x % 256).toNat := by
  rw [UInt8.ofInt, UInt8.toNat_ofNat']
  omega

/-- The byte `poke_updateid` writes over byte 4: the low half of the update id
above the low half of the old byte. -/
theorem toNat_pokeByte (updid : ℤ) (old : UInt8) :
    (UInt8.ofInt (updid <<< (4 : ℕ)) &&& 0xf0 ||| old &&& 0x0f).toNat =
      (updid % 16).toNat * 16 + old.toNat % 16 := by
  have hx : (UInt8.ofInt (updid <<< (4 : ℕ))).toNat = (updid % 16).toNat * 16 := by
    rw [toNat_ofInt, Int.shiftLeft_eq]
    omega
  have hhi : (updid % 16).toNat * 16 &&& 0xf0 = (updid % 16).toNat * 16 := by
    have h := Bits.shiftLeft_and_field (m := 0xf0) 4 4 rfl (updid % 16).toNat
    rw [Nat.shiftLeft_eq] at h
    norm_num at h
    rw [h]
    omega
  simp only [UInt8.toNat_or, UInt8.toNat_and, hx, UInt8.reduceToNat, hhi,
    Bits.and_ones (m := 0x0f) 4 rfl]
  exact Bits.or_eq_add_of_dvd (k := 4) (by omega) (by omega)

/-- Poking the update id changes that field of the header only, to the new id
modulo `2 ^ 12`. -/
theorem readOdh_pokeUpdateid {buf : List UInt8} (hbuf : 4 ≤ buf.length) (updid : ℤ) :
    readOdh (pokeUpdateid buf updid) =
      { readOdh buf with updateid := UInt16.ofNat (updid % 4096).toNat } := by
  have h2 : (pokeUpdateid buf updid).getD 2 0 = UInt8.ofInt (updid >>> (4 : ℕ)) := by
    simp [pokeUpdateid, List.getD_eq_getElem?_getD, show 2 < buf.length by omega]
  have h3 : (pokeUpdateid buf updid).getD 3 0 =
      UInt8.ofInt (updid <<< (4 : ℕ)) &&& 0xf0 ||| buf.getD 3 0 &&& 0x0f := by
    simp [pokeUpdateid, List.getD_eq_getElem?_getD, show 3 < buf.length by omega]
  have hother : ∀ i, i ≠ 2 → i ≠ 3 → (pokeUpdateid buf updid).getD i 0 = buf.getD i 0 := by
    intro i hi2 hi3
    simp [pokeUpdateid, List.getD_eq_getElem?_getD, Ne.symm hi2, Ne.symm hi3]
  rw [readOdh_eq, readOdh_eq, h2, h3, hother 0 (by decide) (by decide),
    hother 1 (by decide) (by decide), hother 4 (by decide) (by decide),
    hother 5 (by decide) (by decide), hother 6 (by decide) (by decide), toNat_pokeByte]
  -- byte 4 keeps its low half; the two new halves make the new id
  have hlen : ((updid % 16).toNat * 16 + (buf.getD 3 0).toNat % 16) % 16 =
      (buf.getD 3 0).toNat % 16 := by omega
  have hid : (UInt8.ofInt (updid >>> (4 : ℕ))).toNat * 16 +
      ((updid % 16).toNat * 16 + (buf.getD 3 0).toNat % 16) / 16 = (updid % 4096).toNat := by
    rw [toNat_ofInt, Int.shiftRight_eq_div_pow]
    omega
  rw [hlen, hid]

end Bdb
