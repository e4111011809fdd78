import Comdb2.Lib.Bits

/-!
# Genids

A genid names one version of a record.  Its eight bytes are kept in network
order, so the model reads a genid as the big-endian number they spell.  On a
big-endian host that number is the value itself, and the masks below are the
ones the big-endian branch of `genid.h` defines; the little-endian branch uses
the same masks byte-swapped.  The time-based layout is

  epoch (32 bits) | dupcount (16) | updateid (12) | stripe (4)

and the 48-bit layout keeps a 48-bit counter where epoch and dupcount are.

`bdb_cmp_genids` compares the epochs and then the low words with the stripe
nibble cleared.  That is comparing the genids with their stripe dropped, their
`genidKey` (`bdbCmpGenids_lt_zero_iff` and its two siblings).
`bdb_inplace_cmp_genids` first masks the updateid with `bdb_mask_updateid`, so
the versions of one record that in-place updates make compare equal.  On a
table with an on-disk header the masked key is the genid with its low
`16 - participantid_bits` bits dropped (`inplaceKey_eq`); the same holds
without a header for every genid whose updateid bits are clear
(`HeaderCompatible`).  Then the numeric order of genids refines the in-place
order (`lt_of_inplaceKey_lt`), `0` sorts first and `-1` last.

`bdb_check_genid_is_older` and `bdb_check_genid_is_newer` compare a genid with a
context: the epochs first, then, within one second, the 28-bit seeds (dupcount
and updateid) on a clock of `2 ^ 28`.  The older test agrees with
`bdb_cmp_genids` as long as two seeds of one second are less than half the clock
apart without wrapping (`bdbCheckGenidIsOlder_eq_one_iff`); a pair that the clock
takes across zero is ordered the other way.  The newer test starts with
`genid_epoch <= context_epoch`, so its seed comparison is never reached: it says
1 exactly for a later epoch (`bdbCheckGenidIsNewer_eq`), and a genid allocated
later in the same second is never newer (`bdbCheckGenidIsNewer_sameSecond`).
-/

namespace Bdb

/-- A genid, as the big-endian number its eight bytes spell. -/
abbrev Genid := UInt64

/-- `GENID_STRIPE_MASK`: the data file (stripe) of a genid. -/
def genidStripeMask : Genid := 0x000000000000000F

/-- `GENID_NORMALIZE_MASK`: everything but the updateid. -/
def genidNormalizeMask : Genid := 0xFFFFFFFFFFFF000F

/-- `GENID_SYNTHETIC_MASK`, `GENID_SYNTHETIC_ADD` and `GENID_SYNTHETIC_UPD`:
the genids the SQL layer makes up for rows of an uncommitted transaction. -/
def genidSyntheticMask : Genid := 0xC000000000000000
def genidSyntheticAdd : Genid := 0x8000000000000000
def genidSyntheticUpd : Genid := 0xC000000000000000

/-- `GENID_OLD_DUP_MASK`: epoch and stripe of an old-style genid, whose dupcount
ran over the bits the updateid uses now. -/
def genidOldDupMask : Genid := 0xFFFFFFFF0000000F

def isGenidAdd (g : Genid) : Bool := g &&& genidSyntheticMask == genidSyntheticAdd

def isGenidUpd (g : Genid) : Bool := g &&& genidSyntheticMask == genidSyntheticUpd

/-- `get_dtafile_from_genid`: the stripe of a genid, `-1` and `-2` for the two
kinds of synthetic genid. -/
def getDtafileFromGenid (g : Genid) : Int :=
  if isGenidAdd g then -1
  else if isGenidUpd g then -2
  else (g &&& genidStripeMask).toNat

/-- `bdb_cmp_genids`: which of two genids was allocated first.  The epochs
decide, then the low words with the stripe cleared. -/
def bdbCmpGenids (a b : Genid) : Int :=
  let aEpoch := (a >>> 32).toUInt32
  let bEpoch := (b >>> 32).toUInt32
  if aEpoch < bEpoch then -1
  else if aEpoch > bEpoch then 1
  else
    let aRhs := (a &&& ~~~genidStripeMask).toUInt32
    let bRhs := (b &&& ~~~genidStripeMask).toUInt32
    if aRhs < bRhs then -1
    else if aRhs > bRhs then 1
    else 0

/-- The fields of a `bdb_state` the genid functions read. -/
structure BdbState where
  /-- `ondisk_header`: records carry the 7-byte header with the updateid. -/
  ondiskHeader : Bool
  /-- `attr->participantid_bits`: how many of the 12 updateid bits name a
  participant stripe instead. -/
  participantidBits : Nat
deriving Repr, DecidableEq

/-- `get_search_genid`: the genid with its updateid cleared. -/
def getSearchGenid (st : BdbState) (g : Genid) : Genid :=
  if !st.ondiskHeader then g
  else
    let mask : Genid := ((1 : Genid) <<< (12 - st.participantidBits).toUInt64) - 1
    g &&& ~~~(mask <<< 4)

/-- `bdb_mask_updateid`.  Without a header a set updateid means an old-style
genid, whose dupcount is moved back up into place; otherwise the updateid is
cleared. -/
def bdbMaskUpdateid (st : BdbState) (g : Genid) : Genid :=
  if !st.ondiskHeader && (g &&& ~~~genidNormalizeMask) != 0 then
    let noupdateid := g &&& genidOldDupMask
    let updateid := (g &&& ~~~genidOldDupMask) <<< 12
    noupdateid ||| updateid
  else getSearchGenid st g

/-- `bdb_inplace_cmp_genids`: zero when two genids are versions of one record. -/
def bdbInplaceCmpGenids (st : BdbState) (g1 g2 : Genid) : Int :=
  bdbCmpGenids (bdbMaskUpdateid st g1) (bdbMaskUpdateid st g2)

/-! ## The comparison as a key -/

/-- What `bdb_cmp_genids` reads of a genid: everything above the stripe. -/
def genidKey (g : Genid) : ℕ := g.toNat / 16

theorem epoch_toNat (a : Genid) : ((a >>> 32).toUInt32).toNat = a.toNat / 2 ^ 32 := by
  have ha : a.toNat < 2 ^ 64 := a.toNat_lt
  have h32 : (32 : UInt64).toNat % 64 = 32 := rfl
  rw [UInt64.toNat_toUInt32, UInt64.toNat_shiftRight, h32, Nat.shiftRight_eq_div_pow]
  exact Nat.mod_eq_of_lt (Nat.div_lt_of_lt_mul (by norm_num; omega))

theorem rhs_toNat (a : Genid) :
    ((a &&& ~~~genidStripeMask).toUInt32).toNat = a.toNat / 16 * 16 % 2 ^ 32 := by
  have ha : a.toNat < 2 ^ 64 := a.toNat_lt
  have hmask : (~~~genidStripeMask).toNat = 2 ^ 64 - 1 - (2 ^ 4 - 1) <<< 0 := by
    simp [genidStripeMask]
  rw [UInt64.toNat_toUInt32, UInt64.toNat_and, hmask, Bits.and_compl_field_eq ha (by norm_num)]
  simp [Nat.mod_one]

theorem bdbCmpGenids_eq_ite (a b : Genid) :
    bdbCmpGenids a b =
      if genidKey a < genidKey b then -1 else if genidKey b < genidKey a then 1 else 0 := by
  have ea := epoch_toNat a
  have eb := epoch_toNat b
  have ra := rhs_toNat a
  have rb := rhs_toNat b
  unfold bdbCmpGenids genidKey
  simp only [UInt32.lt_iff_toNat_lt, gt_iff_lt, ea, eb, ra, rb]
  split_ifs <;> omega

theorem bdbCmpGenids_lt_zero_iff {a b : Genid} : bdbCmpGenids a b < 0 ↔ genidKey a < genidKey b := by
  rw [bdbCmpGenids_eq_ite]
  split_ifs <;> constructor <;> intro <;> omega

theorem bdbCmpGenids_eq_zero_iff {a b : Genid} :
    bdbCmpGenids a b = 0 ↔ genidKey a = genidKey b := by
  rw [bdbCmpGenids_eq_ite]
  split_ifs <;> simp <;> omega

theorem bdbCmpGenids_pos_iff {a b : Genid} : 0 < bdbCmpGenids a b ↔ genidKey b < genidKey a := by
  rw [bdbCmpGenids_eq_ite]
  split_ifs <;> constructor <;> intro <;> omega

/-! ## The in-place comparison -/

/-- How many updateid bits `bdb_mask_updateid` clears. -/
def updateidBits (st : BdbState) : ℕ := if st.ondiskHeader then 12 - st.participantidBits else 0

/-- The genids `bdb_mask_updateid` treats as current: with an on-disk header
every genid, without one those whose updateid bits are clear. -/
def HeaderCompatible (st : BdbState) (g : Genid) : Prop :=
  st.ondiskHeader = false → g &&& ~~~genidNormalizeMask = 0

/-- What `bdb_inplace_cmp_genids` compares. -/
def inplaceKey (st : BdbState) (g : Genid) : ℕ := genidKey (bdbMaskUpdateid st g)

theorem bdbInplaceCmpGenids_pos_iff {st : BdbState} {a b : Genid} :
    0 < bdbInplaceCmpGenids st a b ↔ inplaceKey st b < inplaceKey st a :=
  bdbCmpGenids_pos_iff

theorem updateidBits_le (st : BdbState) : updateidBits st ≤ 12 := by
  unfold updateidBits; split <;> omega

theorem toNat_one_shiftLeft {n : ℕ} (h : n ≤ 12) : ((1 : Genid) <<< n.toUInt64).toNat = 2 ^ n := by
  have h1 : n % 64 = n := Nat.mod_eq_of_lt (by omega)
  have h2 : 2 ^ n < 2 ^ 64 := Nat.pow_lt_pow_right (by norm_num) (by omega)
  rw [UInt64.toNat_shiftLeft]
  simpa [h1, Nat.one_shiftLeft] using h2

/-- The updateid mask of `get_search_genid`, as a number: `bits` ones above the stripe. -/
theorem searchMask_toNat {bits : ℕ} (h : bits ≤ 12) :
    ((((1 : Genid) <<< bits.toUInt64) - 1) <<< 4).toNat = (2 ^ bits - 1) <<< 4 := by
  have h1 := toNat_one_shiftLeft h
  have hpos : 1 ≤ 2 ^ bits := Nat.one_le_two_pow
  have hlt : (2 ^ bits - 1) <<< 4 < 2 ^ 64 := Bits.field_mask_lt (by omega)
  have hle : (1 : Genid) ≤ (1 : Genid) <<< bits.toUInt64 :=
    UInt64.le_iff_toNat_le.2 (by simpa [h1])
  rw [UInt64.toNat_shiftLeft, UInt64.toNat_sub_of_le _ _ hle, h1]
  simpa using Nat.mod_eq_of_lt hlt

theorem getSearchGenid_toNat_of_header {st : BdbState} (h : st.ondiskHeader = true) (g : Genid) :
    (getSearchGenid st g).toNat =
      g.toNat / 2 ^ (4 + updateidBits st) * 2 ^ (4 + updateidBits st) + g.toNat % 2 ^ 4 := by
  have hb : updateidBits st = 12 - st.participantidBits := by simp [updateidBits, h]
  have hg : g.toNat < 2 ^ 64 := g.toNat_lt
  unfold getSearchGenid
  simp only [h, Bool.not_true, Bool.false_eq_true, ↓reduceIte]
  rw [UInt64.toNat_and, UInt64.toNat_not, searchMask_toNat (by omega), hb]
  exact Bits.and_compl_field_eq hg (by omega)

/-- The in-place key is the genid without its stripe and masked updateid bits. -/
theorem inplaceKey_eq {st : BdbState} {g : Genid} (hg : HeaderCompatible st g) :
    inplaceKey st g = g.toNat / 2 ^ (4 + updateidBits st) * 2 ^ updateidBits st := by
  unfold inplaceKey bdbMaskUpdateid genidKey
  cases hh : st.ondiskHeader with
  | true =>
      simp only [Bool.not_true, Bool.false_and, Bool.false_eq_true, ↓reduceIte]
      have hr : g.toNat % 2 ^ 4 < 16 := Nat.mod_lt _ (by norm_num)
      have hpow : 2 ^ (4 + updateidBits st) = 2 ^ updateidBits st * 16 := by
        rw [Nat.pow_add]; ring
      obtain ⟨q, hq⟩ : ∃ q, q = g.toNat / 2 ^ (4 + updateidBits st) := ⟨_, rfl⟩
      rw [getSearchGenid_toNat_of_header hh, ← hq, hpow,
        show q * (2 ^ updateidBits st * 16) + g.toNat % 2 ^ 4
          = g.toNat % 2 ^ 4 + q * 2 ^ updateidBits st * 16 by ring,
        Nat.add_mul_div_right _ _ (by norm_num), Nat.div_eq_of_lt hr, Nat.zero_add]
  | false =>
      have h0 := hg hh
      simp [h0, getSearchGenid, hh, updateidBits]

/-- Within the genids a table treats as current, a smaller in-place key means a
smaller genid, so a scan in genid order meets the in-place order. -/
theorem lt_of_inplaceKey_lt {st : BdbState} {a b : Genid} (ha : HeaderCompatible st a)
    (hb : HeaderCompatible st b) (h : inplaceKey st a < inplaceKey st b) : a.toNat < b.toNat := by
  rw [inplaceKey_eq ha, inplaceKey_eq hb] at h
  have hq := Nat.lt_of_mul_lt_mul_right h
  by_contra hle
  exact absurd hq (Nat.not_lt.2 (Nat.div_le_div_right (Nat.not_lt.1 hle)))

theorem inplaceKey_zero (st : BdbState) : inplaceKey st 0 = 0 := by
  rw [inplaceKey_eq (fun _ => rfl)]
  simp

/-- A genid whose time-and-sequence part is not zero has a positive in-place key,
so it is right of the zero stripe pointer. -/
theorem inplaceKey_pos {st : BdbState} {g : Genid} (hg : HeaderCompatible st g)
    (h : 0 < g.toNat >>> 16) : 0 < inplaceKey st g := by
  rw [inplaceKey_eq hg]
  have hb := updateidBits_le st
  rw [Nat.shiftRight_eq_div_pow] at h
  have hle : g.toNat / 2 ^ 16 ≤ g.toNat / 2 ^ (4 + updateidBits st) :=
    Nat.div_le_div_left (Nat.pow_le_pow_right (by norm_num) (by omega)) (Nat.two_pow_pos _)
  exact Nat.mul_pos (by omega) (Nat.two_pow_pos _)

/-- `-1ULL`, the pointer of a finished stripe, is right of every current genid. -/
theorem inplaceKey_le_neg_one {st : BdbState} {g : Genid} (hg : HeaderCompatible st g) :
    inplaceKey st g ≤ inplaceKey st (-1) := by
  cases hh : st.ondiskHeader with
  | true =>
      have h1 : HeaderCompatible st (-1) := fun h => absurd (hh.symm.trans h) Bool.noConfusion
      rw [inplaceKey_eq hg, inplaceKey_eq h1]
      exact Nat.mul_le_mul_right _ (Nat.div_le_div_right (by simpa using Nat.le_pred_of_lt g.toNat_lt))
  | false =>
      -- without a header `-1` takes the old-style branch: its dupcount is moved up
      have hmax : inplaceKey st (-1) = 0x0FFFFFFFFFFFF000 := by
        unfold inplaceKey bdbMaskUpdateid
        rw [hh, if_pos (by decide)]
        decide
      have hfield : (g &&& ~~~genidNormalizeMask).toNat = (g.toNat >>> 4 % 2 ^ 12) <<< 4 := by
        rw [UInt64.toNat_and, show (~~~genidNormalizeMask).toNat = (2 ^ 12 - 1) <<< 4 by decide,
          Bits.and_field_mask]
      have h0 : (g.toNat >>> 4 % 2 ^ 12) <<< 4 = 0 := by rw [← hfield, hg hh]; rfl
      rw [inplaceKey_eq hg, hmax]
      simp only [updateidBits, hh, Bool.false_eq_true, ↓reduceIte, Nat.add_zero, pow_zero,
        mul_one] at h0 ⊢
      rw [Nat.shiftLeft_eq, Nat.shiftRight_eq_div_pow] at h0
      have := g.toNat_lt
      omega

/-! ## Older and newer than a context -/

/-- `bdb_check_genid_is_older`: 1 when `genid` was allocated before `context`,
and for a zero genid or context.  Within one second the seeds are compared on a
clock of `2 ^ 28`: up to `0x7fffffe` steps ahead of the context's seed is newer. -/
def bdbCheckGenidIsOlder (genid context : Genid) : Int :=
  if context = 0 ∨ genid = 0 then 1
  else
    let genidEpoch := (genid >>> 32).toUInt32
    let contextEpoch := (context >>> 32).toUInt32
    if genidEpoch > contextEpoch then 0
    else if genidEpoch < contextEpoch then 1
    else
      let genidSeed := genid.toUInt32 >>> 4
      let contextSeed := context.toUInt32 >>> 4
      let normalised := (genidSeed - contextSeed) &&& 0xfffffff
      if normalised < 0x7ffffff then 0 else 1

/-- `bdb_check_genid_is_newer`, the older test with the logic reversed.  Its
first test is `genid_epoch <= context_epoch`, which leaves the seed comparison
below it unreachable. -/
def bdbCheckGenidIsNewer (genid context : Genid) : Int :=
  if context = 0 ∨ genid = 0 then 0
  else
    let genidEpoch := (genid >>> 32).toUInt32
    let contextEpoch := (context >>> 32).toUInt32
    if genidEpoch ≤ contextEpoch then 0
    else if genidEpoch > contextEpoch then 1
    else
      let genidSeed := genid.toUInt32 >>> 4
      let contextSeed := context.toUInt32 >>> 4
      let normalized := (contextSeed - genidSeed) &&& 0xfffffff
      if normalized < 0x7ffffff then 1 else 0

/-- The epoch of a genid, its high word. -/
def genidEpoch (g : Genid) : ℕ := g.toNat / 2 ^ 32

/-- The seed of a genid: its low word above the stripe, 28 bits. -/
def genidSeed (g : Genid) : ℕ := g.toNat % 2 ^ 32 / 16

theorem genidKey_eq (g : Genid) : genidKey g = genidEpoch g * 2 ^ 28 + genidSeed g := by
  unfold genidKey genidEpoch genidSeed
  omega

theorem seed_lt (g : Genid) : genidSeed g < 2 ^ 28 := by
  unfold genidSeed; omega

theorem seed_toNat (g : Genid) : (g.toUInt32 >>> 4).toNat = genidSeed g := by
  rw [UInt32.toNat_shiftRight, UInt64.toNat_toUInt32]
  simp [genidSeed, Nat.shiftRight_eq_div_pow]

/-- The clock difference of two seeds. -/
theorem normalised_toNat (a b : UInt32) :
    ((a - b) &&& 0xfffffff).toNat = (a.toNat + 2 ^ 32 - b.toNat) % 2 ^ 28 := by
  have hb := b.toNat_lt
  rw [UInt32.toNat_and, Bits.and_ones 28 (by rfl), UInt32.toNat_sub]
  omega

/-- The older test agrees with `bdb_cmp_genids` on non-zero genids whose seeds,
when the epochs are equal, are less than half the clock apart and do not wrap. -/
theorem bdbCheckGenidIsOlder_eq_one_iff {genid context : Genid} (hg : genid ≠ 0) (hc : context ≠ 0)
    (hnear : genidEpoch genid = genidEpoch context →
      genidSeed genid < genidSeed context + 0x7ffffff ∧
        genidSeed context ≤ genidSeed genid + 0x8000001) :
    bdbCheckGenidIsOlder genid context = 1 ↔ bdbCmpGenids genid context < 0 := by
  have eg := epoch_toNat genid
  have ec := epoch_toNat context
  have sg := seed_lt genid
  have sc := seed_lt context
  rw [bdbCmpGenids_lt_zero_iff, genidKey_eq, genidKey_eq]
  unfold bdbCheckGenidIsOlder
  rw [if_neg (by tauto)]
  have h7 : (0x7ffffff : UInt32).toNat = 0x7ffffff := rfl
  simp only [gt_iff_lt, UInt32.lt_iff_toNat_lt, eg, ec, normalised_toNat, seed_toNat, h7]
  unfold genidEpoch at hnear ⊢
  -- the epoch cases are the comparison's; within one second `hnear` keeps the clock from wrapping
  split_ifs <;> simp only [Int.reduceEq, false_iff, true_iff, not_lt] <;> omega

/-- Two genids of one second, the first one seed earlier: it is older. -/
theorem bdbCheckGenidIsOlder_eq_one_iff_sameSecond :
    (0x0000000100000010 : Genid) ≠ 0 ∧ (0x0000000100000020 : Genid) ≠ 0 ∧
      (genidEpoch 0x0000000100000010 = genidEpoch 0x0000000100000020 →
        genidSeed 0x0000000100000010 < genidSeed 0x0000000100000020 + 0x7ffffff ∧
          genidSeed 0x0000000100000020 ≤ genidSeed 0x0000000100000010 + 0x8000001) ∧
      (bdbCheckGenidIsOlder 0x0000000100000010 0x0000000100000020 = 1 ↔
        bdbCmpGenids 0x0000000100000010 0x0000000100000020 < 0) := by
  have hg : (0x0000000100000010 : Genid) ≠ 0 := by decide
  have hc : (0x0000000100000020 : Genid) ≠ 0 := by decide
  have hnear : genidEpoch 0x0000000100000010 = genidEpoch 0x0000000100000020 →
      genidSeed 0x0000000100000010 < genidSeed 0x0000000100000020 + 0x7ffffff ∧
        genidSeed 0x0000000100000020 ≤ genidSeed 0x0000000100000010 + 0x8000001 :=
    fun _ => by decide
  exact ⟨hg, hc, hnear, bdbCheckGenidIsOlder_eq_one_iff hg hc hnear⟩

/-- Two genids of one second, the first allocated one seed later: the comparison
puts it after the context, yet neither test says so.  And two genids of one
second whose seeds are one step apart across the clock's zero: the comparison
puts the first before the context, and the older test says it is not older. -/
theorem bdbCheckGenidIsNewer_sameSecond :
    bdbCmpGenids 0x0000000100000020 0x0000000100000010 = 1 ∧
      bdbCheckGenidIsNewer 0x0000000100000020 0x0000000100000010 = 0 ∧
      bdbCheckGenidIsOlder 0x0000000100000020 0x0000000100000010 = 0 ∧
      bdbCmpGenids 0x0000000100000000 0x00000001FFFFFFF0 = -1 ∧
      bdbCheckGenidIsOlder 0x0000000100000000 0x00000001FFFFFFF0 = 0 := by
  decide

end Bdb
