import Comdb2.Bdb.Genid
import Comdb2.Lib.Run

/-!
# Live schema change

While a schema change rebuilds a table, clients keep writing to the old table.
One converter per stripe walks the old data file in genid order and copies
every record, converted, into the new table; `sc_genids[stripe]` is the last
genid it copied, `0` before it starts and `-1` once the stripe is done
(`convert_record`, `dtas_next`).  A client write is mirrored into the new table
only when it lies left of its stripe pointer, where the converter has already
been (`is_genid_right_of_stripe_pointer`, `live_sc_post_add`,
`live_sc_post_delete`, `live_sc_post_update`).  A write to the right is left to
the converter, which meets it later.

The model keeps both tables as finite maps from genid to row and the stripe
pointers as a function of the stripe.  The conversion of a row to the new schema
(`stag_to_stag_buf_blobs`) is a parameter `conv`.  A step is one atomic action:
one converter step on a stripe, or one client add, delete or update followed by
its callback.  A callback that fails fails the client transaction, which then
changes nothing.

Client genids are the ones the allocator hands out (`ValidGenid`): a stripe in
range, a nonzero time-and-sequence part, and no updateid bits unless records
carry a header.  A new genid is never a version of a record already in its
stripe (`Fresh`); an in-place update keeps the version of the genid it replaces.

`Inv` is the invariant.  The new table holds exactly the converted rows of the
old table left of the pointers and nothing else, and the old table holds one
version of each record.  `mirror_of_reachable` proves it of every reachable
state.
-/

namespace LiveSc

open Bdb Run

/-- What a live schema change reads of the table and of the server. -/
structure Config where
  /-- The table's `bdb_state`. -/
  bdb : BdbState
  /-- `gbl_dtastripe`, the number of data stripes. -/
  dtastripe : ℕ
  /-- `sc_downgrading`: the master is stepping down. -/
  scDowngrading : Bool
  /-- `sc_live_logical`: the logical live schema change is in use. -/
  scLiveLogical : Bool

/-- A table: rows keyed by genid. -/
abbrev Table (Row : Type*) := AList fun _ : Genid => Row

/-- The stripe pointers `sc_genids`. -/
abbrev StripePointers := ℕ → Genid

/-- `is_genid_right_of_stripe_pointer`.  `none` where the source aborts on a
stripe out of range. -/
def isGenidRightOfStripePointer (cfg : Config) (g : Genid) (scGenids : StripePointers) :
    Option Bool :=
  let stripe := getDtafileFromGenid g
  if stripe < 0 ∨ cfg.dtastripe ≤ stripe then none
  -- a zero pointer means the converter has not started on this stripe
  else if scGenids stripe.toNat = 0 then some true
  else some (decide (0 < bdbInplaceCmpGenids cfg.bdb g (scGenids stripe.toNat)))

/-- Why a callback fails. -/
inductive PostError
  /-- `ERR_NOMASTER`: the schema change is being downgraded. -/
  | noMaster
  /-- The process aborts on a genid of no stripe. -/
  | abort
deriving Repr, DecidableEq

variable {Row Row' : Type*}

/-- `live_sc_post_delete_int`.  Left of the pointer the record is deleted from
the new table too (`live_sc_post_del_record`). -/
def liveScPostDeleteInt (cfg : Config) (scGenids : StripePointers) (genid : Genid)
    (new : Table Row') : Except PostError (Table Row') :=
  if cfg.scDowngrading then .error .noMaster
  else if cfg.scLiveLogical then .ok new
  else
    match isGenidRightOfStripePointer cfg genid scGenids with
    | none => .error .abort
    | some true => .ok new
    | some false => .ok (new.erase genid)

/-- `live_sc_post_add_int`.  Left of the pointer the converted row is added to
the new table (`live_sc_post_add_record`). -/
def liveScPostAddInt (cfg : Config) (conv : Row → Row') (scGenids : StripePointers)
    (genid : Genid) (row : Row) (new : Table Row') : Except PostError (Table Row') :=
  if cfg.scDowngrading then .error .noMaster
  else if cfg.scLiveLogical then .ok new
  else
    match isGenidRightOfStripePointer cfg genid scGenids with
    | none => .error .abort
    | some true => .ok new
    | some false => .ok (new.insert genid (conv row))

/-- `live_sc_post_update_int`, with the four cases of the source's comment. -/
def liveScPostUpdateInt (cfg : Config) (conv : Row → Row') (scGenids : StripePointers)
    (oldgenid newgenid : Genid) (row : Row) (new : Table Row') : Except PostError (Table Row') :=
  if cfg.scDowngrading then .error .noMaster
  else if cfg.scLiveLogical then .ok new
  else
    match isGenidRightOfStripePointer cfg oldgenid scGenids,
        isGenidRightOfStripePointer cfg newgenid scGenids with
    -- 1) both right of the pointer: nothing to do
    | some true, some true => .ok new
    -- 2) old left, new right: `live_sc_post_del_record (oldgenid)`
    | some false, some true => .ok (new.erase oldgenid)
    -- 3) new left, old right: `live_sc_post_add_record (newgenid)`
    | some true, some false => .ok (new.insert newgenid (conv row))
    -- 4) both left: `live_sc_post_upd_record`
    | some false, some false => .ok ((new.erase oldgenid).insert newgenid (conv row))
    | _, _ => .error .abort

/-- The record `dtas_next` hands the converter of stripe `s`: the first one of
the stripe's data file, in genid order, right of the stripe pointer. -/
def dtasNext (cfg : Config) (scGenids : StripePointers) (s : ℕ) (old : Table Row) :
    Option ((_ : Genid) × Row) :=
  (old.entries.filter fun e =>
      decide (getDtafileFromGenid e.1 = s ∧ 0 < bdbInplaceCmpGenids cfg.bdb e.1 (scGenids s))).argmin
    fun e => e.1.toNat

/-- The state of a run: the old table, the new table and the stripe pointers. -/
structure State (Row Row' : Type*) where
  old : Table Row
  new : Table Row'
  scGenids : StripePointers

/-- One step of the converter of stripe `s` (`convert_record` in
`SCAN_PARALLEL` mode): copy the next record and advance the pointer to it, or
mark the stripe finished with `-1`. -/
def convertRecord (cfg : Config) (conv : Row → Row') (s : ℕ) (st : State Row Row') :
    State Row Row' :=
  match dtasNext cfg st.scGenids s st.old with
  | some ⟨g, r⟩ =>
      { st with new := st.new.insert g (conv r), scGenids := Function.update st.scGenids s g }
  | none => { st with scGenids := Function.update st.scGenids s (-1) }

/-- A client transaction: the old table becomes `old'` if the callback succeeds
with the new table `post`; otherwise the transaction fails and nothing changes. -/
def commit (st : State Row Row') (old' : Table Row) (post : Except PostError (Table Row')) :
    State Row Row' :=
  match post with
  | .ok new' => { st with old := old', new := new' }
  | .error _ => st

/-! ## Genids of the table -/

/-- A genid the allocator can hand out for this table: a stripe in range, a
nonzero time-and-sequence part, and no updateid bits unless the records carry a
header. -/
structure ValidGenid (cfg : Config) (g : Genid) : Prop where
  stripe_nonneg : 0 ≤ getDtafileFromGenid g
  stripe_lt : getDtafileFromGenid g < cfg.dtastripe
  seq_pos : 0 < g.toNat >>> 16
  header : HeaderCompatible cfg.bdb g

/-- A genid a client may write: valid, and not a version of a record already in
its stripe. -/
def Fresh (cfg : Config) (old : Table Row) (g : Genid) : Prop :=
  ValidGenid cfg g ∧ ∀ h ∈ old, getDtafileFromGenid h = getDtafileFromGenid g →
    inplaceKey cfg.bdb h ≠ inplaceKey cfg.bdb g

/-- The steps of a run. -/
inductive Step (cfg : Config) (conv : Row → Row') : State Row Row' → State Row Row' → Prop
  | convert {st : State Row Row'} (s : ℕ) : s < cfg.dtastripe →
      Step cfg conv st (convertRecord cfg conv s st)
  | add {st : State Row Row'} (g : Genid) (r : Row) : Fresh cfg st.old g →
      Step cfg conv st
        (commit st (st.old.insert g r) (liveScPostAddInt cfg conv st.scGenids g r st.new))
  | delete {st : State Row Row'} (g : Genid) : g ∈ st.old →
      Step cfg conv st (commit st (st.old.erase g) (liveScPostDeleteInt cfg st.scGenids g st.new))
  | update {st : State Row Row'} (o n : Genid) (r : Row) : o ∈ st.old →
      Fresh cfg (st.old.erase o) n →
      Step cfg conv st (commit st ((st.old.erase o).insert n r)
        (liveScPostUpdateInt cfg conv st.scGenids o n r st.new))

/-- A table holds one version of each record: two genids of one stripe with one
in-place key are the same genid. -/
def Distinct (cfg : Config) (old : Table Row) : Prop :=
  ∀ g ∈ old, ∀ h ∈ old, getDtafileFromGenid g = getDtafileFromGenid h →
    inplaceKey cfg.bdb g = inplaceKey cfg.bdb h → g = h

/-- A schema change starts with an empty new table and every pointer at `0`; the
old table holds valid genids, one version of each record. -/
structure Init (cfg : Config) (st : State Row Row') : Prop where
  new_empty : st.new = ∅
  scGenids_zero : ∀ s, st.scGenids s = 0
  valid : ∀ g ∈ st.old, ValidGenid cfg g
  distinct : Distinct cfg st.old

/-! ## Sides of the stripe pointer -/

section Sides

variable {cfg : Config} {p : StripePointers} {g : Genid}

/-- The stripe of a genid, as an index into `sc_genids`. -/
def stripeOf (g : Genid) : ℕ := (getDtafileFromGenid g).toNat

/-- A genid is left of its stripe pointer: the converter has been past it. -/
def IsLeft (cfg : Config) (p : StripePointers) (g : Genid) : Prop :=
  isGenidRightOfStripePointer cfg g p = some false

instance : DecidablePred (IsLeft cfg p) := fun _ => inferInstanceAs (Decidable (_ = _))

theorem isGenidRightOfStripePointer_of_valid (hg : ValidGenid cfg g) (p : StripePointers) :
    isGenidRightOfStripePointer cfg g p =
      some (decide (p (stripeOf g) = 0 ∨ inplaceKey cfg.bdb (p (stripeOf g)) < inplaceKey cfg.bdb g)) := by
  have hr : ¬ (getDtafileFromGenid g < 0 ∨ cfg.dtastripe ≤ getDtafileFromGenid g) := by
    have := hg.stripe_nonneg; have := hg.stripe_lt; omega
  unfold isGenidRightOfStripePointer stripeOf
  simp only [hr, ↓reduceIte]
  by_cases h0 : p (getDtafileFromGenid g).toNat = 0
  · simp [h0]
  · simp [h0, bdbInplaceCmpGenids_pos_iff]

theorem isLeft_iff (hg : ValidGenid cfg g) :
    IsLeft cfg p g ↔ p (stripeOf g) ≠ 0 ∧ inplaceKey cfg.bdb g ≤ inplaceKey cfg.bdb (p (stripeOf g)) := by
  rw [IsLeft, isGenidRightOfStripePointer_of_valid hg]
  simp

theorem isRight_iff (hg : ValidGenid cfg g) :
    isGenidRightOfStripePointer cfg g p = some true ↔
      p (stripeOf g) = 0 ∨ inplaceKey cfg.bdb (p (stripeOf g)) < inplaceKey cfg.bdb g := by
  rw [isGenidRightOfStripePointer_of_valid hg]
  simp

/-- Moving the pointer of another stripe does not move a genid across its own. -/
theorem isGenidRightOfStripePointer_update_of_ne {s : ℕ} (v : Genid)
    (h : getDtafileFromGenid g ≠ s) :
    isGenidRightOfStripePointer cfg g (Function.update p s v) = isGenidRightOfStripePointer cfg g p := by
  unfold isGenidRightOfStripePointer
  by_cases hneg : getDtafileFromGenid g < 0
  · simp [hneg]
  · have hs : (getDtafileFromGenid g).toNat ≠ s := by omega
    simp [Function.update_of_ne hs]

theorem isLeft_update_of_ne {s : ℕ} (v : Genid) (h : getDtafileFromGenid g ≠ s) :
    IsLeft cfg (Function.update p s v) g ↔ IsLeft cfg p g := by
  rw [IsLeft, IsLeft, isGenidRightOfStripePointer_update_of_ne v h]

end Sides

/-! ## What the callbacks do -/

section Callbacks

variable {cfg : Config} {p : StripePointers} {conv : Row → Row'} {new : Table Row'}

/-- The callbacks of a working schema change: no downgrade, physical live schema change. -/
def Live (cfg : Config) : Prop := cfg.scDowngrading = false ∧ cfg.scLiveLogical = false

/-- A valid genid is on one side of its pointer. -/
theorem exists_side {g : Genid} (hg : ValidGenid cfg g) (p : StripePointers) :
    ∃ b, isGenidRightOfStripePointer cfg g p = some b :=
  ⟨_, isGenidRightOfStripePointer_of_valid hg p⟩

theorem liveScPostAddInt_eq (hc : Live cfg) {g : Genid} (hg : ValidGenid cfg g) (r : Row) :
    liveScPostAddInt cfg conv p g r new =
      .ok (if IsLeft cfg p g then new.insert g (conv r) else new) := by
  obtain ⟨hd, hl⟩ := hc
  obtain ⟨b, hb⟩ := exists_side hg p
  cases b <;> simp [liveScPostAddInt, IsLeft, hd, hl, hb]

theorem liveScPostDeleteInt_eq (hc : Live cfg) {g : Genid} (hg : ValidGenid cfg g) :
    liveScPostDeleteInt cfg p g new = .ok (if IsLeft cfg p g then new.erase g else new) := by
  obtain ⟨hd, hl⟩ := hc
  obtain ⟨b, hb⟩ := exists_side hg p
  cases b <;> simp [liveScPostDeleteInt, IsLeft, hd, hl, hb]

/-- The four cases of the update callback are a delete of the old genid and then
an add of the new one, each done only left of the pointer. -/
theorem liveScPostUpdateInt_eq (hc : Live cfg) {o n : Genid} (ho : ValidGenid cfg o)
    (hn : ValidGenid cfg n) (r : Row) :
    liveScPostUpdateInt cfg conv p o n r new =
      .ok (let new₁ := if IsLeft cfg p o then new.erase o else new
           if IsLeft cfg p n then new₁.insert n (conv r) else new₁) := by
  obtain ⟨hd, hl⟩ := hc
  obtain ⟨b₁, hb₁⟩ := exists_side ho p
  obtain ⟨b₂, hb₂⟩ := exists_side hn p
  cases b₁ <;> cases b₂ <;> simp [liveScPostUpdateInt, IsLeft, hd, hl, hb₁, hb₂]

end Callbacks

/-! ## What the converter reads -/

section Converter

variable {cfg : Config} {p : StripePointers} {s : ℕ} {old : Table Row}

theorem mem_of_lookup_eq_some {g : Genid} {r : Row} (h : old.lookup g = some r) : g ∈ old :=
  AList.lookup_isSome.1 (by simp [h])

/-- The record `dtas_next` returns is in the stripe, right of the pointer, and
no record of the stripe right of the pointer comes before it. -/
theorem dtasNext_some {g : Genid} {r : Row} (h : dtasNext cfg p s old = some ⟨g, r⟩) :
    old.lookup g = some r ∧ getDtafileFromGenid g = s ∧
      inplaceKey cfg.bdb (p s) < inplaceKey cfg.bdb g ∧
      ∀ g' ∈ old, getDtafileFromGenid g' = s → inplaceKey cfg.bdb (p s) < inplaceKey cfg.bdb g' →
        g.toNat ≤ g'.toNat := by
  have hmem := List.argmin_mem h
  obtain ⟨hent, hpred⟩ := List.mem_filter.1 hmem
  simp only [decide_eq_true_eq, bdbInplaceCmpGenids_pos_iff] at hpred
  refine ⟨AList.mem_lookup_iff.2 hent, hpred.1, hpred.2, fun g' hg' hs hlt => ?_⟩
  obtain ⟨r', hr'⟩ := Option.isSome_iff_exists.1 (AList.lookup_isSome.2 hg')
  have hin : (⟨g', r'⟩ : (_ : Genid) × Row) ∈ old.entries.filter fun e =>
      decide (getDtafileFromGenid e.1 = s ∧ 0 < bdbInplaceCmpGenids cfg.bdb e.1 (p s)) :=
    List.mem_filter.2 ⟨AList.mem_lookup_iff.1 hr', by simpa [bdbInplaceCmpGenids_pos_iff] using ⟨hs, hlt⟩⟩
  have hmin := List.not_lt_of_mem_argmin hin h
  exact Nat.not_lt.1 hmin

/-- When `dtas_next` finds nothing, no record of the stripe is right of the pointer. -/
theorem dtasNext_none (h : dtasNext cfg p s old = none) :
    ∀ g ∈ old, getDtafileFromGenid g = s → ¬ inplaceKey cfg.bdb (p s) < inplaceKey cfg.bdb g := by
  intro g hg hs hlt
  obtain ⟨r, hr⟩ := Option.isSome_iff_exists.1 (AList.lookup_isSome.2 hg)
  have hnil := List.argmin_eq_none.1 h
  have hin : (⟨g, r⟩ : (_ : Genid) × Row) ∈ old.entries.filter fun e =>
      decide (getDtafileFromGenid e.1 = s ∧ 0 < bdbInplaceCmpGenids cfg.bdb e.1 (p s)) :=
    List.mem_filter.2 ⟨AList.mem_lookup_iff.1 hr, by simpa [bdbInplaceCmpGenids_pos_iff] using ⟨hs, hlt⟩⟩
  rw [hnil] at hin
  exact List.not_mem_nil hin

end Converter

/-! ## The mirror -/

section Mirror

variable {cfg : Config} {conv : Row → Row'} {p : StripePointers} {old : Table Row}
  {new : Table Row'}

/-- The new table holds the converted rows of the old table left of the
pointers, and nothing else. -/
def Mirror (cfg : Config) (conv : Row → Row') (p : StripePointers) (old : Table Row)
    (new : Table Row') : Prop :=
  ∀ g, new.lookup g = if IsLeft cfg p g then (old.lookup g).map conv else none

theorem Mirror.lookup_eq_none (hm : Mirror cfg conv p old new) {g : Genid} (hg : g ∉ old) :
    new.lookup g = none := by
  rw [hm g, AList.lookup_eq_none.2 hg]
  simp

/-- The add callback keeps the mirror. -/
theorem Mirror.insert (hm : Mirror cfg conv p old new) (g : Genid) (r : Row) :
    Mirror cfg conv p (old.insert g r) (if IsLeft cfg p g then new.insert g (conv r) else new) := by
  intro h
  by_cases hh : h = g
  · subst hh
    by_cases hl : IsLeft cfg p h
    · simp [hl]
    · simp [hl, hm h]
  · by_cases hl : IsLeft cfg p g <;> simp [hl, AList.lookup_insert_ne hh, hm h]

/-- The delete callback keeps the mirror. -/
theorem Mirror.erase (hm : Mirror cfg conv p old new) (g : Genid) :
    Mirror cfg conv p (old.erase g) (if IsLeft cfg p g then new.erase g else new) := by
  intro h
  by_cases hh : h = g
  · subst hh
    by_cases hl : IsLeft cfg p h
    · simp [hl]
    · simp [hl, hm h]
  · by_cases hl : IsLeft cfg p g <;> simp [hl, AList.lookup_erase_ne hh, hm h]

/-- Genids of other stripes keep their side when the pointer of stripe `s` moves. -/
theorem Mirror.update_of_ne (hm : Mirror cfg conv p old new) {s : ℕ} (v : Genid) {h : Genid}
    (hs : getDtafileFromGenid h ≠ s) :
    new.lookup h = if IsLeft cfg (Function.update p s v) h then (old.lookup h).map conv else none := by
  rw [hm h]
  simp only [isLeft_update_of_ne v hs]

/-- A converter step that copies a record keeps the mirror: the genids it moves
to the left of the pointer are the copied one and genids the old table does not
hold. -/
theorem Mirror.convert_some (hm : Mirror cfg conv p old new) (hv : ∀ g ∈ old, ValidGenid cfg g)
    (hd : Distinct cfg old) {s : ℕ} {g : Genid} {r : Row} (hn : dtasNext cfg p s old = some ⟨g, r⟩) :
    Mirror cfg conv (Function.update p s g) old (new.insert g (conv r)) := by
  obtain ⟨hr, hgs, hgk, hmin⟩ := dtasNext_some hn
  have hgold : g ∈ old := mem_of_lookup_eq_some hr
  have hgv := hv g hgold
  have hstripe_g : stripeOf g = s := by simp [stripeOf, hgs]
  have hg0 : g ≠ 0 := by
    rintro rfl
    exact absurd hgv.seq_pos (by decide)
  intro h
  by_cases hhs : getDtafileFromGenid h = s
  swap
  · have hne : h ≠ g := by rintro rfl; exact hhs hgs
    rw [AList.lookup_insert_ne hne]
    exact hm.update_of_ne g hhs
  by_cases hhg : h = g
  · subst hhg
    have hl : IsLeft cfg (Function.update p s h) h := by
      rw [isLeft_iff hgv, hstripe_g, Function.update_self]
      exact ⟨hg0, le_refl _⟩
    simp [hl, hr]
  rw [AList.lookup_insert_ne hhg]
  by_cases hhold : h ∈ old
  swap
  · rw [hm.lookup_eq_none hhold, AList.lookup_eq_none.2 hhold]
    simp
  -- a record of the stripe: it changes side only if it lay between the old pointer and `g`
  have hhv := hv h hhold
  have hstripe_h : stripeOf h = s := by simp [stripeOf, hhs]
  have hside : IsLeft cfg (Function.update p s g) h ↔ IsLeft cfg p h := by
    rw [isLeft_iff hhv, isLeft_iff hhv, hstripe_h, Function.update_self]
    constructor
    · rintro ⟨-, hle⟩
      by_contra hright
      have hps : inplaceKey cfg.bdb (p s) < inplaceKey cfg.bdb h := by
        by_cases h0 : p s = 0
        · rw [h0, inplaceKey_zero]; exact inplaceKey_pos hhv.header hhv.seq_pos
        · exact Nat.lt_of_not_le fun hle' => hright ⟨h0, hle'⟩
      have hgh := hmin h hhold hhs hps
      rcases Nat.lt_or_eq_of_le hle with hlt | heq
      · exact absurd (lt_of_inplaceKey_lt hhv.header hgv.header hlt) (Nat.not_lt.2 hgh)
      · exact hhg (hd h hhold g hgold (hhs.trans hgs.symm) heq)
    · rintro ⟨-, hle⟩
      exact ⟨hg0, le_trans hle (le_of_lt hgk)⟩
  rw [hm h]
  simp only [hside]

/-- A converter step that finds the stripe finished keeps the mirror: every
record of the stripe is already left of the pointer. -/
theorem Mirror.convert_none (hm : Mirror cfg conv p old new) (hv : ∀ g ∈ old, ValidGenid cfg g)
    {s : ℕ} (hn : dtasNext cfg p s old = none) :
    Mirror cfg conv (Function.update p s (-1)) old new := by
  have hnone := dtasNext_none hn
  intro h
  by_cases hhs : getDtafileFromGenid h = s
  swap
  · exact hm.update_of_ne (-1) hhs
  by_cases hhold : h ∈ old
  swap
  · rw [hm.lookup_eq_none hhold, AList.lookup_eq_none.2 hhold]
    simp
  have hhv := hv h hhold
  have hstripe_h : stripeOf h = s := by simp [stripeOf, hhs]
  have hnew : IsLeft cfg (Function.update p s (-1)) h := by
    rw [isLeft_iff hhv, hstripe_h, Function.update_self]
    exact ⟨by decide, inplaceKey_le_neg_one hhv.header⟩
  have hold : IsLeft cfg p h := by
    rw [isLeft_iff hhv, hstripe_h]
    have hle := Nat.not_lt.1 (hnone h hhold hhs)
    refine ⟨fun h0 => ?_, hle⟩
    rw [h0, inplaceKey_zero] at hle
    exact absurd hle (Nat.not_le.2 (inplaceKey_pos hhv.header hhv.seq_pos))
  rw [hm h]
  simp only [hnew, hold]

end Mirror

/-! ## Runs -/

section Runs

variable {cfg : Config} {conv : Row → Row'} {old : Table Row} {st st' : State Row Row'}

/-- The invariant of a live schema change. -/
structure Inv (cfg : Config) (conv : Row → Row') (st : State Row Row') : Prop where
  valid : ∀ g ∈ st.old, ValidGenid cfg g
  distinct : Distinct cfg st.old
  mirror : Mirror cfg conv st.scGenids st.old st.new

theorem valid_insert (hv : ∀ g ∈ old, ValidGenid cfg g) {g : Genid} (hg : ValidGenid cfg g)
    (r : Row) : ∀ h ∈ old.insert g r, ValidGenid cfg h := by
  intro h hh
  rcases (AList.mem_insert _).1 hh with rfl | hh
  · exact hg
  · exact hv h hh

theorem valid_erase (hv : ∀ g ∈ old, ValidGenid cfg g) (g : Genid) :
    ∀ h ∈ old.erase g, ValidGenid cfg h :=
  fun h hh => hv h (AList.mem_erase.1 hh).2

theorem Distinct.insert (hd : Distinct cfg old) {g : Genid} (hf : Fresh cfg old g) (r : Row) :
    Distinct cfg (old.insert g r) := by
  intro a ha b hb hs hk
  rcases (AList.mem_insert _).1 ha with rfl | ha'
  · rcases (AList.mem_insert _).1 hb with rfl | hb'
    · rfl
    · exact absurd hk.symm (hf.2 b hb' hs.symm)
  · rcases (AList.mem_insert _).1 hb with rfl | hb'
    · exact absurd hk (hf.2 a ha' hs)
    · exact hd a ha' b hb' hs hk

theorem Distinct.erase (hd : Distinct cfg old) (g : Genid) : Distinct cfg (old.erase g) :=
  fun a ha b hb => hd a (AList.mem_erase.1 ha).2 b (AList.mem_erase.1 hb).2

@[simp] theorem commit_ok (old' : Table Row) (new' : Table Row') :
    commit st old' (.ok new') = { st with old := old', new := new' } := rfl

@[simp] theorem commit_error (old' : Table Row) (e : PostError) :
    commit st old' (Except.error e : Except PostError (Table Row')) = st := rfl

/-- Before the converter starts no genid is left of its pointer. -/
theorem not_isLeft_of_zero {p : StripePointers} (hp : ∀ s, p s = 0) (g : Genid) :
    ¬ IsLeft cfg p g := by
  unfold IsLeft isGenidRightOfStripePointer
  simp only [hp]
  split_ifs <;> simp

theorem Inv.init (h : Init cfg st) : Inv cfg conv st where
  valid := h.valid
  distinct := h.distinct
  mirror g := by
    rw [h.new_empty, AList.lookup_empty, if_neg (not_isLeft_of_zero h.scGenids_zero g)]

theorem Inv.convert (hi : Inv cfg conv st) (s : ℕ) : Inv cfg conv (convertRecord cfg conv s st) := by
  unfold convertRecord
  cases hn : dtasNext cfg st.scGenids s st.old with
  | some e =>
      obtain ⟨g, r⟩ := e
      exact ⟨hi.valid, hi.distinct, hi.mirror.convert_some hi.valid hi.distinct hn⟩
  | none => exact ⟨hi.valid, hi.distinct, hi.mirror.convert_none hi.valid hn⟩

theorem Inv.add (hl : cfg.scLiveLogical = false) (hi : Inv cfg conv st) {g : Genid}
    (hf : Fresh cfg st.old g) (r : Row) :
    Inv cfg conv (commit st (st.old.insert g r) (liveScPostAddInt cfg conv st.scGenids g r st.new)) := by
  cases hd : cfg.scDowngrading with
  | true => simpa [liveScPostAddInt, hd] using hi
  | false =>
      rw [liveScPostAddInt_eq ⟨hd, hl⟩ hf.1, commit_ok]
      exact ⟨valid_insert hi.valid hf.1 r, hi.distinct.insert hf r, hi.mirror.insert g r⟩

theorem Inv.delete (hl : cfg.scLiveLogical = false) (hi : Inv cfg conv st) {g : Genid}
    (hg : g ∈ st.old) :
    Inv cfg conv (commit st (st.old.erase g) (liveScPostDeleteInt cfg st.scGenids g st.new)) := by
  cases hd : cfg.scDowngrading with
  | true => simpa [liveScPostDeleteInt, hd] using hi
  | false =>
      rw [liveScPostDeleteInt_eq ⟨hd, hl⟩ (hi.valid g hg), commit_ok]
      exact ⟨valid_erase hi.valid g, hi.distinct.erase g, hi.mirror.erase g⟩

theorem Inv.update (hl : cfg.scLiveLogical = false) (hi : Inv cfg conv st) {o n : Genid}
    (ho : o ∈ st.old) (hf : Fresh cfg (st.old.erase o) n) (r : Row) :
    Inv cfg conv (commit st ((st.old.erase o).insert n r)
      (liveScPostUpdateInt cfg conv st.scGenids o n r st.new)) := by
  cases hd : cfg.scDowngrading with
  | true => simpa [liveScPostUpdateInt, hd] using hi
  | false =>
      rw [liveScPostUpdateInt_eq ⟨hd, hl⟩ (hi.valid o ho) hf.1, commit_ok]
      exact ⟨valid_insert (valid_erase hi.valid o) hf.1 r, (hi.distinct.erase o).insert hf r,
        (hi.mirror.erase o).insert n r⟩

theorem Inv.step (hl : cfg.scLiveLogical = false) (hi : Inv cfg conv st)
    (hs : Step cfg conv st st') : Inv cfg conv st' := by
  cases hs with
  | convert s _ => exact hi.convert s
  | add g r hf => exact hi.add hl hf r
  | delete g hg => exact hi.delete hl hg
  | update o n r ho hf => exact hi.update hl ho hf r

/-- Every reachable state of a physical live schema change keeps the invariant. -/
theorem inv_of_reachable (hl : cfg.scLiveLogical = false)
    (h : Reachable (Init cfg) (Step cfg conv) st) : Inv cfg conv st :=
  h.invariant (fun _ h0 => Inv.init h0) (fun _ _ hi hs => hi.step hl hs)

/-- A finished stripe leaves every valid genid of it to the left. -/
theorem isLeft_of_finished {p : StripePointers} (hp : ∀ s < cfg.dtastripe, p s = -1) {g : Genid}
    (hg : ValidGenid cfg g) : IsLeft cfg p g := by
  have hs : stripeOf g < cfg.dtastripe := by
    have := hg.stripe_nonneg; have := hg.stripe_lt; simp only [stripeOf]; omega
  rw [isLeft_iff hg, hp _ hs]
  exact ⟨by decide, inplaceKey_le_neg_one hg.header⟩

end Runs

/-! ## The new table is a faithful image of the old one -/

/-- In every reachable state of a physical live schema change, a genid left of
its stripe pointer has its converted row in the new table exactly when the old
table has the row, a genid right of its pointer is not in the new table, and
once every stripe is finished the new table is the converted old table. -/
theorem new_table_faithful {Row Row' : Type*} (cfg : Config) (conv : Row → Row')
    (hl : cfg.scLiveLogical = false) {st : State Row Row'}
    (h : Reachable (Init cfg) (Step cfg conv) st) (g : Genid) :
    (isGenidRightOfStripePointer cfg g st.scGenids = some false →
        st.new.lookup g = (st.old.lookup g).map conv) ∧
      (isGenidRightOfStripePointer cfg g st.scGenids = some true → st.new.lookup g = none) ∧
      ((∀ s < cfg.dtastripe, st.scGenids s = -1) →
        st.new.lookup g = (st.old.lookup g).map conv) := by
  have hi := inv_of_reachable hl h
  refine ⟨fun hleft => ?_, fun hright => ?_, fun hdone => ?_⟩
  · rw [hi.mirror g, if_pos (show IsLeft cfg st.scGenids g from hleft)]
  · have hnot : ¬ IsLeft cfg st.scGenids g := by
      rw [IsLeft, hright]; simp
    rw [hi.mirror g, if_neg hnot]
  · by_cases hg : g ∈ st.old
    · rw [hi.mirror g, if_pos (isLeft_of_finished hdone (hi.valid g hg))]
    · rw [hi.mirror.lookup_eq_none hg, AList.lookup_eq_none.2 hg]
      rfl

/-- One stripe, headers on, and one record at epoch 1, dupcount 1. -/
def oneStripe : Config := ⟨⟨true, 0⟩, 1, false, false⟩

def firstGenid : Genid := 0x0000000100010000

def oneRecord : State ℕ ℕ := ⟨AList.insert firstGenid 7 ∅, ∅, fun _ => 0⟩

theorem mem_oneRecord {g : Genid} (hg : g ∈ oneRecord.old) : g = firstGenid := by
  rcases (AList.mem_insert _).1 hg with h | h
  · exact h
  · exact absurd h (by simp)

theorem oneRecord_converted_reachable :
    Reachable (Init oneStripe) (Step oneStripe id) (convertRecord oneStripe id 0 oneRecord) := by
  refine .step (.init ⟨rfl, fun _ => rfl, fun g hg => ?_, fun a ha b hb _ _ => ?_⟩)
    (.convert 0 (by decide))
  · rw [mem_oneRecord hg]
    exact ⟨by decide, by decide, by decide, fun h => absurd h (by decide)⟩
  · rw [mem_oneRecord ha, mem_oneRecord hb]

/-- After the converter copies the one record, the record is left of the pointer
and the new table holds it. -/
theorem new_table_faithful_one_copy :
    Reachable (Init oneStripe) (Step oneStripe id) (convertRecord oneStripe id 0 oneRecord) ∧
      isGenidRightOfStripePointer oneStripe firstGenid
        (convertRecord oneStripe id 0 oneRecord).scGenids = some false ∧
      (convertRecord oneStripe id 0 oneRecord).new.lookup firstGenid = some 7 :=
  ⟨oneRecord_converted_reachable, by decide,
    ((new_table_faithful oneStripe id rfl oneRecord_converted_reachable firstGenid).1
      (by decide)).trans (by decide)⟩

end LiveSc
