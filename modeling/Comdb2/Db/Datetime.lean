import Mathlib

/-!
# Datetimes and day-second intervals

`src/db/types.c` adds a day-second interval to a datetime (`add_dttz_intvds`),
subtracts one (`sub_dttz_intvds`), and subtracts two datetimes into an interval
(`sub_dttz_dttz`).  A datetime `dttz_t` is epoch seconds and a fraction of
`10 ^ prec` parts, `prec` being 3 (milliseconds) or 6 (microseconds).  A
day-second interval `intv_t` is a sign, and days, hours, minutes, seconds and a
fraction, of type `INTV_DS_TYPE` for milliseconds and `INTV_DSUS_TYPE` for
microseconds.

Each operation takes the finer of the two precisions, scales the other
fraction by 1000, and carries or borrows one second between the fraction and
the seconds.  The proofs follow one number, the value in microseconds
(`Dttz.usecs`, `IntvDs.usecs`): the body of the addition adds it
(`addDttzIntvdsBody_usecs`), the body of the subtraction subtracts it
(`subDttzIntvdsBody_usecs`), and `_setIntervalDS` splits seconds into fields
without changing their total (`setIntervalBy_total`).

The whole seconds of an interval are not exact.  `ds_to_secs_and_msecs` adds
`days * 24 * 3600 + ...` in `unsigned int`, so an interval of 49711 days or
more counts modulo `2 ^ 32` seconds (`dsSecs`).  Adding an interval and
subtracting it again still gives the datetime back, since both wrap the same
way (`subDttzIntvds_addDttzIntvds`); the sum is the sum of the values only
below the bound (`addDttzIntvds_exact`).
-/

namespace Datetime

/-! ## The model -/

/-- `DTTZ_PREC_MSEC`: a fraction of milliseconds. -/
def dttzPrecMsec : ℕ := 3

/-- `DTTZ_PREC_USEC`: a fraction of microseconds. -/
def dttzPrecUsec : ℕ := 6

/-- `DTTZ_CONV_NOW`: the convertible flag of a datetime cast from `now()`. -/
def dttzConvNow : ℕ := 2

/-- `dttz_t`: epoch seconds (`long long`), the fraction (`unsigned int`), its
digits and the convertible flag (`unsigned short`). -/
@[ext]
structure Dttz where
  sec : ℤ
  frac : ℕ
  prec : ℕ
  conv : ℕ
  deriving DecidableEq, Repr

/-- `intv_ds_t`: days to seconds and the fraction (`unsigned int`), the
fraction's digits and the convertible flag (`unsigned short`). -/
structure IntvDs where
  days : ℕ
  hours : ℕ
  mins : ℕ
  sec : ℕ
  frac : ℕ
  prec : ℕ
  conv : ℕ
  deriving DecidableEq, Repr

/-- The tags of `intv_t`: `INTV_YM_TYPE`, `INTV_DS_TYPE`, `INTV_DECIMAL_TYPE`,
`INTV_DSUS_TYPE`. -/
inductive IntvType
  | ym
  | ds
  | decimal
  | dsus
  deriving DecidableEq, Repr

/-- `intv_t` with its day-second member `u.ds`, the one these functions read. -/
structure Intv where
  type : IntvType
  sign : ℤ
  ds : IntvDs
  deriving DecidableEq, Repr

/-- `_setIntervalDS` and `_setIntervalDSUS` for a fraction of `pow10` parts of
precision `prec`: the non-negative seconds `sec` and fraction `frac` split
into days, hours, minutes and seconds.  The days go to an `unsigned int`. -/
def setIntervalBy (pow10 prec : ℕ) (sec frac : ℕ) : IntvDs :=
  let s := frac / pow10 + sec % 60
  let mins := s / 60 + sec / 60 % 60
  let hours := mins / 60 + sec / 60 / 60 % 24
  { days := (hours / 24 + sec / 60 / 60 / 24) % 2 ^ 32, hours := hours % 24, mins := mins % 60,
    sec := s % 60, frac := frac % pow10, prec := prec, conv := 1 }

/-- `_setIntervalDS(ds, sec, msec)`. -/
def setIntervalDS (sec msec : ℕ) : IntvDs := setIntervalBy 1000 dttzPrecMsec sec msec

/-- `_setIntervalDSUS(ds, sec, usec)`. -/
def setIntervalDSUS (sec usec : ℕ) : IntvDs := setIntervalBy 1000000 dttzPrecUsec sec usec

/-- The whole seconds of `ds_to_secs_and_msecs` and `ds_to_secs_and_usecs`:
`days * 24 * 3600 + hours * 3600 + mins * 60 + sec` over `unsigned int` fields,
so each step, and the sum, modulo `2 ^ 32`, before the store to `uint64_t`. -/
def dsSecs (ds : IntvDs) : ℕ :=
  (ds.days * 24 * 3600 + ds.hours * 3600 + ds.mins * 60 + ds.sec) % 2 ^ 32

/-- `ds_to_secs_and_msecs(ds, &sec, &msec)`. -/
def dsToSecsAndMsecs (ds : IntvDs) : ℕ × ℕ :=
  (dsSecs ds, if ds.prec = dttzPrecMsec then ds.frac else ds.frac / 1000)

/-- `ds_to_secs_and_usecs(ds, &sec, &usec)`. -/
def dsToSecsAndUsecs (ds : IntvDs) : ℕ × ℕ :=
  (dsSecs ds, if ds.prec = dttzPrecUsec then ds.frac else ds.frac * 1000)

/-- The flag both operations give their result. -/
def convOf (a b : ℕ) : ℕ := if a + b ≥ dttzConvNow then 1 else 0

/-- The common tail of the two operations on a datetime: the whole seconds of
the fraction carried into `sec`, the rest kept below `pow10`. -/
def carry (sec : ℤ) (frac pow10 prec conv : ℕ) : Dttz :=
  { sec := sec + (frac / pow10 : ℕ), frac := frac % pow10, prec := prec, conv := conv }

/-- The tail of `sub_dttz_intvds`, from the two fractions in one precision:
one second borrowed when they underflow. -/
def borrow (sec : ℤ) (dtFrac dsFrac pow10 prec conv : ℕ) : Dttz :=
  if dtFrac < dsFrac then carry (sec - 1) (pow10 + dtFrac - dsFrac) pow10 prec conv
  else carry sec (dtFrac - dsFrac) pow10 prec conv

/-- `add_dttz_intvds` past its sign test: the interval added as positive. -/
def addDttzIntvdsBody (dt : Dttz) (ds : IntvDs) : Dttz :=
  let conv := convOf dt.conv ds.conv
  if dt.prec > ds.prec then
    -- datetimeus + intervalds
    carry (dt.sec + (dsToSecsAndUsecs ds).1) (dt.frac + (dsToSecsAndUsecs ds).2) 1000000
      dttzPrecUsec conv
  else if dt.prec < ds.prec then
    -- datetime + intervaldsus
    carry (dt.sec + (dsToSecsAndUsecs ds).1) (dt.frac * 1000 + (dsToSecsAndUsecs ds).2) 1000000
      dttzPrecUsec conv
  else if dt.prec = dttzPrecMsec then
    -- datetime + intervalds
    carry (dt.sec + (dsToSecsAndMsecs ds).1) (dt.frac + (dsToSecsAndMsecs ds).2) 1000
      dttzPrecMsec conv
  else
    -- datetimeus + intervaldsus
    carry (dt.sec + (dsToSecsAndUsecs ds).1) (dt.frac + (dsToSecsAndUsecs ds).2) 1000000
      dttzPrecUsec conv

/-- `sub_dttz_intvds` past its sign test: the interval subtracted as positive.
Only the seconds of `ds_to_secs_and_msecs` are used; the fraction is read from
`ds` itself. -/
def subDttzIntvdsBody (dt : Dttz) (ds : IntvDs) : Dttz :=
  let sec := dt.sec - (dsToSecsAndMsecs ds).1
  let conv := convOf dt.conv ds.conv
  if dt.prec > ds.prec then borrow sec dt.frac (ds.frac * 1000) 1000000 dt.prec conv
  else if dt.prec < ds.prec then borrow sec (dt.frac * 1000) ds.frac 1000000 ds.prec conv
  else if dt.prec = dttzPrecMsec then borrow sec dt.frac ds.frac 1000 dttzPrecMsec conv
  else borrow sec dt.frac ds.frac 1000000 dttzPrecUsec conv

/-- `add_dttz_intvds(dt, ds, rs)`.  A negative interval goes to the
subtraction as `tmp`, a copy with sign 1, which passes the callee's own sign
test. -/
def addDttzIntvds (dt : Dttz) (ds : Intv) : Dttz :=
  if ds.sign < 0 then subDttzIntvdsBody dt ds.ds else addDttzIntvdsBody dt ds.ds

/-- `sub_dttz_intvds(dt, ds, rs)`. -/
def subDttzIntvds (dt : Dttz) (ds : Intv) : Dttz :=
  if ds.sign < 0 then addDttzIntvdsBody dt ds.ds else subDttzIntvdsBody dt ds.ds

/-- The fields `_setIntervalDS` or `_setIntervalDSUS` give `sec₁.f₁ - sec₂.f₂`,
for `(sec₁, f₁)` not below `(sec₂, f₂)` and both fractions of the precision of
`type`: one second borrowed when the fractions underflow. -/
def subtractInto (type : IntvType) (sec₁ : ℤ) (f₁ : ℕ) (sec₂ : ℤ) (f₂ : ℕ) : IntvDs :=
  if type = .ds then
    if f₁ < f₂ then setIntervalDS (sec₁ - sec₂ - 1).toNat (1000 + f₁ - f₂)
    else setIntervalDS (sec₁ - sec₂).toNat (f₁ - f₂)
  else
    if f₁ < f₂ then setIntervalDSUS (sec₁ - sec₂ - 1).toNat (1000000 + f₁ - f₂)
    else setIntervalDSUS (sec₁ - sec₂).toNat (f₁ - f₂)

/-- The tail of `sub_dttz_dttz`, for fractions in the precision of `type`: the
sign of `sec₁.f₁ - sec₂.f₂`, and its size split into fields. -/
def diffInterval (type : IntvType) (sec₁ : ℤ) (f₁ : ℕ) (sec₂ : ℤ) (f₂ : ℕ) (conv : ℕ) : Intv :=
  if sec₁ < sec₂ ∨ (sec₁ = sec₂ ∧ f₁ < f₂) then
    { type := type, sign := -1, ds := { subtractInto type sec₂ f₂ sec₁ f₁ with conv := conv } }
  else
    { type := type, sign := 1, ds := { subtractInto type sec₁ f₁ sec₂ f₂ with conv := conv } }

/-- `sub_dttz_dttz(d1, d2, intv)`.  The precision step scales the coarser
fraction and picks the type; when the two precisions are equal and neither 3
nor 6 it sets nothing, and the type stays what `intv` held.  The `ds->prec` it
stores is overwritten, as `_setIntervalDS` clears the whole `intv_ds_t`. -/
def subDttzDttz (d1 d2 : Dttz) (intv : Intv) : Intv :=
  let f1 := if d1.prec < d2.prec then d1.frac * 1000 else d1.frac
  let f2 := if d1.prec > d2.prec then d2.frac * 1000 else d2.frac
  let type :=
    if d1.prec ≠ d2.prec then IntvType.dsus
    else if d1.prec = dttzPrecMsec then .ds
    else if d1.prec = dttzPrecUsec then .dsus
    else intv.type
  diffInterval type d1.sec f1 d2.sec f2 (convOf d1.conv d2.conv)

/-! ## Values -/

/-- The instant a datetime stands for, in seconds. -/
def Dttz.value (d : Dttz) : ℚ := d.sec + d.frac / 10 ^ d.prec

/-- The length of an interval, in seconds, without its sign. -/
def IntvDs.value (ds : IntvDs) : ℚ :=
  ((ds.days * 86400 + ds.hours * 3600 + ds.mins * 60 + ds.sec : ℕ) : ℚ) + ds.frac / 10 ^ ds.prec

/-- The signed length of an interval, as `interval_to_double` reads it. -/
def Intv.value (i : Intv) : ℚ := i.sign * i.ds.value

/-- The whole seconds of an interval, as a number. -/
def IntvDs.seconds (ds : IntvDs) : ℕ := ds.days * 86400 + ds.hours * 3600 + ds.mins * 60 + ds.sec

/-- A datetime's value in microseconds, for precision 3 or 6. -/
def Dttz.usecs (d : Dttz) : ℤ := d.sec * 1000000 + d.frac * 10 ^ (6 - d.prec)

/-- An interval's length in microseconds, for precision 3 or 6. -/
def IntvDs.usecs (ds : IntvDs) : ℤ := ds.seconds * 1000000 + ds.frac * 10 ^ (6 - ds.prec)

/-- An interval's signed length in microseconds. -/
def Intv.usecs (i : Intv) : ℤ := i.sign * i.ds.usecs

/-- A datetime as the server makes them: precision 3 or 6, the fraction below
`10 ^ prec`. -/
structure Dttz.Norm (d : Dttz) : Prop where
  prec : d.prec = dttzPrecMsec ∨ d.prec = dttzPrecUsec
  frac_lt : d.frac < 10 ^ d.prec

/-- An interval's fields as `_setIntervalDS` leaves them. -/
structure IntvDs.Norm (ds : IntvDs) : Prop where
  prec : ds.prec = dttzPrecMsec ∨ ds.prec = dttzPrecUsec
  hours_lt : ds.hours < 24
  mins_lt : ds.mins < 60
  sec_lt : ds.sec < 60
  frac_lt : ds.frac < 10 ^ ds.prec

/-- A day-second interval: sign 1 or -1, `INTV_DS_TYPE` of milliseconds or
`INTV_DSUS_TYPE` of microseconds, normalised fields. -/
structure Intv.Norm (i : Intv) : Prop where
  sign : i.sign = 1 ∨ i.sign = -1
  type : (i.type = .ds ∧ i.ds.prec = dttzPrecMsec) ∨ (i.type = .dsus ∧ i.ds.prec = dttzPrecUsec)
  ds : i.ds.Norm

theorem Dttz.Norm.prec_eq {d : Dttz} (hd : d.Norm) : d.prec = 3 ∨ d.prec = 6 := hd.prec

theorem IntvDs.Norm.prec_eq {ds : IntvDs} (hi : ds.Norm) : ds.prec = 3 ∨ ds.prec = 6 := hi.prec

/-- `pow10` is `10 ^ prec`, for one of the two precisions. -/
def Scale (pow10 prec : ℕ) : Prop :=
  (pow10 = 1000 ∧ prec = dttzPrecMsec) ∨ (pow10 = 1000000 ∧ prec = dttzPrecUsec)

/-- The fraction an interval type stands for: milliseconds for
`INTV_DS_TYPE`, microseconds for `INTV_DSUS_TYPE`. -/
def TypeScale (type : IntvType) (pow10 prec : ℕ) : Prop :=
  (type = .ds ∧ pow10 = 1000 ∧ prec = dttzPrecMsec) ∨
    (type = .dsus ∧ pow10 = 1000000 ∧ prec = dttzPrecUsec)

/-- A datetime rescaled to the finer precision `prec`: the same instant. -/
def Dttz.rescale (d : Dttz) (prec : ℕ) : Dttz :=
  { d with frac := d.frac * 10 ^ (prec - d.prec), prec := prec }

/-! ## Splitting seconds into fields -/

section SetInterval

variable (pow10 prec sec frac : ℕ)

theorem Scale.prec_eq {pow10 prec : ℕ} (hs : Scale pow10 prec) :
    prec = dttzPrecMsec ∨ prec = dttzPrecUsec :=
  hs.imp And.right And.right

/-- What is kept modulo `pow10` is a fraction of the precision. -/
theorem Scale.mod_lt {pow10 prec : ℕ} (hs : Scale pow10 prec) (n : ℕ) : n % pow10 < 10 ^ prec := by
  rcases hs with ⟨rfl, rfl⟩ | ⟨rfl, rfl⟩ <;> exact Nat.mod_lt _ (by norm_num)

@[simp] theorem setIntervalBy_frac : (setIntervalBy pow10 prec sec frac).frac = frac % pow10 := rfl

@[simp] theorem setIntervalBy_prec : (setIntervalBy pow10 prec sec frac).prec = prec := rfl

/-- `_setIntervalDS` splits the seconds, with the whole seconds of the
fraction, into fields that add up to them, as long as the days fit in an
`unsigned int`. -/
theorem setIntervalBy_seconds (h : (sec + frac / pow10) / 86400 < 2 ^ 32) :
    (setIntervalBy pow10 prec sec frac).seconds = sec + frac / pow10 := by
  simp only [setIntervalBy, IntvDs.seconds]
  generalize frac / pow10 = q at h ⊢
  -- before the store, the days are the whole days of the total
  have hdays : (((q + sec % 60) / 60 + sec / 60 % 60) / 60 + sec / 60 / 60 % 24) / 24 +
      sec / 60 / 60 / 24 = (sec + q) / 86400 := by omega
  rw [hdays, Nat.mod_eq_of_lt h]
  omega

theorem setIntervalBy_norm (hs : Scale pow10 prec) : (setIntervalBy pow10 prec sec frac).Norm :=
  ⟨hs.prec_eq, Nat.mod_lt _ (by omega), Nat.mod_lt _ (by omega), Nat.mod_lt _ (by omega),
    hs.mod_lt frac⟩

theorem setIntervalBy_usecs (hs : Scale pow10 prec) (h : (sec + frac / pow10) / 86400 < 2 ^ 32) :
    (setIntervalBy pow10 prec sec frac).usecs = sec * 1000000 + frac * 10 ^ (6 - prec) := by
  rw [IntvDs.usecs, setIntervalBy_seconds pow10 prec sec frac h, setIntervalBy_frac,
    setIntervalBy_prec]
  rcases hs with ⟨rfl, rfl⟩ | ⟨rfl, rfl⟩
  · simp only [dttzPrecMsec]
    omega
  · simp only [dttzPrecUsec]
    omega

end SetInterval

/-! ## Carry and borrow -/

section Carry

variable {pow10 prec : ℕ} (sec : ℤ) (conv : ℕ)

theorem carry_norm (hs : Scale pow10 prec) (frac : ℕ) : (carry sec frac pow10 prec conv).Norm :=
  ⟨hs.prec_eq, hs.mod_lt frac⟩

/-- The carry moves whole seconds from the fraction to `sec` and keeps the
value. -/
theorem carry_usecs (hs : Scale pow10 prec) (frac : ℕ) :
    (carry sec frac pow10 prec conv).usecs = sec * 1000000 + frac * 10 ^ (6 - prec) := by
  simp only [Dttz.usecs, carry]
  rcases hs with ⟨rfl, rfl⟩ | ⟨rfl, rfl⟩
  · simp only [dttzPrecMsec]
    omega
  · simp only [dttzPrecUsec]
    omega

theorem borrow_norm (hs : Scale pow10 prec) (dtFrac dsFrac : ℕ) :
    (borrow sec dtFrac dsFrac pow10 prec conv).Norm := by
  unfold borrow
  split_ifs
  · exact carry_norm _ _ hs _
  · exact carry_norm _ _ hs _

/-- The borrow keeps the value of `sec.dtFrac - dsFrac`, for a subtrahend
fraction below `pow10`. -/
theorem borrow_usecs (hs : Scale pow10 prec) (dtFrac dsFrac : ℕ) (h : dsFrac ≤ pow10) :
    (borrow sec dtFrac dsFrac pow10 prec conv).usecs =
      sec * 1000000 + ((dtFrac : ℤ) - dsFrac) * 10 ^ (6 - prec) := by
  unfold borrow
  split_ifs with hlt
  · rw [carry_usecs _ _ hs]
    rcases hs with ⟨rfl, rfl⟩ | ⟨rfl, rfl⟩
    · simp only [dttzPrecMsec]
      omega
    · simp only [dttzPrecUsec]
      omega
  · rw [carry_usecs _ _ hs]
    push_cast [Nat.cast_sub (not_lt.1 hlt)]
    ring

end Carry

/-! ## The two operations on a datetime -/

section Operations

variable {dt : Dttz} {ds : IntvDs}

/-- Each branch of `add_dttz_intvds` adds the interval's seconds and carries
the sum of the two fractions, taken in the finer precision. -/
theorem addDttzIntvdsBody_eq (hd : dt.Norm) (hi : ds.Norm) :
    ∃ frac pow10 prec : ℕ, Scale pow10 prec ∧ prec = max dt.prec ds.prec ∧
      (frac : ℤ) * 10 ^ (6 - prec) = dt.frac * 10 ^ (6 - dt.prec) + ds.frac * 10 ^ (6 - ds.prec) ∧
      addDttzIntvdsBody dt ds = carry (dt.sec + dsSecs ds) frac pow10 prec (convOf dt.conv ds.conv) := by
  rcases hd.prec_eq with h₁ | h₁ <;> rcases hi.prec_eq with h₂ | h₂
  · -- datetime + intervalds
    refine ⟨dt.frac + ds.frac, 1000, 3, .inl ⟨rfl, rfl⟩, by rw [h₁, h₂]; rfl, by rw [h₁, h₂]; push_cast; ring, ?_⟩
    simp [addDttzIntvdsBody, dsToSecsAndMsecs, h₁, h₂, dttzPrecMsec]
  · -- datetime + intervaldsus
    refine ⟨dt.frac * 1000 + ds.frac, 1000000, 6, .inr ⟨rfl, rfl⟩, by rw [h₁, h₂]; rfl,
      by rw [h₁, h₂]; push_cast; ring, ?_⟩
    simp [addDttzIntvdsBody, dsToSecsAndUsecs, h₁, h₂, dttzPrecUsec]
  · -- datetimeus + intervalds
    refine ⟨dt.frac + ds.frac * 1000, 1000000, 6, .inr ⟨rfl, rfl⟩, by rw [h₁, h₂]; rfl,
      by rw [h₁, h₂]; push_cast; ring, ?_⟩
    simp [addDttzIntvdsBody, dsToSecsAndUsecs, h₁, h₂, dttzPrecUsec]
  · -- datetimeus + intervaldsus
    refine ⟨dt.frac + ds.frac, 1000000, 6, .inr ⟨rfl, rfl⟩, by rw [h₁, h₂]; rfl,
      by rw [h₁, h₂]; push_cast; ring, ?_⟩
    simp [addDttzIntvdsBody, dsToSecsAndUsecs, h₁, h₂, dttzPrecUsec, dttzPrecMsec]

/-- Each branch of `sub_dttz_intvds` takes the interval's seconds away and
borrows between the two fractions, taken in the finer precision. -/
theorem subDttzIntvdsBody_eq (hd : dt.Norm) (hi : ds.Norm) :
    ∃ f₁ f₂ pow10 prec : ℕ, Scale pow10 prec ∧ prec = max dt.prec ds.prec ∧ f₂ < pow10 ∧
      (f₁ : ℤ) * 10 ^ (6 - prec) = dt.frac * 10 ^ (6 - dt.prec) ∧
      (f₂ : ℤ) * 10 ^ (6 - prec) = ds.frac * 10 ^ (6 - ds.prec) ∧
      subDttzIntvdsBody dt ds = borrow (dt.sec - dsSecs ds) f₁ f₂ pow10 prec (convOf dt.conv ds.conv) := by
  have hf := hi.frac_lt
  rcases hd.prec_eq with h₁ | h₁ <;> rcases hi.prec_eq with h₂ | h₂ <;> rw [h₂] at hf
  · refine ⟨dt.frac, ds.frac, 1000, 3, .inl ⟨rfl, rfl⟩, by rw [h₁, h₂]; rfl, hf,
      by rw [h₁], by rw [h₂], ?_⟩
    simp [subDttzIntvdsBody, dsToSecsAndMsecs, h₁, h₂, dttzPrecMsec]
  · refine ⟨dt.frac * 1000, ds.frac, 1000000, 6, .inr ⟨rfl, rfl⟩, by rw [h₁, h₂]; rfl, hf,
      by rw [h₁]; push_cast; ring, by rw [h₂], ?_⟩
    simp [subDttzIntvdsBody, dsToSecsAndMsecs, h₁, h₂]
  · refine ⟨dt.frac, ds.frac * 1000, 1000000, 6, .inr ⟨rfl, rfl⟩, by rw [h₁, h₂]; rfl,
      by norm_num at hf; omega, by rw [h₁], by rw [h₂]; push_cast; ring, ?_⟩
    simp [subDttzIntvdsBody, dsToSecsAndMsecs, h₁, h₂]
  · refine ⟨dt.frac, ds.frac, 1000000, 6, .inr ⟨rfl, rfl⟩, by rw [h₁, h₂]; rfl, hf,
      by rw [h₁], by rw [h₂], ?_⟩
    simp [subDttzIntvdsBody, dsToSecsAndMsecs, h₁, h₂, dttzPrecMsec, dttzPrecUsec]

/-- **The addition** gives a datetime of the finer precision whose value is the
datetime's plus the interval's, with the interval's seconds as `dsSecs` counts
them. -/
theorem addDttzIntvdsBody_usecs (hd : dt.Norm) (hi : ds.Norm) :
    (addDttzIntvdsBody dt ds).Norm ∧ (addDttzIntvdsBody dt ds).prec = max dt.prec ds.prec ∧
      (addDttzIntvdsBody dt ds).usecs = dt.usecs + dsSecs ds * 1000000 + ds.frac * 10 ^ (6 - ds.prec) := by
  obtain ⟨frac, pow10, prec, hs, hp, hfrac, heq⟩ := addDttzIntvdsBody_eq hd hi
  rw [heq]
  refine ⟨carry_norm _ _ hs _, hp, ?_⟩
  rw [carry_usecs _ _ hs, hfrac, Dttz.usecs]
  ring

/-- **The subtraction** gives a datetime of the finer precision whose value is
the datetime's less the interval's. -/
theorem subDttzIntvdsBody_usecs (hd : dt.Norm) (hi : ds.Norm) :
    (subDttzIntvdsBody dt ds).Norm ∧ (subDttzIntvdsBody dt ds).prec = max dt.prec ds.prec ∧
      (subDttzIntvdsBody dt ds).usecs = dt.usecs - dsSecs ds * 1000000 - ds.frac * 10 ^ (6 - ds.prec) := by
  obtain ⟨f₁, f₂, pow10, prec, hs, hp, hf₂, hfrac₁, hfrac₂, heq⟩ := subDttzIntvdsBody_eq hd hi
  rw [heq]
  refine ⟨borrow_norm _ _ hs _ _, by rw [borrow]; split_ifs <;> exact hp, ?_⟩
  rw [borrow_usecs _ _ hs _ _ hf₂.le, Dttz.usecs, ← hfrac₁, ← hfrac₂]
  ring

end Operations

/-! ## Values in microseconds -/

section Values

variable {d d' : Dttz}

theorem Dttz.value_eq_usecs (hd : d.Norm) : d.value = d.usecs / 1000000 := by
  rcases hd.prec_eq with h | h <;>
    simp [Dttz.value, Dttz.usecs, h] <;> ring

theorem IntvDs.value_eq_usecs {ds : IntvDs} (hi : ds.Norm) : ds.value = ds.usecs / 1000000 := by
  rcases hi.prec_eq with h | h <;>
    simp [IntvDs.value, IntvDs.usecs, IntvDs.seconds, h] <;> ring

theorem Intv.value_eq_usecs {i : Intv} (hi : i.ds.Norm) : i.value = i.usecs / 1000000 := by
  rw [Intv.value, Intv.usecs, IntvDs.value_eq_usecs hi]
  push_cast
  ring

/-- A normalised datetime is fixed by its precision and its value. -/
theorem Dttz.eq_of_usecs (hd : d.Norm) (hd' : d'.Norm) (hp : d.prec = d'.prec)
    (hu : d.usecs = d'.usecs) : d.sec = d'.sec ∧ d.frac = d'.frac := by
  have hf := hd.frac_lt
  have hf' := hd'.frac_lt
  simp only [Dttz.usecs] at hu
  rw [← hp] at hf' hu
  rcases hd.prec_eq with h | h <;>
    simp only [h] at hf hf' hu <;> omega

theorem Dttz.rescale_norm (hd : d.Norm) {prec : ℕ} (hp : prec = dttzPrecMsec ∨ prec = dttzPrecUsec)
    (hle : d.prec ≤ prec) : (d.rescale prec).Norm := by
  refine ⟨hp, ?_⟩
  have hf := hd.frac_lt
  simp only [Dttz.rescale]
  rcases hd.prec_eq with h | h <;> rcases hp with hp | hp <;>
    simp only [h, hp, dttzPrecMsec, dttzPrecUsec] at hf hle ⊢ <;> omega

theorem Dttz.rescale_usecs {prec : ℕ} (hp : prec ≤ 6) (hle : d.prec ≤ prec) :
    (d.rescale prec).usecs = d.usecs := by
  simp only [Dttz.usecs, Dttz.rescale]
  push_cast
  rw [mul_assoc, ← pow_add, show prec - d.prec + (6 - prec) = 6 - d.prec by omega]

theorem Dttz.Norm.usecs_mem (hd : d.Norm) :
    d.sec * 1000000 ≤ d.usecs ∧ d.usecs < d.sec * 1000000 + 1000000 := by
  have hf := hd.frac_lt
  rw [Dttz.usecs]
  rcases hd.prec_eq with h | h <;> simp only [h] at hf ⊢ <;>
    omega

theorem IntvDs.Norm.usecs_mem {ds : IntvDs} (hi : ds.Norm) :
    (ds.seconds : ℤ) * 1000000 ≤ ds.usecs ∧ ds.usecs < ds.seconds * 1000000 + 1000000 := by
  have hf := hi.frac_lt
  rw [IntvDs.usecs]
  rcases hi.prec_eq with h | h <;> simp only [h] at hf ⊢ <;>
    omega

/-- Below `2 ^ 32` seconds the interval's seconds do not wrap. -/
theorem dsSecs_eq {ds : IntvDs} (h : ds.seconds < 2 ^ 32) : dsSecs ds = ds.seconds := by
  rw [dsSecs, IntvDs.seconds] at *
  omega

end Values

/-! ## Round trip and exactness -/

section Exact

variable {d : Dttz} {i : Intv}

/-- **Adding an interval and subtracting it** gives the datetime back, in the
finer of the two precisions, whatever the interval's length: both operations
count its seconds with the same wrap. -/
theorem subDttzIntvds_addDttzIntvds (hd : d.Norm) (hi : i.ds.Norm) :
    { subDttzIntvds (addDttzIntvds d i) i with conv := d.conv } = d.rescale (max d.prec i.ds.prec) := by
  -- the two bodies run in one order or the other, and undo each other
  have hback : (subDttzIntvds (addDttzIntvds d i) i).Norm ∧
      (subDttzIntvds (addDttzIntvds d i) i).prec = max d.prec i.ds.prec ∧
      (subDttzIntvds (addDttzIntvds d i) i).usecs = d.usecs := by
    unfold addDttzIntvds subDttzIntvds
    split_ifs with hneg
    · obtain ⟨hn₁, hp₁, hu₁⟩ := subDttzIntvdsBody_usecs hd hi
      obtain ⟨hn₂, hp₂, hu₂⟩ := addDttzIntvdsBody_usecs hn₁ hi
      exact ⟨hn₂, by rw [hp₂, hp₁]; omega, by rw [hu₂, hu₁]; ring⟩
    · obtain ⟨hn₁, hp₁, hu₁⟩ := addDttzIntvdsBody_usecs hd hi
      obtain ⟨hn₂, hp₂, hu₂⟩ := subDttzIntvdsBody_usecs hn₁ hi
      exact ⟨hn₂, by rw [hp₂, hp₁]; omega, by rw [hu₂, hu₁]; ring⟩
  obtain ⟨hn, hp, hu⟩ := hback
  have hmax : max d.prec i.ds.prec = dttzPrecMsec ∨ max d.prec i.ds.prec = dttzPrecUsec := by
    rcases hd.prec with h | h <;> rcases hi.prec with h' | h' <;> rw [h, h'] <;> decide
  have h6 : max d.prec i.ds.prec ≤ 6 := by rcases hmax with h | h <;> rw [h] <;> decide
  have hle : d.prec ≤ max d.prec i.ds.prec := le_max_left _ _
  obtain ⟨hsec, hfrac⟩ := Dttz.eq_of_usecs hn (d.rescale_norm hd hmax hle) hp
    (by rw [hu, Dttz.rescale_usecs h6 hle])
  ext
  · exact hsec
  · exact hfrac
  · exact hp
  · rfl

/-- 0.500 plus and less one day, two hours, three minutes and 4.000005 seconds:
0.500000. -/
theorem subDttzIntvds_addDttzIntvds_usec :
    Dttz.Norm ⟨0, 500, 3, 0⟩ ∧ IntvDs.Norm ⟨1, 2, 3, 4, 5, 6, 0⟩ ∧
      { subDttzIntvds (addDttzIntvds ⟨0, 500, 3, 0⟩ ⟨.dsus, 1, ⟨1, 2, 3, 4, 5, 6, 0⟩⟩)
          ⟨.dsus, 1, ⟨1, 2, 3, 4, 5, 6, 0⟩⟩ with conv := 0 } = Dttz.rescale ⟨0, 500, 3, 0⟩ 6 := by
  have hd : Dttz.Norm ⟨0, 500, 3, 0⟩ := ⟨.inl rfl, by decide⟩
  have hi : IntvDs.Norm ⟨1, 2, 3, 4, 5, 6, 0⟩ := ⟨.inr rfl, by decide, by decide, by decide, by decide⟩
  exact ⟨hd, hi, subDttzIntvds_addDttzIntvds hd hi⟩

/-- **The sum is exact** for an interval below `2 ^ 32` seconds: the result is
normalised, of the finer precision, and its value is the sum of the values. -/
theorem addDttzIntvds_usecs (hd : d.Norm) (hi : i.Norm) (hb : i.ds.seconds < 2 ^ 32) :
    (addDttzIntvds d i).Norm ∧ (addDttzIntvds d i).prec = max d.prec i.ds.prec ∧
      (addDttzIntvds d i).usecs = d.usecs + i.usecs := by
  have hs := dsSecs_eq hb
  unfold addDttzIntvds
  split_ifs with hneg
  · -- a negative interval is subtracted
    have hsign : i.sign = -1 := by rcases hi.sign with h | h <;> omega
    obtain ⟨hn, hp, hu⟩ := subDttzIntvdsBody_usecs hd hi.ds
    refine ⟨hn, hp, ?_⟩
    rw [hu, Intv.usecs, hsign, IntvDs.usecs, hs]
    ring
  · have hsign : i.sign = 1 := by rcases hi.sign with h | h <;> omega
    obtain ⟨hn, hp, hu⟩ := addDttzIntvdsBody_usecs hd hi.ds
    refine ⟨hn, hp, ?_⟩
    rw [hu, Intv.usecs, hsign, IntvDs.usecs, hs]
    ring

end Exact

/-! ## The difference of two datetimes -/

section Difference

variable {type : IntvType} {pow10 prec : ℕ}

theorem TypeScale.scale (ht : TypeScale type pow10 prec) : Scale pow10 prec := by
  rcases ht with ⟨-, h⟩ | ⟨-, h⟩
  · exact .inl h
  · exact .inr h

/-- `_setIntervalDS` or `_setIntervalDSUS` of a non-negative difference: fields
as they leave them, whose value is the difference, for a difference of fewer
than `2 ^ 32` days. -/
theorem subtractInto_usecs (ht : TypeScale type pow10 prec) {f₁ f₂ : ℕ} (sec₁ sec₂ : ℤ)
    (hf₁ : f₁ < pow10) (hf₂ : f₂ < pow10) (hge : ¬(sec₁ < sec₂ ∨ (sec₁ = sec₂ ∧ f₁ < f₂)))
    (hb : sec₁ - sec₂ < 2 ^ 32 * 86400) :
    (subtractInto type sec₁ f₁ sec₂ f₂).Norm ∧ (subtractInto type sec₁ f₁ sec₂ f₂).prec = prec ∧
      (subtractInto type sec₁ f₁ sec₂ f₂).usecs = (sec₁ - sec₂) * 1000000 + ((f₁ : ℤ) - f₂) * 10 ^ (6 - prec) := by
  have hs := ht.scale
  rcases ht with ⟨rfl, rfl, rfl⟩ | ⟨rfl, rfl, rfl⟩
  · -- `INTV_DS_TYPE`: `_setIntervalDS`
    simp only [subtractInto, if_true, setIntervalDS]
    split_ifs with hlt
    · refine ⟨setIntervalBy_norm _ _ _ _ hs, rfl, ?_⟩
      rw [setIntervalBy_usecs _ _ _ _ hs (by omega), dttzPrecMsec]
      omega
    · refine ⟨setIntervalBy_norm _ _ _ _ hs, rfl, ?_⟩
      rw [setIntervalBy_usecs _ _ _ _ hs (by omega), dttzPrecMsec]
      omega
  · -- `INTV_DSUS_TYPE`: `_setIntervalDSUS`
    simp only [subtractInto, reduceCtorEq, if_false, setIntervalDSUS]
    split_ifs with hlt
    · refine ⟨setIntervalBy_norm _ _ _ _ hs, rfl, ?_⟩
      rw [setIntervalBy_usecs _ _ _ _ hs (by omega), dttzPrecUsec]
      omega
    · refine ⟨setIntervalBy_norm _ _ _ _ hs, rfl, ?_⟩
      rw [setIntervalBy_usecs _ _ _ _ hs (by omega), dttzPrecUsec]
      omega

/-- An interval of normalised fields keeps them when its flag is set. -/
theorem IntvDs.Norm.withConv {ds : IntvDs} (h : ds.Norm) (conv : ℕ) : ({ ds with conv := conv } : IntvDs).Norm :=
  ⟨h.prec, h.hours_lt, h.mins_lt, h.sec_lt, h.frac_lt⟩

theorem TypeScale.intv_norm (ht : TypeScale type pow10 prec) {sign : ℤ} {ds : IntvDs}
    (hsign : sign = 1 ∨ sign = -1) (hn : ds.Norm) (hp : ds.prec = prec) : (Intv.mk type sign ds).Norm := by
  refine ⟨hsign, ?_, hn⟩
  rcases ht with ⟨h, -, h'⟩ | ⟨h, -, h'⟩
  · exact .inl ⟨h, hp.trans h'⟩
  · exact .inr ⟨h, hp.trans h'⟩

/-- The tail of `sub_dttz_dttz` gives a day-second interval whose signed value
is the difference, for fewer than `2 ^ 32` days between the two. -/
theorem diffInterval_usecs (ht : TypeScale type pow10 prec) {sec₁ sec₂ : ℤ} {f₁ f₂ : ℕ}
    (hf₁ : f₁ < pow10) (hf₂ : f₂ < pow10) (hb : |sec₁ - sec₂| < 2 ^ 32 * 86400) (conv : ℕ) :
    (diffInterval type sec₁ f₁ sec₂ f₂ conv).Norm ∧
      (diffInterval type sec₁ f₁ sec₂ f₂ conv).usecs =
        (sec₁ - sec₂) * 1000000 + ((f₁ : ℤ) - f₂) * 10 ^ (6 - prec) := by
  rw [abs_lt] at hb
  unfold diffInterval
  split_ifs with hlt
  · -- the first is below the second: sign -1, the difference taken the other way
    obtain ⟨hn, hp, hu⟩ := subtractInto_usecs ht sec₂ sec₁ hf₂ hf₁ (by omega) (by omega)
    refine ⟨ht.intv_norm (.inr rfl) (hn.withConv conv) hp, ?_⟩
    show -1 * (subtractInto type sec₂ f₂ sec₁ f₁).usecs = _
    rw [hu]
    ring
  · obtain ⟨hn, hp, hu⟩ := subtractInto_usecs ht sec₁ sec₂ hf₁ hf₂ hlt (by omega)
    refine ⟨ht.intv_norm (.inl rfl) (hn.withConv conv) hp, ?_⟩
    show 1 * (subtractInto type sec₁ f₁ sec₂ f₂).usecs = _
    rw [hu]
    ring

/-- Each branch of the precision step of `sub_dttz_dttz` puts both fractions
in the finer precision and picks the type that stands for it. -/
theorem subDttzDttz_eq {d1 d2 : Dttz} (h₁ : d1.Norm) (h₂ : d2.Norm) (intv : Intv) :
    ∃ (type : IntvType) (f₁ f₂ pow10 prec : ℕ), TypeScale type pow10 prec ∧ f₁ < pow10 ∧ f₂ < pow10 ∧
      (f₁ : ℤ) * 10 ^ (6 - prec) = d1.frac * 10 ^ (6 - d1.prec) ∧
      (f₂ : ℤ) * 10 ^ (6 - prec) = d2.frac * 10 ^ (6 - d2.prec) ∧
      subDttzDttz d1 d2 intv = diffInterval type d1.sec f₁ d2.sec f₂ (convOf d1.conv d2.conv) := by
  have hf₁ := h₁.frac_lt
  have hf₂ := h₂.frac_lt
  rcases h₁.prec_eq with hp₁ | hp₁ <;> rcases h₂.prec_eq with hp₂ | hp₂ <;> rw [hp₁] at hf₁ <;>
    rw [hp₂] at hf₂
  · refine ⟨.ds, d1.frac, d2.frac, 1000, 3, .inl ⟨rfl, rfl, rfl⟩, hf₁, hf₂, by rw [hp₁], by rw [hp₂], ?_⟩
    simp [subDttzDttz, hp₁, hp₂, dttzPrecMsec]
  · refine ⟨.dsus, d1.frac * 1000, d2.frac, 1000000, 6, .inr ⟨rfl, rfl, rfl⟩, by omega, hf₂,
      by rw [hp₁]; push_cast; ring, by rw [hp₂], ?_⟩
    simp [subDttzDttz, hp₁, hp₂]
  · refine ⟨.dsus, d1.frac, d2.frac * 1000, 1000000, 6, .inr ⟨rfl, rfl, rfl⟩, by omega, by omega,
      by rw [hp₁], by rw [hp₂]; push_cast; ring, ?_⟩
    simp [subDttzDttz, hp₁, hp₂]
  · refine ⟨.dsus, d1.frac, d2.frac, 1000000, 6, .inr ⟨rfl, rfl, rfl⟩, hf₁, hf₂, by rw [hp₁],
      by rw [hp₂], ?_⟩
    simp [subDttzDttz, hp₁, hp₂, dttzPrecMsec, dttzPrecUsec]

/-- **The difference of two datetimes** is a day-second interval of the finer
precision, with fields as `_setIntervalDS` leaves them, whose signed value is
the difference of the values, for datetimes fewer than `2 ^ 32` days apart. -/
theorem subDttzDttz_usecs {d1 d2 : Dttz} (h₁ : d1.Norm) (h₂ : d2.Norm)
    (hb : |d1.sec - d2.sec| < 2 ^ 32 * 86400) (intv : Intv) :
    (subDttzDttz d1 d2 intv).Norm ∧ (subDttzDttz d1 d2 intv).usecs = d1.usecs - d2.usecs := by
  obtain ⟨type, f₁, f₂, pow10, prec, ht, hf₁, hf₂, hfrac₁, hfrac₂, heq⟩ := subDttzDttz_eq h₁ h₂ intv
  obtain ⟨hn, hu⟩ := diffInterval_usecs ht hf₁ hf₂ hb (convOf d1.conv d2.conv)
  refine ⟨heq ▸ hn, ?_⟩
  rw [heq, hu, Dttz.usecs, Dttz.usecs, ← hfrac₁, ← hfrac₂]
  ring

/- 5.001 less 3.500000: the milliseconds are scaled to microseconds, a second
is borrowed, and the interval is of type `INTV_DSUS_TYPE`. -/
example : subDttzDttz ⟨5, 1, 3, 0⟩ ⟨3, 500000, 6, 0⟩ ⟨.ds, 1, ⟨0, 0, 0, 0, 0, 3, 0⟩⟩ =
    ⟨.dsus, 1, ⟨0, 0, 0, 1, 501000, 6, 0⟩⟩ := by decide

/-- **Interval arithmetic is exact** for intervals below `2 ^ 32` seconds: the
sum is a normalised datetime of the finer precision whose value is the sum of
the values, and the difference of the sum and the datetime is an interval of
normalised fields whose value is the interval's. -/
theorem addDttzIntvds_exact {d : Dttz} {i : Intv} (hd : d.Norm) (hi : i.Norm)
    (hb : i.ds.seconds < 2 ^ 32) (intv : Intv) :
    (addDttzIntvds d i).Norm ∧ (addDttzIntvds d i).prec = max d.prec i.ds.prec ∧
      (addDttzIntvds d i).value = d.value + i.value ∧
      (subDttzDttz (addDttzIntvds d i) d intv).Norm ∧
      (subDttzDttz (addDttzIntvds d i) d intv).value = i.value := by
  obtain ⟨hn, hp, hu⟩ := addDttzIntvds_usecs hd hi hb
  -- the sum is at most `2 ^ 32 + 1` whole seconds away from the datetime
  have hclose : |(addDttzIntvds d i).sec - d.sec| < 2 ^ 32 * 86400 := by
    have hr := hn.usecs_mem
    have hd' := hd.usecs_mem
    have hi' := hi.ds.usecs_mem
    rw [Intv.usecs] at hu
    rw [abs_lt]
    rcases hi.sign with hs | hs <;> rw [hs] at hu <;> omega
  obtain ⟨hn', hu'⟩ := subDttzDttz_usecs hn hd hclose intv
  refine ⟨hn, hp, ?_, hn', ?_⟩
  · rw [Dttz.value_eq_usecs hn, hu, Dttz.value_eq_usecs hd, Intv.value_eq_usecs hi.ds]
    push_cast
    ring
  · rw [Intv.value_eq_usecs hn'.ds, hu', hu, Intv.value_eq_usecs hi.ds]
    push_cast
    ring

/-- 0.500 plus one day, two hours, three minutes and 4.000005 seconds. -/
theorem addDttzIntvds_exact_usec :
    Dttz.Norm ⟨0, 500, 3, 0⟩ ∧ Intv.Norm ⟨.dsus, 1, ⟨1, 2, 3, 4, 5, 6, 0⟩⟩ ∧
      IntvDs.seconds ⟨1, 2, 3, 4, 5, 6, 0⟩ < 2 ^ 32 ∧
      (addDttzIntvds ⟨0, 500, 3, 0⟩ ⟨.dsus, 1, ⟨1, 2, 3, 4, 5, 6, 0⟩⟩).Norm ∧
      (addDttzIntvds ⟨0, 500, 3, 0⟩ ⟨.dsus, 1, ⟨1, 2, 3, 4, 5, 6, 0⟩⟩).prec = max 3 6 ∧
      (addDttzIntvds ⟨0, 500, 3, 0⟩ ⟨.dsus, 1, ⟨1, 2, 3, 4, 5, 6, 0⟩⟩).value =
        Dttz.value ⟨0, 500, 3, 0⟩ + Intv.value ⟨.dsus, 1, ⟨1, 2, 3, 4, 5, 6, 0⟩⟩ ∧
      (subDttzDttz (addDttzIntvds ⟨0, 500, 3, 0⟩ ⟨.dsus, 1, ⟨1, 2, 3, 4, 5, 6, 0⟩⟩) ⟨0, 500, 3, 0⟩
        ⟨.ds, 1, ⟨0, 0, 0, 0, 0, 3, 0⟩⟩).Norm ∧
      (subDttzDttz (addDttzIntvds ⟨0, 500, 3, 0⟩ ⟨.dsus, 1, ⟨1, 2, 3, 4, 5, 6, 0⟩⟩) ⟨0, 500, 3, 0⟩
        ⟨.ds, 1, ⟨0, 0, 0, 0, 0, 3, 0⟩⟩).value = Intv.value ⟨.dsus, 1, ⟨1, 2, 3, 4, 5, 6, 0⟩⟩ := by
  have hd : Dttz.Norm ⟨0, 500, 3, 0⟩ := ⟨.inl rfl, by decide⟩
  have hi : Intv.Norm ⟨.dsus, 1, ⟨1, 2, 3, 4, 5, 6, 0⟩⟩ :=
    ⟨.inl rfl, .inr ⟨rfl, rfl⟩, ⟨.inr rfl, by decide, by decide, by decide, by decide⟩⟩
  have hb : IntvDs.seconds ⟨1, 2, 3, 4, 5, 6, 0⟩ < 2 ^ 32 := by decide
  exact ⟨hd, hi, hb, addDttzIntvds_exact hd hi hb ⟨.ds, 1, ⟨0, 0, 0, 0, 0, 3, 0⟩⟩⟩

/-- Between 1900-01-01 and 2100-01-01 lie 73049 days, and `sub_dttz_dttz` says
so.  Adding that interval back to 1900-01-01 counts its seconds modulo
`2 ^ 32` and lands in 1963 instead of 2100, and the difference of that sum and
1900-01-01 is 23338 days and some hours instead of the 73049 days added. -/
theorem addDttzIntvds_wraps :
    subDttzDttz ⟨4102444800, 0, 3, 0⟩ ⟨-2208988800, 0, 3, 0⟩ ⟨.ds, 1, ⟨0, 0, 0, 0, 0, 3, 0⟩⟩ =
        ⟨.ds, 1, ⟨73049, 0, 0, 0, 0, 3, 0⟩⟩ ∧
      addDttzIntvds ⟨-2208988800, 0, 3, 0⟩ ⟨.ds, 1, ⟨73049, 0, 0, 0, 0, 3, 0⟩⟩ =
        ⟨-192522496, 0, 3, 0⟩ ∧
      (addDttzIntvds ⟨-2208988800, 0, 3, 0⟩ ⟨.ds, 1, ⟨73049, 0, 0, 0, 0, 3, 0⟩⟩).value ≠
        Dttz.value ⟨-2208988800, 0, 3, 0⟩ + Intv.value ⟨.ds, 1, ⟨73049, 0, 0, 0, 0, 3, 0⟩⟩ ∧
      subDttzDttz ⟨-192522496, 0, 3, 0⟩ ⟨-2208988800, 0, 3, 0⟩ ⟨.ds, 1, ⟨0, 0, 0, 0, 0, 3, 0⟩⟩ =
        ⟨.ds, 1, ⟨23338, 17, 31, 44, 0, 3, 0⟩⟩ := by
  have hsum : addDttzIntvds ⟨-2208988800, 0, 3, 0⟩ ⟨.ds, 1, ⟨73049, 0, 0, 0, 0, 3, 0⟩⟩ =
      ⟨-192522496, 0, 3, 0⟩ := by decide
  refine ⟨by decide, hsum, ?_, by decide⟩
  rw [hsum]
  norm_num [Dttz.value, Intv.value, IntvDs.value]

end Difference

end Datetime
