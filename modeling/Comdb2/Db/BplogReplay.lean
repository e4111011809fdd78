import Comdb2.Db.BplogReorder
import Comdb2.Lib.Merge

/-!
# Applying the reordered bplog

`process_this_session` (`osqlblockproc.c`) applies a transaction's bplog: it
reads the main temp table with one cursor and, with reordering on, the insert
table `db_ins` with a second, and hands each row's data to `osql_process_packet`.
The rows of the insert table are drained into the main scan by
`get_next_merge_tmps`: an insert row goes before a main row of a later table,
or of the same table in a stripe after `add_stripe`, the stripe the adds go to
(`ins_is_less`).

*The loop and the merge.*  The loop with its drain flag (`mergeLoop`) applies,
whatever the apply function does, the rows of one list in order, stopping at
the first answer other than 0 (`processThisSession_eq_applyRows`).  That list
is the first main row, then the two tables merged as `Merge.mergeLeft` merges
(`replayRows`).

*Keys against the merge.*  Whether an insert row goes before a main row
compares the insert row's table, with `add_stripe` after it, against the main
row's table and stripe read as one number (`insIsLess_some_iff`); the main
comparator orders rows by that number first, and the insert comparator by the
table first, so the merge's ordering conditions hold of the scans.

*Tags.*  Besides its entry, a row tells the replay its table index and
whether its genid is 0; over a produced stream these are the table of the
request's segment and whether the request is an `OSQL_USEDB`
(`tags_intendedRows`).

`replayRows_reorder` puts these together for a produced stream closed by its
`OSQL_DONE`: every request is applied once, the `OSQL_DONE` last, and each row
request is applied while the last `OSQL_USEDB` applied names its own table.
-/

namespace Osql

open Temptable Bdb

/-! ## The loop of `process_this_session` -/

section Loop

/-- `OSQL_RC_DONE`, what `osql_process_packet` answers on the `OSQL_DONE` that
ends a transaction. -/
def osqlRcDone : ℤ := 0x7117

/-- `ins_is_less(opkey_ins, opkey, add_stripe)`: whether the row of the insert
cursor goes before the row of the main cursor; never once the insert cursor is
past its end (`opkey_ins` NULL). -/
def insIsLess (opkeyIns : Option OplogKey) (opkey : OplogKey) (addStripe : UInt8) : Bool :=
  match opkeyIns with
  | none => false
  | some k => decide (k.tblIdx.toNat < opkey.tblIdx.toNat) ||
      (k.tblIdx == opkey.tblIdx && decide (addStripe.toNat < opkey.stripe.toNat))

theorem ne_nil_of_insIsLess {l : List ArrElem} {k : OplogKey} {a : UInt8}
    (h : insIsLess (l.head?.map fun x => OplogKey.ofBytes x.key) k a = true) : l ≠ [] := by
  rintro rfl
  simp [insIsLess] at h

/-- The two cursors: the main one on `cur`, with the rows after it `rest`; the
insert one on the head of `ins`, past its end when `ins` is empty; and
`drain_adds`, set only while the insert cursor is on a row. -/
structure MergeCursors where
  cur : ArrElem
  rest : List ArrElem
  ins : List ArrElem
  drainAdds : Bool
  drain_ins : drainAdds = true → ins ≠ []

/-- The row whose data `get_tmptbl_data_and_len` reads. -/
def MergeCursors.row (c : MergeCursors) : ArrElem :=
  if h : c.drainAdds then c.ins.head (c.drain_ins h) else c.cur

/-- The rows the cursors have left to read, counted twice, and once more while
draining: each move lowers it. -/
def MergeCursors.left (c : MergeCursors) : ℕ :=
  2 * (c.rest.length + c.ins.length) + if c.drainAdds then 1 else 0

/-- `get_next_merge_tmps`: move the cursor that was read, and decide which one
is read next; `none` when the main cursor runs past its end (`IX_PASTEOF`). -/
def getNextMergeTmps (addStripe : UInt8) (c : MergeCursors) : Option MergeCursors :=
  if c.drainAdds then
    match c.ins.tail with
    -- the insert table has no more rows: `opkey_ins` becomes NULL
    | [] => some ⟨c.cur, c.rest, [], false, nofun⟩
    | x :: xs => some ⟨c.cur, c.rest, x :: xs,
        insIsLess (some (OplogKey.ofBytes x.key)) (OplogKey.ofBytes c.cur.key) addStripe,
        fun _ => List.cons_ne_nil x xs⟩
  else
    match c.rest with
    | [] => none
    | m :: ms => some ⟨m, ms, c.ins,
        insIsLess (c.ins.head?.map fun x => OplogKey.ofBytes x.key) (OplogKey.ofBytes m.key) addStripe,
        ne_nil_of_insIsLess⟩

theorem getNextMergeTmps_left {a : UInt8} {c c' : MergeCursors} (h : getNextMergeTmps a c = some c') :
    c'.left < c.left := by
  unfold getNextMergeTmps at h
  split_ifs at h with hd
  · split at h <;> cases h <;> rename_i hx
    · -- the last insert row was read
      cases hi : c.ins with
      | nil => simp [MergeCursors.left, hd, hi]
      | cons x xs => simp [MergeCursors.left, hd, hi]
    · cases hi : c.ins with
      | nil => simp [hi] at hx
      | cons x₀ xs₀ =>
        simp only [hi, List.tail_cons] at hx
        simp only [MergeCursors.left, hd, hi, hx, List.length_cons]
        split <;> omega
  · split at h
    · cases h
    · cases h
      rename_i hr
      simp only [MergeCursors.left, hd, hr, List.length_cons]
      split <;> omega

/-- The loop of `process_this_session` from the cursors `c`: apply the row they
read; stop on an answer other than 0, else move the cursors, and stop when the
main one runs out. -/
def mergeLoop {σ : Type*} (func : σ → List UInt8 → ℤ × σ) (addStripe : UInt8) (c : MergeCursors)
    (st : σ) : ℤ × σ :=
  let r := func st c.row.dta
  if r.1 = 0 then
    match _h : getNextMergeTmps addStripe c with
    | some c' => mergeLoop func addStripe c' r.2
    | none => r
  else r
termination_by c.left
decreasing_by exact getNextMergeTmps_left _h

/-- An `OSQL_RC_DONE` ends the session with 0. -/
def sessionResult {σ : Type*} (r : ℤ × σ) : ℤ × σ := (if r.1 = osqlRcDone then 0 else r.1, r.2)

/-- `process_this_session` over the rows of the main table and of the insert
table, `func` applying a row's data (`osql_process_packet`) and `addStripe` the
stripe the adds go to.  Left out: the `ERR_NOMASTER` return when
`bdb_lock_desired` asks the session to close before the next row is applied;
the cursor errors of the temp tables (`bdb_temp_table_first` or
`get_next_merge_tmps` failing, then the `ERR_INTERNAL` of a failed
`bdb_temp_table_next`), which the scans of `Temptable` do not have; and the
`*nops += receivedrows` on `OSQL_RC_DONE`.  A main table with no row is not
modelled either: the C loop then reads the data of a cursor on no row. -/
def processThisSession {σ : Type*} (func : σ → List UInt8 → ℤ × σ) (addStripe : UInt8)
    (main ins : List ArrElem) (st : σ) : ℤ × σ :=
  match main with
  | [] => (0, st)
  | m :: ms => sessionResult (mergeLoop func addStripe ⟨m, ms, ins, false, nofun⟩ st)

end Loop

/-! ## The order it applies rows in -/

section Order

variable {σ : Type*}

/-- Apply rows one after another until one answers other than 0. -/
def applyRows (func : σ → List UInt8 → ℤ × σ) : σ → List ArrElem → ℤ × σ
  | st, [] => (0, st)
  | st, x :: xs =>
    let r := func st x.dta
    if r.1 = 0 then applyRows func r.2 xs else r

/-- Whether the insert row `x` goes before the main row `m`. -/
def insBefore (addStripe : UInt8) (x m : ArrElem) : Bool :=
  insIsLess (some (OplogKey.ofBytes x.key)) (OplogKey.ofBytes m.key) addStripe

/-- The main rows merged with the insert rows, until the main rows run out. -/
def mergeRows (addStripe : UInt8) (main ins : List ArrElem) : List ArrElem :=
  (Merge.mergeLeft (insBefore addStripe) main ins).map (Sum.elim id id)

/-- The rows `process_this_session` applies, in order: the first main row, then
the other main rows merged with the insert rows. -/
def replayRows (addStripe : UInt8) : List ArrElem → List ArrElem → List ArrElem
  | [], _ => []
  | m :: ms, ins => m :: mergeRows addStripe ms ins

variable {a : UInt8}

@[simp] theorem mergeRows_nil_left (ins : List ArrElem) : mergeRows a [] ins = [] := by
  simp [mergeRows]

@[simp] theorem mergeRows_nil_right (main : List ArrElem) : mergeRows a main [] = main := by
  simp [mergeRows, Function.comp_def]

theorem mergeRows_cons_cons (m : ArrElem) (ms : List ArrElem) (x : ArrElem) (xs : List ArrElem) :
    mergeRows a (m :: ms) (x :: xs) =
      if insBefore a x m then x :: mergeRows a (m :: ms) xs else m :: mergeRows a ms (x :: xs) := by
  unfold mergeRows
  rw [Merge.mergeLeft_cons_cons]
  split <;> rfl

/-- The rows left to apply from the cursors `c`, the one they read first. -/
def MergeCursors.toRead (a : UInt8) (c : MergeCursors) : List ArrElem :=
  c.row :: if c.drainAdds then mergeRows a (c.cur :: c.rest) c.ins.tail else mergeRows a c.rest c.ins

/-- A move of the cursors goes on to the next row left. -/
theorem toRead_getNextMergeTmps {c c' : MergeCursors} (h : getNextMergeTmps a c = some c') :
    c'.toRead a = (c.toRead a).tail := by
  obtain ⟨cur, rest, ins, d, hd⟩ := c
  unfold getNextMergeTmps at h
  cases d with
  | true =>
    -- draining: the insert cursor moves on
    obtain ⟨x, xs, rfl⟩ := List.exists_cons_of_ne_nil (hd rfl)
    cases xs with
    | nil =>
      cases h
      simp [MergeCursors.toRead, MergeCursors.row]
    | cons x' xs =>
      cases h
      by_cases hb : insBefore a x' cur
      · have hb' : insIsLess (some (OplogKey.ofBytes x'.key)) (OplogKey.ofBytes cur.key) a = true := hb
        simp [MergeCursors.toRead, MergeCursors.row, hb', mergeRows_cons_cons, hb]
      · have hb' : insIsLess (some (OplogKey.ofBytes x'.key)) (OplogKey.ofBytes cur.key) a = false := by
          simpa [insBefore] using hb
        simp [MergeCursors.toRead, MergeCursors.row, hb', mergeRows_cons_cons, hb]
  | false =>
    -- reading the main table: the main cursor moves on
    cases rest with
    | nil => cases h
    | cons m ms =>
      cases h
      cases ins with
      | nil => simp [MergeCursors.toRead, MergeCursors.row, insIsLess]
      | cons x xs =>
        by_cases hb : insBefore a x m
        · have hb' : insIsLess (some (OplogKey.ofBytes x.key)) (OplogKey.ofBytes m.key) a = true := hb
          simp [MergeCursors.toRead, MergeCursors.row, hb', mergeRows_cons_cons, hb]
        · have hb' : insIsLess (some (OplogKey.ofBytes x.key)) (OplogKey.ofBytes m.key) a = false := by
            simpa [insBefore] using hb
          simp [MergeCursors.toRead, MergeCursors.row, hb', mergeRows_cons_cons, hb]

/-- The main cursor runs out only on the last row left. -/
theorem toRead_of_getNextMergeTmps_none {c : MergeCursors} (h : getNextMergeTmps a c = none) :
    (c.toRead a).tail = [] := by
  obtain ⟨cur, rest, ins, d, hd⟩ := c
  unfold getNextMergeTmps at h
  cases d with
  | true =>
    simp only [↓reduceIte] at h
    split at h <;> simp at h
  | false =>
    cases rest with
    | nil => simp [MergeCursors.toRead]
    | cons m ms => cases h

/-- The loop applies the rows left, in order, until one answers other than 0. -/
theorem mergeLoop_eq (func : σ → List UInt8 → ℤ × σ) (c : MergeCursors) (st : σ) :
    mergeLoop func a c st = applyRows func st (c.toRead a) := by
  fun_induction mergeLoop func a c st with
  | case1 c st r hr c' hc ih =>
    rw [ih, toRead_getNextMergeTmps hc, MergeCursors.toRead, List.tail_cons, applyRows]
    simp [r, hr]
  | case2 c st r hr hc =>
    have htail := toRead_of_getNextMergeTmps_none hc
    rw [MergeCursors.toRead, List.tail_cons] at htail
    rw [MergeCursors.toRead, htail, applyRows]
    simp only [applyRows]
    -- the last row answered 0: so does the session
    rw [if_pos hr]
    exact Prod.ext hr rfl
  | case3 c st r hr =>
    rw [MergeCursors.toRead, applyRows]
    simp [r, hr]

/-- `process_this_session` applies, whatever the apply function does, the rows
of `replayRows` one after another, until one answers other than 0. -/
theorem processThisSession_eq_applyRows (func : σ → List UInt8 → ℤ × σ) (addStripe : UInt8)
    (main ins : List ArrElem) (st : σ) :
    processThisSession func addStripe main ins st =
      sessionResult (applyRows func st (replayRows addStripe main ins)) := by
  cases main with
  | nil => simp [processThisSession, replayRows, applyRows, sessionResult, osqlRcDone]
  | cons m ms =>
    rw [processThisSession, mergeLoop_eq]
    rfl

/-- With no insert table the replay is the main table's scan. -/
@[simp] theorem replayRows_nil_right (main : List ArrElem) : replayRows a main [] = main := by
  cases main <;> simp [replayRows]

/-- When no insert row goes before the first main row, the loop's read of it,
made without asking, is the merge's. -/
theorem replayRows_eq_mergeRows {ins : List ArrElem} {m : ArrElem} (h : ∀ y ∈ ins, insBefore a y m = false)
    (ms : List ArrElem) : replayRows a (m :: ms) ins = mergeRows a (m :: ms) ins := by
  simp only [replayRows, mergeRows, Merge.mergeLeft_cons_of_not_before _ h, List.map_cons]
  rfl

/-- When every insert row goes before the last main row, the merge takes every
row of both tables... -/
theorem perm_mergeRows {main ins : List ArrElem} {d : ArrElem} (hd : main.getLast? = some d)
    (h : ∀ y ∈ ins, insBefore a y d = true) : (mergeRows a main ins).Perm (main ++ ins) := by
  have hp := Merge.perm_map_elim (Merge.mergeLeft (insBefore a) main ins)
  rwa [Merge.lefts_mergeLeft, Merge.rights_mergeLeft _ hd h] at hp

/-- ... and ends with that last main row. -/
theorem getLast?_mergeRows {main ins : List ArrElem} {d : ArrElem} (hd : main.getLast? = some d)
    (h : ∀ y ∈ ins, insBefore a y d = true) : (mergeRows a main ins).getLast? = some d := by
  rw [mergeRows, List.getLast?_map, Merge.getLast?_mergeLeft _ hd h]
  rfl

end Order

/-! ## Keys against the merge -/

section KeyOrder

variable {gk : Genid → ℕ} {w : ℕ}

/-- A key's table and stripe as one number: the leading digits of its rank. -/
def OplogKey.tblStripe (k : OplogKey) : ℕ := k.tblIdx.toNat * 2 ^ 8 + k.stripe.toNat

/-- An insert row goes before a main row when its table, with `add_stripe` as
its stripe, is below the main row's table and stripe. -/
theorem insIsLess_some_iff (k m : OplogKey) (a : UInt8) :
    insIsLess (some k) m a = true ↔ k.tblIdx.toNat * 2 ^ 8 + a.toNat < m.tblStripe := by
  have ha := a.toNat_lt
  have hs := m.stripe.toNat_lt
  simp only [insIsLess, OplogKey.tblStripe, Bool.or_eq_true, decide_eq_true_eq, Bool.and_eq_true,
    beq_iff_eq, ← UInt16.toNat_inj]
  omega

theorem tblStripe_le_of_rankBy_le (hgk : ∀ g, gk g < 2 ^ w) {k k' : OplogKey}
    (h : k.rankBy gk w ≤ k'.rankBy gk w) : k.tblStripe ≤ k'.tblStripe := by
  rw [OplogKey.rankBy_eq, OplogKey.rankBy_eq] at h
  have h₁ := Qsort.le_of_mul_add_le k'.seq.toNat_lt h
  unfold OplogKey.groupBy at h₁
  exact Qsort.le_of_mul_add_le (hgk _) (Qsort.le_of_mul_add_le k'.isRec.toNat_lt h₁)

theorem tblIdx_le_of_tblStripe_le {k k' : OplogKey} (h : k.tblStripe ≤ k'.tblStripe) :
    k.tblIdx.toNat ≤ k'.tblIdx.toNat := by
  have := k.stripe.toNat_lt
  have := k'.stripe.toNat_lt
  unfold OplogKey.tblStripe at h
  omega

end KeyOrder

/-! ## The last `OSQL_USEDB` before a row -/

section Context

variable {a : UInt8} {M N : List ArrElem} {isU : ArrElem → Bool}

/-- Going before a main row grows along a main table in key order. -/
theorem insBefore_mono (hM : M.Pairwise fun x y =>
    (OplogKey.ofBytes x.key).rankMain < (OplogKey.ofBytes y.key).rankMain) (y : ArrElem) :
    M.Pairwise fun p q => insBefore a y p = true → insBefore a y q = true :=
  hM.imp fun h hp => by
    have := @tblStripe_le_of_rankBy_le genidKey 60 genidKey_lt _ _ h.le
    rw [insBefore, insIsLess_some_iff] at hp ⊢
    omega

/-- An insert row goes before no main row that an earlier one, in key order,
does not. -/
theorem insBefore_anti (hN : N.Pairwise fun x y =>
    (OplogKey.ofBytes x.key).rankIns < (OplogKey.ofBytes y.key).rankIns) (M : List ArrElem) :
    N.Pairwise fun y y' => ∀ x ∈ M, insBefore a y' x = true → insBefore a y x = true :=
  hN.imp fun h x _ hx => by
    have hle := tblIdx_le_of_tblStripe_le (@tblStripe_le_of_rankBy_le UInt64.toNat 64 UInt64.toNat_lt _ _ h.le)
    rw [insBefore, insIsLess_some_iff] at hx ⊢
    exact lt_of_le_of_lt (Nat.add_le_add_right (Nat.mul_le_mul_right _ hle) _) hx

/-- In rows sorted by key, holding an `OSQL_USEDB` row `u` and none of a later
table, the last `OSQL_USEDB` row is of the table of `u`. -/
theorem last_usedb_of_sorted {P : List ArrElem}
    (hP : P.Pairwise fun x y => (OplogKey.ofBytes x.key).rankMain < (OplogKey.ofBytes y.key).rankMain)
    {u : ArrElem} (hu : u ∈ P) (hUu : isU u = true)
    (hle : ∀ v ∈ P, isU v = true → (OplogKey.ofBytes v.key).tblIdx.toNat ≤ (OplogKey.ofBytes u.key).tblIdx.toNat) :
    ∃ v ∈ (P.filter isU).getLast?, (OplogKey.ofBytes v.key).tblIdx = (OplogKey.ofBytes u.key).tblIdx := by
  have hs : (P.filter isU).Pairwise fun x y =>
      (OplogKey.ofBytes x.key).tblIdx.toNat ≤ (OplogKey.ofBytes y.key).tblIdx.toNat :=
    (hP.filter isU).imp fun h => tblIdx_le_of_tblStripe_le (@tblStripe_le_of_rankBy_le genidKey 60 genidKey_lt _ _ h.le)
  obtain ⟨v, hv, hvu⟩ := Merge.exists_getLast?_eq_of_pairwise hs (List.mem_filter.2 ⟨hu, hUu⟩)
    fun v hv => hle v (List.mem_filter.1 hv).1 (List.mem_filter.1 hv).2
  exact ⟨v, hv, UInt16.toNat_inj.1 hvu⟩

variable (hM : M.Pairwise fun x y => (OplogKey.ofBytes x.key).rankMain < (OplogKey.ofBytes y.key).rankMain)
  (hN : N.Pairwise fun x y => (OplogKey.ofBytes x.key).rankIns < (OplogKey.ofBytes y.key).rankIns)
  (hNU : ∀ y ∈ N, isU y = false)
  (hU : ∀ u ∈ M, isU u = true → (OplogKey.ofBytes u.key).stripe = 0 ∧
    ∀ z ∈ M, isU z = false → (OplogKey.ofBytes u.key).tblIdx = (OplogKey.ofBytes z.key).tblIdx →
      (OplogKey.ofBytes u.key).rankMain < (OplogKey.ofBytes z.key).rankMain)
include hM hN hNU hU

/-- A row of the merge that is no `OSQL_USEDB`, with an `OSQL_USEDB` row of its
table in the main table, comes after the `OSQL_USEDB` rows of its table and
before those of later tables: the last one before it is of its table. -/
theorem last_usedb_of_mergeRows {A B : List ArrElem} {z : ArrElem} (h : mergeRows a M N = A ++ z :: B)
    (hz : isU z = false) {u : ArrElem} (hu : u ∈ M) (hUu : isU u = true)
    (htu : (OplogKey.ofBytes u.key).tblIdx = (OplogKey.ofBytes z.key).tblIdx) :
    ∃ v ∈ (A.filter isU).getLast?, (OplogKey.ofBytes v.key).tblIdx = (OplogKey.ofBytes z.key).tblIdx := by
  obtain ⟨A', W, hT, rfl, hW⟩ := List.map_eq_append_iff.1 h
  obtain ⟨w, B', rfl, hw, rfl⟩ := List.map_eq_cons_iff.1 hW
  -- the `OSQL_USEDB` rows before `z` are main rows
  have hA : (A'.map (Sum.elim id id)).filter isU = (A'.filterMap Sum.getLeft?).filter isU :=
    Merge.filter_map_elim fun y hy =>
      hNU y (Merge.mem_of_inr_mem _ (hT ▸ List.mem_append_left _ hy))
  rw [hA, ← htu]
  obtain ⟨hu0, hurank⟩ := hU u hu hUu
  cases w with
  | inl z' =>
    -- a main row: the main rows before it are those of lower rank
    have hz' : z' = z := hw
    subst z'
    have hl := Merge.lefts_mergeLeft (insBefore a) M N
    rw [hT, List.filterMap_append, List.filterMap_cons] at hl
    simp only [Sum.getLeft?_inl] at hl
    rw [← hl] at hM hu
    have hPz : ∀ v ∈ A'.filterMap Sum.getLeft?, (OplogKey.ofBytes v.key).rankMain <
        (OplogKey.ofBytes z.key).rankMain :=
      fun v hv => (List.pairwise_append.1 hM).2.2 v hv z List.mem_cons_self
    have huP : u ∈ A'.filterMap Sum.getLeft? := by
      rcases List.mem_append.1 hu with hu | hu
      · exact hu
      · rcases List.mem_cons.1 hu with rfl | hu
        · rw [hUu] at hz
          cases hz
        · -- the `OSQL_USEDB` row of a table sorts before its other rows
          have h₁ := hurank z (by rw [← hl]; simp) hz htu
          have h₂ := List.rel_of_pairwise_cons (List.pairwise_append.1 hM).2.1 hu
          omega
    refine last_usedb_of_sorted (List.pairwise_append.1 hM).1 huP hUu fun v hv _ => ?_
    rw [htu]
    exact tblIdx_le_of_tblStripe_le (@tblStripe_le_of_rankBy_le genidKey 60 genidKey_lt _ _ (hPz v hv).le)
  | inr z' =>
    -- an insert row: the main rows before it are those it does not go before
    have hz' : z' = z := hw
    subst z'
    obtain ⟨P, Q, hMPQ, hP, hPb, hQb⟩ :=
      Merge.exists_of_mergeLeft_eq_inr (fun y _ => insBefore_mono hM y) (insBefore_anti hN M) hT
    rw [hP]
    subst hMPQ
    have huP : u ∈ P := by
      rcases List.mem_append.1 hu with hu | hu
      · exact hu
      · have hb := hQb u hu
        rw [insBefore, insIsLess_some_iff, OplogKey.tblStripe, hu0, htu] at hb
        simp at hb
    refine last_usedb_of_sorted (List.pairwise_append.1 hM).1 huP hUu fun v hv _ => ?_
    have hb := hPb v hv
    have hs := (OplogKey.ofBytes v.key).stripe.toNat_lt
    have ha := a.toNat_lt
    rw [insBefore, ← Bool.not_eq_true, insIsLess_some_iff, OplogKey.tblStripe] at hb
    rw [htu]
    omega

end Context

/-! ## What a row tells the replay -/

section Tags

variable {env : Env}

/-- The requests of a stream, each with the table index its segment's
`OSQL_USEDB` sets. -/
def tabled (env : Env) (segs : List Segment) : List (Op × UInt16) :=
  segs.flatMap fun s => s.ops.map fun op => (op, s.tblIdx env)

/-- The table index each request of a stream is sent under. -/
def reqTables (env : Env) (segs : List Segment) : List UInt16 := (tabled env segs).map Prod.snd

/-- Whether the request of arrival number `j` is an `OSQL_USEDB`. -/
def isUsedbAt (ops : List Op) (j : ℕ) : Bool := (ops[j]?.map Op.type) == some .usedb

theorem map_fst_tabled (segs : List Segment) : (tabled env segs).map Prod.fst = stream segs := by
  simp [tabled, stream, List.map_flatMap, Function.comp_def]

/-- What the replay reads of a row besides its payload: its arrival number, the
table index of its key, and whether its genid is 0. -/
def rowTag (x : ArrElem) : ℕ × UInt16 × Bool :=
  ((OplogKey.ofBytes x.key).seq.toNat, (OplogKey.ofBytes x.key).tblIdx, (OplogKey.ofBytes x.key).genid == 0)

/-- The same of requests with their tables from arrival number `j` on, the
number cut to 32 bits: whether the request is an `OSQL_USEDB`. -/
def reqTags (l : List (Op × UInt16)) (j : ℕ) : List (ℕ × UInt16 × Bool) :=
  (l.zipIdx j).map fun p => (p.2 % 2 ^ 32, p.1.2, p.1.1.type == .usedb)

/-- The tags of the rows `I` says. -/
def Intended.tags (I : Intended) : List (ℕ × UInt16 × Bool) := (I.main ++ I.ins).map rowTag

@[simp] theorem rowTag_mk (k : OplogKey) (rpl : List UInt8) :
    rowTag ⟨k.bytes, rpl⟩ = (k.seq.toNat, k.tblIdx, k.genid == 0) := by
  simp [rowTag]

theorem reqTags_append (l₁ l₂ : List (Op × UInt16)) (j : ℕ) :
    reqTags (l₁ ++ l₂) j = reqTags l₁ j ++ reqTags l₂ (j + l₁.length) := by
  simp [reqTags, List.zipIdx_append]

theorem usedb_beq_of_isDependent {ty : OsqlType} (h : isDependent ty = true) : (ty == .usedb) = false := by
  cases ty <;> simp_all [isDependent]

theorem map_rowTag_depRows (t : UInt16) {g : Genid} (hg : g ≠ 0) :
    ∀ (j : ℕ) (ds : List Op), (∀ d ∈ ds, isDependent d.type = true) →
      (depRows t g j ds).map rowTag = reqTags (ds.map (·, t)) j
  | _, [], _ => rfl
  | j, d :: ds, hd => by
    have hd₀ := usedb_beq_of_isDependent (hd d List.mem_cons_self)
    rw [depRows, List.map_cons,
      map_rowTag_depRows t hg (j + 1) ds fun d' h => hd d' (List.mem_cons_of_mem d h)]
    simp [reqTags, blockKey, UInt32.toNat_ofNat', hg, hd₀]

/-- A block's rows tell its requests' arrival numbers and table, none of them
an `OSQL_USEDB`, when its genid is not 0. -/
theorem map_rowTag_rows {b : Block} (hb : b.Shape) {t : UInt16} {n : ℕ} (hg : b.genid n ≠ 0) (j : ℕ) :
    (b.rows t n j).map rowTag = reqTags (b.ops.map (·, t)) j := by
  have hr : (b.record.type == .usedb) = false := by rcases hb.record with h | h <;> simp [h]
  rw [Block.rows, List.map_cons, map_rowTag_depRows t hg _ _ hb.deps]
  simp [reqTags, Block.ops, blockKey, UInt32.toNat_ofNat', hg, hr]

theorem Intended.tags_block (t : UInt16) (I : Intended) {b : Block} (hb : b.Shape)
    (hg : b.genid I.insSeq ≠ 0) :
    (I.block t b).tags.Perm (I.tags ++ reqTags (b.ops.map (·, t)) I.seq) := by
  unfold Intended.block Intended.tags
  split_ifs
  · simp [map_rowTag_rows hb hg]
  · simp only [List.map_append, map_rowTag_rows hb hg, List.append_assoc]
    exact List.perm_append_comm.append_left _

/-- A block's genid is not 0: an insert counter below `2 ^ 64`, or the genid of
a stored row. -/
theorem Block.genid_ne_zero {b : Block} (hb : b.Shape) {n : ℕ} (hn : n + 1 < 2 ^ 64)
    (hupd : b.record.type = .updrec → genidFromRpl b.record.rpl ≠ 0) : b.genid n ≠ 0 := by
  unfold Block.genid
  split_ifs with h
  · intro h0
    have := congrArg UInt64.toNat h0
    rw [UInt64.toNat_ofNat', Nat.mod_eq_of_lt hn] at this
    simp at this
  · exact hupd (hb.not_insrec.1 h)

theorem Intended.tags_foldl_block (t : UInt16) :
    ∀ (bs : List Block) (I : Intended), I.Counted → I.seq + (bs.flatMap Block.ops).length < 2 ^ 64 →
      (∀ b ∈ bs, b.Shape ∧ (b.record.type = .updrec → genidFromRpl b.record.rpl ≠ 0)) →
      (bs.foldl (Intended.block t) I).tags.Perm
        (I.tags ++ reqTags ((bs.flatMap Block.ops).map (·, t)) I.seq)
  | [], I, _, _, _ => by simp [reqTags]
  | b :: bs, I, hc, hlen, hb => by
    obtain ⟨hbs, hbu⟩ := hb b List.mem_cons_self
    have hlen' : I.seq + b.ops.length + (bs.flatMap Block.ops).length < 2 ^ 64 := by
      simpa [List.flatMap_cons, Nat.add_assoc] using hlen
    have hpos : 0 < b.ops.length := by simp [Block.ops]
    have hg : b.genid I.insSeq ≠ 0 := Block.genid_ne_zero hbs (by have := hc.le; omega) hbu
    rw [List.foldl_cons, List.flatMap_cons, List.map_append, reqTags_append, ← List.append_assoc,
      List.length_map, ← Intended.seq_block]
    refine (Intended.tags_foldl_block t bs _ (hc.block t b) ?_ fun b' h => hb b' (List.mem_cons_of_mem b h)).trans
      ((Intended.tags_block t I hbs hg).append_right _)
    rw [Intended.seq_block]
    exact hlen'

/-- A stream's rows tell each request's arrival number, its segment's table,
and whether it is an `OSQL_USEDB`. -/
theorem Intended.tags_foldl_segment :
    ∀ (segs : List Segment) (I : Intended), I.Counted → I.seq + (stream segs).length < 2 ^ 64 →
      (∀ s ∈ segs, s.Shape env ∧ ∀ b ∈ s.blocks, b.record.type = .updrec → genidFromRpl b.record.rpl ≠ 0) →
      (segs.foldl (Intended.segment env) I).tags.Perm (I.tags ++ reqTags (tabled env segs) I.seq)
  | [], I, _, _, _ => by simp [reqTags, tabled]
  | s :: segs, I, hc, hlen, hs => by
    obtain ⟨hsh, hsu⟩ := hs s List.mem_cons_self
    have huse : (I.useTable env s).tags.Perm (I.tags ++ reqTags [(s.usedb, s.tblIdx env)] I.seq) := by
      simp only [Intended.useTable, Intended.tags, List.map_append, List.append_assoc]
      refine List.perm_append_comm.append_left _ |>.trans ?_
      simp [reqTags, usedbKey, UInt32.toNat_ofNat', hsh.usedb]
    have hcu : (I.useTable env s).Counted :=
      ⟨hc.tags, by have := hc.le; simp only [Intended.useTable]; omega⟩
    have hlen' : I.seq + 1 + (s.blocks.flatMap Block.ops).length + (stream segs).length < 2 ^ 64 := by
      simpa [stream, Segment.ops, Nat.add_assoc, Nat.add_comm 1] using hlen
    have hseg := (Intended.tags_foldl_block (s.tblIdx env) s.blocks (I.useTable env s) hcu
      (by simp only [Intended.useTable]; omega) fun b hb => ⟨hsh.blocks b hb, hsu b hb⟩).trans
      (huse.append_right _)
    have hseq : (I.useTable env s).seq = I.seq + 1 := rfl
    -- the segment's requests are its `OSQL_USEDB`, its blocks, then the rest
    have hlist : reqTags (tabled env (s :: segs)) I.seq = reqTags [(s.usedb, s.tblIdx env)] I.seq ++
        reqTags ((s.blocks.flatMap Block.ops).map (·, s.tblIdx env)) (I.seq + 1) ++
        reqTags (tabled env segs) (I.seq + 1 + (s.blocks.flatMap Block.ops).length) := by
      rw [show tabled env (s :: segs) = [(s.usedb, s.tblIdx env)] ++
          (s.blocks.flatMap Block.ops).map (·, s.tblIdx env) ++ tabled env segs by
        simp [tabled, Segment.ops], reqTags_append, reqTags_append]
      simp only [List.length_append, List.length_singleton, List.length_map, Nat.add_assoc]
    rw [List.foldl_cons]
    refine (Intended.tags_foldl_segment segs _ (Intended.Counted.foldl_block _ s.blocks hcu) ?_
      fun s' h => hs s' (List.mem_cons_of_mem s h)).trans ?_
    · rw [Intended.seq_foldl_block, hseq]
      omega
    · rw [Intended.seq_foldl_block, hseq, hlist]
      rw [hseq] at hseg
      simpa only [List.append_assoc] using hseg.append_right _

/-- Over a produced stream, the rows tell each request's arrival number, its
segment's table, and whether it is an `OSQL_USEDB`. -/
theorem tags_intendedRows {segs : List Segment} (hp : Produced env segs) :
    (intendedRows env segs).tags.Perm (reqTags (tabled env segs) 0) := by
  have hupd : ∀ s ∈ segs, s.Shape env ∧
      ∀ b ∈ s.blocks, b.record.type = .updrec → genidFromRpl b.record.rpl ≠ 0 := by
    intro s hs
    refine ⟨hp.shape s hs, fun b hb hu => (hp.stored (s.tblIdx env, genidFromRpl b.record.rpl) ?_).1⟩
    simp only [updatedRows, List.mem_flatMap, List.mem_map, List.mem_filter]
    exact ⟨s, hs, b, ⟨hb, by simp [hu]⟩, rfl⟩
  have h : (intendedRows env segs).tags.Perm (Intended.empty.tags ++ reqTags (tabled env segs) 0) :=
    Intended.tags_foldl_segment segs _ ⟨rfl, le_refl _⟩ (by have := hp.short; show 0 + (stream segs).length < 2 ^ 64; omega) hupd
  simpa [Intended.tags, Intended.empty] using h

/-- A tag of a stream names a request: its arrival number, its table, and
whether it is an `OSQL_USEDB`. -/
theorem mem_reqTags_tabled {segs : List Segment} (hlen : (stream segs).length < 2 ^ 32) {j : ℕ}
    {t : UInt16} {u : Bool} (h : (j, t, u) ∈ reqTags (tabled env segs) 0) :
    j < (stream segs).length ∧ (reqTables env segs)[j]? = some t ∧ isUsedbAt (stream segs) j = u := by
  obtain ⟨p, hp, heq⟩ := List.mem_map.1 h
  have hlen' : (tabled env segs).length = (stream segs).length := by
    rw [← map_fst_tabled, List.length_map]
  have hlt : p.2 < (tabled env segs).length := by simpa using List.snd_lt_of_mem_zipIdx hp
  have hget : (tabled env segs)[p.2]? = some p.1 := List.mem_zipIdx_iff_getElem?.1 hp
  simp only [Prod.mk.injEq] at heq
  obtain ⟨hj, rfl, rfl⟩ := heq
  rw [Nat.mod_eq_of_lt (by omega)] at hj
  subst hj
  have hop : (stream segs)[p.2]? = some p.1.1 := by
    rw [← map_fst_tabled, List.getElem?_map, hget]
    rfl
  refine ⟨by omega, by simp [reqTables, hget], ?_⟩
  simp [isUsedbAt, hop]

theorem mem_reqTags_of_getElem? {segs : List Segment} {j : ℕ} {q : Op × UInt16}
    (h : (tabled env segs)[j]? = some q) : (j % 2 ^ 32, q.2, q.1.type == .usedb) ∈ reqTags (tabled env segs) 0 :=
  List.mem_map.2 ⟨(q, j), List.mem_zipIdx_iff_getElem?.2 h, rfl⟩

/-- Every table a request is sent under is set by an `OSQL_USEDB` of the
stream. -/
theorem exists_usedb_of_tabled {segs : List Segment} (hs : ∀ s ∈ segs, s.Shape env) :
    ∀ {j : ℕ} {q : Op × UInt16}, (tabled env segs)[j]? = some q →
      ∃ (j₀ : ℕ) (op : Op), (tabled env segs)[j₀]? = some (op, q.2) ∧ op.type = .usedb := by
  induction segs with
  | nil => intro j q h; simp [tabled] at h
  | cons s segs ih =>
    intro j q h
    have htab : tabled env (s :: segs) = s.ops.map (·, s.tblIdx env) ++ tabled env segs := by
      simp [tabled]
    rw [htab] at h ⊢
    by_cases hj : j < s.ops.length
    · -- a request of the first segment, whose `OSQL_USEDB` comes first
      rw [List.getElem?_append_left (by simpa using hj)] at h
      obtain ⟨op, -, rfl⟩ : ∃ op, s.ops[j]? = some op ∧ (op, s.tblIdx env) = q := by simpa using h
      exact ⟨0, s.usedb, by simp [Segment.ops], (hs s List.mem_cons_self).usedb⟩
    · rw [List.getElem?_append_right (by simpa using hj)] at h
      obtain ⟨j₀, op, h₀, hop⟩ := ih (fun s' h => hs s' (List.mem_cons_of_mem s h)) h
      refine ⟨s.ops.length + j₀, op, ?_, hop⟩
      rw [List.getElem?_append_right (by simp)]
      simpa using h₀

/-- No request is sent under the table `USHRT_MAX`. -/
theorem ne_ushrtMax_of_tabled {segs : List Segment} (hs : ∀ s ∈ segs, s.Shape env) {j : ℕ}
    {q : Op × UInt16} (h : (tabled env segs)[j]? = some q) : q.2 ≠ ushrtMax := by
  obtain ⟨s, hs', op, -, rfl⟩ : ∃ s ∈ segs, ∃ op ∈ s.ops, (op, s.tblIdx env) = q := by
    simpa [tabled] using List.mem_of_getElem? h
  exact (hs s hs').tblIdx

end Tags

/-! ## The `OSQL_DONE` -/

section Done

variable {env : Env}

/-- An `OSQL_DONE` keeps the table `USHRT_MAX` and is saved in the main table. -/
theorem osqlBplogSaveop_done {tran : Tran} {op : Op} (hre : tran.isReorderOn = true)
    (ht : op.type = .done) :
    osqlBplogSaveop env tran op =
      (0, { tran with
        lastIsIns := false
        db := (bdbTempTablePut tran.db (usedbKey ushrtMax tran.seq).bytes op.rpl).2
        seq := tran.seq + 1 }) := by
  simp [osqlBplogSaveop, preProcessSaveop, ht, hre, setupReorderKey, isRowOp, reorderKeySwitch,
    lastIsInsSwitch, putOp, bdbTempTablePut_fst, isSelectvRowOp, usedbKey, OplogKey.zero]

/-- The row of the `OSQL_DONE` that closes a stream. -/
def doneRow (segs : List Segment) (done : Op) : ArrElem :=
  ⟨(usedbKey ushrtMax (stream segs).length).bytes, done.rpl⟩

/-- A produced stream closed by its `OSQL_DONE` leaves the rows of the stream
and, in the main table, the row of the `OSQL_DONE`. -/
theorem saveOps_stream_done (put : BtPut) (temptableMemThreshold temptableCachesz : ℕ)
    (isSelectvWlUpd : Bool) {segs : List Segment} (hs : ∀ s ∈ segs, s.Shape env) {done : Op}
    (hdone : done.type = .done) :
    ∃ tran, saveOps env (osqlBplogCreate put temptableMemThreshold temptableCachesz true isSelectvWlUpd)
        (stream segs ++ [done]) = (0, tran) ∧
      tran.db = putAll (bdbTempTableSetCmpFunc (bdbTempArrayCreate put temptableMemThreshold temptableCachesz)
          (some osqlBplogKeyCmp)) ((intendedRows env segs).main ++ [doneRow segs done]) ∧
      tran.dbIns = some (putAll (bdbTempTableSetCmpFunc
        (bdbTempArrayCreate put temptableMemThreshold temptableCachesz) (some osqlBplogInstblKeyCmp))
          (intendedRows env segs).ins) := by
  obtain ⟨tran, hrun, hI⟩ := saveOps_stream put temptableMemThreshold temptableCachesz isSelectvWlUpd hs
  have hseq : tran.seq = (stream segs).length := by
    rw [hI.seq]
    have h : (intendedRows env segs).seq = Intended.empty.seq + (stream segs).length :=
      Intended.seq_foldl_segment segs Intended.empty
    simpa [Intended.empty] using h
  refine ⟨{ tran with
      lastIsIns := false
      db := (bdbTempTablePut tran.db (usedbKey ushrtMax tran.seq).bytes done.rpl).2
      seq := tran.seq + 1 }, ?_, ?_, hI.dbIns⟩
  · rw [saveOps_append _ hrun, saveOps_cons_of_ok _ (osqlBplogSaveop_done hI.reorder hdone)]
    rfl
  · simp [putAll_append, putAll_cons, putAll_nil, hI.db, hseq, doneRow]

theorem rowEntry_doneRow (segs : List Segment) (done : Op) :
    rowEntry (doneRow segs done) = ((stream segs).length % 2 ^ 32, done.rpl) := by
  simp [doneRow, usedbKey, UInt32.toNat_ofNat']

theorem isUsedbAt_length (ops : List Op) : isUsedbAt ops ops.length = false := by
  simp [isUsedbAt]

end Done

/-! ## The replay of a produced stream -/

section Replay

variable {env : Env} {segs : List Segment}

/-- A row of a produced stream tells its request's arrival number, its table,
and whether it is an `OSQL_USEDB`. -/
theorem rowTag_of_mem (hp : Produced env segs) {x : ArrElem}
    (hx : x ∈ (intendedRows env segs).main ++ (intendedRows env segs).ins) :
    (rowEntry x).1 < (stream segs).length ∧
      (reqTables env segs)[(rowEntry x).1]? = some (OplogKey.ofBytes x.key).tblIdx ∧
      isUsedbAt (stream segs) (rowEntry x).1 = ((OplogKey.ofBytes x.key).genid == 0) :=
  mem_reqTags_tabled (by have := hp.short; omega)
    ((tags_intendedRows hp).subset (List.mem_map_of_mem hx))

theorem tblIdx_ne_ushrtMax_of_mem (hp : Produced env segs) {x : ArrElem}
    (hx : x ∈ (intendedRows env segs).main ++ (intendedRows env segs).ins) :
    (OplogKey.ofBytes x.key).tblIdx ≠ ushrtMax := by
  have h := (rowTag_of_mem hp hx).2.1
  simp only [reqTables, List.getElem?_map, Option.map_eq_some_iff] at h
  obtain ⟨q, hq, hqt⟩ := h
  exact hqt ▸ ne_ushrtMax_of_tabled hp.shape hq

/-- A main-table row is an `OSQL_USEDB`'s, keyed by its table alone, or a
block's, under the genid of a stored row. -/
theorem mainRow_cases (hp : Produced env segs) {x : ArrElem} (hx : x ∈ (intendedRows env segs).main) :
    (∃ t j, x.key = (usedbKey t j).bytes) ∨
      ∃ t g i j, x.key = (blockKey t g i j).bytes ∧ g ≠ 0 ∧ isGenidAdd g = false ∧ isGenidUpd g = false := by
  have hE : Intended.empty.Extends (intendedRows env segs) :=
    Intended.Extends.foldl Intended.extends_segment segs _
  obtain ⟨X, Y, hmain, htags, hX⟩ := hE.main
  have hY : (intendedRows env segs).mainTags = Intended.empty.mainTags ++ updatedRows env segs :=
    Intended.mainTags_foldl_segment Intended.empty hp.shape
  simp only [Intended.empty, List.nil_append] at hmain htags hY
  rw [hmain] at hx
  rcases hX x hx with hu | ⟨p, hpY, i, j, hk⟩
  · exact .inl hu
  · obtain ⟨hg0, hadd, hupd⟩ := hp.stored p (by rw [← hY, htags]; exact hpY)
    exact .inr ⟨p.1, p.2, i, j, hk, hg0, hadd, hupd⟩

/-- An insert row's genid is an insert counter, not 0. -/
theorem genid_ne_zero_of_mem_ins (hp : Produced env segs) {y : ArrElem}
    (hy : y ∈ (intendedRows env segs).ins) : (OplogKey.ofBytes y.key).genid ≠ 0 := by
  have hE : Intended.empty.Extends (intendedRows env segs) :=
    Intended.Extends.foldl Intended.extends_segment segs _
  obtain ⟨X, Y, hins, htags, hX⟩ := hE.ins
  simp only [Intended.empty, List.nil_append] at hins htags
  rw [hins] at hy
  obtain ⟨p, hpY, i, j, hk⟩ := hX y hy
  have hc : (intendedRows env segs).Counted :=
    Intended.Counted.foldl_segment segs (I := Intended.empty) ⟨rfl, le_refl _⟩
  have hF : (intendedRows env segs).seq = Intended.empty.seq + (stream segs).length :=
    Intended.seq_foldl_segment segs Intended.empty
  -- the counters are `1, ..., insSeq`, and there are fewer than `2 ^ 31` requests
  have hmem : p.2 ∈ List.range' 1 (intendedRows env segs).insSeq := by
    rw [← hc.tags, htags]
    exact List.mem_map_of_mem hpY
  rw [List.mem_range'_1] at hmem
  have hle := hc.le
  have hshort := hp.short
  simp only [Intended.empty] at hF
  rw [hk, OplogKey.ofBytes_bytes]
  intro h0
  have h := congrArg UInt64.toNat h0
  simp only [blockKey, UInt64.toNat_ofNat', UInt64.toNat_zero] at h
  rw [Nat.mod_eq_of_lt (by omega)] at h
  omega

/-- An `OSQL_USEDB` row sorts before the rows of the blocks of its table. -/
theorem rankMain_usedbKey_lt {g : Genid} (hg0 : g ≠ 0) (hadd : isGenidAdd g = false)
    (hupd : isGenidUpd g = false) (t : UInt16) (j : ℕ) (i : UInt8) (j' : ℕ) :
    (usedbKey t j).rankMain < (blockKey t g i j').rankMain := by
  -- a stored genid other than 0 has a stripe or a key other than 0
  have hne : (stripeOf g).toNat ≠ 0 ∨ genidKey g ≠ 0 := by
    by_contra h
    push Not at h
    exact hg0 (eq_of_stripeOf_eq hadd hupd (UInt8.toNat_inj.1 (h.1.trans (by decide))) (h.2.trans (by decide)))
  have hj := (UInt32.ofNat j).toNat_lt
  have hk0 : genidKey 0 = 0 := by decide
  simp only [OplogKey.rankMain, OplogKey.rankBy, usedbKey, blockKey, hk0, UInt8.toNat_zero]
  omega

/-- In the main table closed by the `OSQL_DONE`, an `OSQL_USEDB`'s row has
stripe 0 and sorts before the other rows of its table. -/
theorem usedb_row_first (hp : Produced env segs) {done : Op} {u : ArrElem}
    (hu : u ∈ (intendedRows env segs).main ++ [doneRow segs done])
    (hUu : isUsedbAt (stream segs) (rowEntry u).1 = true) :
    (OplogKey.ofBytes u.key).stripe = 0 ∧
      ∀ z ∈ (intendedRows env segs).main ++ [doneRow segs done], isUsedbAt (stream segs) (rowEntry z).1 = false →
        (OplogKey.ofBytes u.key).tblIdx = (OplogKey.ofBytes z.key).tblIdx →
        (OplogKey.ofBytes u.key).rankMain < (OplogKey.ofBytes z.key).rankMain := by
  have hL : (stream segs).length < 2 ^ 32 := by have := hp.short; omega
  have hdone : rowEntry (doneRow segs done) = ((stream segs).length, done.rpl) := by
    rw [rowEntry_doneRow, Nat.mod_eq_of_lt hL]
  -- `u` is no `OSQL_DONE`, so the row of an `OSQL_USEDB`
  have huM : u ∈ (intendedRows env segs).main := by
    rcases List.mem_append.1 hu with hu | hu
    · exact hu
    · rw [List.mem_singleton.1 hu, hdone, isUsedbAt_length] at hUu
      cases hUu
  have hmem := List.mem_append_left (intendedRows env segs).ins huM
  obtain ⟨-, hut, hug⟩ := rowTag_of_mem hp hmem
  rw [hUu, eq_comm, beq_iff_eq] at hug
  obtain ⟨t, j, hk⟩ | ⟨t, g, i, j, hk, hg0, -⟩ := mainRow_cases hp huM
  swap
  · rw [hk, OplogKey.ofBytes_bytes] at hug
    exact absurd hug hg0
  refine ⟨by rw [hk, OplogKey.ofBytes_bytes]; rfl, fun z hz hzU htz => ?_⟩
  rcases List.mem_append.1 hz with hz | hz
  · obtain ⟨-, -, hzg⟩ := rowTag_of_mem hp (List.mem_append_left (intendedRows env segs).ins hz)
    rw [hzU, eq_comm, beq_eq_false_iff_ne] at hzg
    obtain ⟨t', j', hk'⟩ | ⟨t', g, i, j', hk', hg0, hadd, hupd⟩ := mainRow_cases hp hz
    · rw [hk', OplogKey.ofBytes_bytes] at hzg
      exact absurd rfl hzg
    · -- a block of the same table
      rw [hk, hk', OplogKey.ofBytes_bytes, OplogKey.ofBytes_bytes] at htz ⊢
      simp only [usedbKey, blockKey] at htz
      subst htz
      exact rankMain_usedbKey_lt hg0 hadd hupd t j i j'
  · -- the `OSQL_DONE` is under no table
    rw [List.mem_singleton.1 hz] at htz
    have hne := tblIdx_ne_ushrtMax_of_mem hp hmem
    rw [htz] at hne
    exact absurd (by simp [doneRow, usedbKey]) hne

/-- Each table a request is sent under has an `OSQL_USEDB` row in the main
table. -/
theorem exists_usedb_row (hp : Produced env segs) {j : ℕ} {t : UInt16}
    (h : (reqTables env segs)[j]? = some t) :
    ∃ u ∈ (intendedRows env segs).main,
      isUsedbAt (stream segs) (rowEntry u).1 = true ∧ (OplogKey.ofBytes u.key).tblIdx = t := by
  simp only [reqTables, List.getElem?_map, Option.map_eq_some_iff] at h
  obtain ⟨q, hq, rfl⟩ := h
  obtain ⟨j₀, op, h₀, hop⟩ := exists_usedb_of_tabled hp.shape hq
  have htag := (tags_intendedRows hp).symm.subset (mem_reqTags_of_getElem? h₀)
  obtain ⟨x, hx, hxt⟩ := List.mem_map.1 htag
  obtain ⟨-, -, hxU⟩ := rowTag_of_mem hp hx
  simp only [rowTag, hop, beq_self_eq_true, Prod.mk.injEq] at hxt
  obtain ⟨-, hxt, hx0⟩ := hxt
  rw [hx0] at hxU
  -- a row of genid 0 is no insert's
  have hxM : x ∈ (intendedRows env segs).main := by
    rcases List.mem_append.1 hx with hx | hx
    · exact hx
    · exact absurd (beq_iff_eq.1 hx0) (genid_ne_zero_of_mem_ins hp hx)
  exact ⟨x, hxM, hxU, hxt⟩

/-- The main table of a produced stream closed by its `OSQL_DONE` scans as its
rows in key order. -/
theorem scan_main_done (hp : Produced env segs) (done : Op) {put : BtPut} (hbt : put.Lawful)
    (temptableMemThreshold temptableCachesz : ℕ) :
    (scan (putAll (bdbTempTableSetCmpFunc (bdbTempArrayCreate put temptableMemThreshold temptableCachesz)
      (some osqlBplogKeyCmp)) ((intendedRows env segs).main ++ [doneRow segs done]))).Perm
        ((intendedRows env segs).main ++ [doneRow segs done]) ∧
    (scan (putAll (bdbTempTableSetCmpFunc (bdbTempArrayCreate put temptableMemThreshold temptableCachesz)
      (some osqlBplogKeyCmp)) ((intendedRows env segs).main ++ [doneRow segs done]))).Pairwise fun x y =>
        (OplogKey.ofBytes x.key).rankMain < (OplogKey.ofBytes y.key).rankMain := by
  have hL : (stream segs).length < 2 ^ 32 := by have := hp.short; omega
  have hseq₀ : ((intendedRows env segs).main ++ (intendedRows env segs).ins).Pairwise fun a b =>
      (OplogKey.ofBytes a.key).seq ≠ (OplogKey.ofBytes b.key).seq := seq_pairwise_ne hL.le
  have hseq := hseq₀.sublist (List.sublist_append_left _ _)
  refine scan_putAll_of_seq osqlBplogKeyCmp_eq hbt temptableMemThreshold temptableCachesz
    (List.pairwise_append.2 ⟨hseq, List.pairwise_singleton _ _, ?_⟩)
  -- the `OSQL_DONE` comes after every request of the stream
  intro x hx y hy hxy
  rw [List.mem_singleton.1 hy] at hxy
  have hlt := (rowTag_of_mem hp (List.mem_append_left _ hx)).1
  have hd := congrArg Prod.fst (rowEntry_doneRow segs done)
  simp only [rowEntry] at hlt hd
  rw [← hxy, Nat.mod_eq_of_lt hL] at hd
  omega

/-- A produced stream closed by its `OSQL_DONE`, saved with reordering on and
replayed by `process_this_session`: every request is applied once, with its
arrival number, and the `OSQL_DONE` last; and each request other than an
`OSQL_USEDB` is applied while the last `OSQL_USEDB` applied was sent under its
own table. -/
theorem replayRows_reorder (hp : Produced env segs) {done : Op} (hdone : done.type = .done)
    {put : BtPut} (hbt : put.Lawful) (temptableMemThreshold temptableCachesz : ℕ) (isSelectvWlUpd : Bool)
    (addStripe : UInt8) :
    ∃ tran tIns,
      saveOps env (osqlBplogCreate put temptableMemThreshold temptableCachesz true isSelectvWlUpd)
          (stream segs ++ [done]) = (0, tran) ∧ tran.dbIns = some tIns ∧
        ((replayRows addStripe (scan tran.db) (scan tIns)).map rowEntry).Perm
          ((stream segs ++ [done]).zipIdx.map fun q => (q.2, q.1.rpl)) ∧
        ((replayRows addStripe (scan tran.db) (scan tIns)).map rowEntry).getLast? =
          some ((stream segs).length, done.rpl) ∧
        ∀ (A : List ArrElem) (z : ArrElem) (B : List ArrElem),
          replayRows addStripe (scan tran.db) (scan tIns) = A ++ z :: B →
          (rowEntry z).1 < (stream segs).length → isUsedbAt (stream segs) (rowEntry z).1 = false →
          ∃ u ∈ (A.filter fun a => isUsedbAt (stream segs) (rowEntry a).1).getLast?,
            (reqTables env segs)[(rowEntry u).1]? = (reqTables env segs)[(rowEntry z).1]? := by
  obtain ⟨tran, hrun, hdb, hins⟩ :=
    saveOps_stream_done put temptableMemThreshold temptableCachesz isSelectvWlUpd hp.shape hdone
  refine ⟨tran, _, hrun, hins, ?_⟩
  have hL : (stream segs).length < 2 ^ 32 := by have := hp.short; omega
  have hdoneE : rowEntry (doneRow segs done) = ((stream segs).length, done.rpl) := by
    rw [rowEntry_doneRow, Nat.mod_eq_of_lt hL]
  -- the two scans: the main rows and the `OSQL_DONE`'s, and the insert rows
  obtain ⟨hMperm, hMsort⟩ := scan_main_done hp done hbt temptableMemThreshold temptableCachesz
  rw [← hdb] at hMperm hMsort
  have hseq₀ : ((intendedRows env segs).main ++ (intendedRows env segs).ins).Pairwise fun a b =>
      (OplogKey.ofBytes a.key).seq ≠ (OplogKey.ofBytes b.key).seq := seq_pairwise_ne hL.le
  obtain ⟨hNperm, hNsort⟩ := scan_putAll_of_seq osqlBplogInstblKeyCmp_eq hbt temptableMemThreshold
    temptableCachesz (hseq₀.sublist (List.sublist_append_right _ _))
  set IF := intendedRows env segs
  set M := scan tran.db
  set N := scan (putAll (bdbTempTableSetCmpFunc (bdbTempArrayCreate put temptableMemThreshold temptableCachesz)
    (some osqlBplogInstblKeyCmp)) IF.ins)
  set d := doneRow segs done
  set isU : ArrElem → Bool := fun a => isUsedbAt (stream segs) (rowEntry a).1
  have hdU : isU d = false := by simp only [isU, hdoneE, isUsedbAt_length]
  have hdT : (OplogKey.ofBytes d.key).tblIdx = ushrtMax := by simp [d, doneRow, usedbKey]
  have hNU : ∀ y ∈ N, isU y = false := by
    intro y hy
    have hy' : y ∈ IF.ins := hNperm.subset hy
    rw [show isU y = _ from (rowTag_of_mem hp (List.mem_append_right _ hy')).2.2]
    simpa using genid_ne_zero_of_mem_ins hp hy'
  have hU : ∀ u ∈ M, isU u = true → (OplogKey.ofBytes u.key).stripe = 0 ∧
      ∀ z ∈ M, isU z = false → (OplogKey.ofBytes u.key).tblIdx = (OplogKey.ofBytes z.key).tblIdx →
        (OplogKey.ofBytes u.key).rankMain < (OplogKey.ofBytes z.key).rankMain := by
    intro u hu hUu
    obtain ⟨h0, hlt⟩ := usedb_row_first hp (hMperm.subset hu) hUu
    exact ⟨h0, fun z hz => hlt z (hMperm.subset hz)⟩
  -- a row other than the `OSQL_DONE`'s has an `OSQL_USEDB` row of its table
  have hex : ∀ y ∈ M ++ N, y ≠ d → ∃ u ∈ M, isU u = true ∧
      (OplogKey.ofBytes u.key).tblIdx = (OplogKey.ofBytes y.key).tblIdx := by
    intro y hy hyd
    have hy' : y ∈ IF.main ++ IF.ins := by
      rcases List.mem_append.1 hy with hy | hy
      · rcases List.mem_append.1 (hMperm.subset hy) with hy | hy
        · exact List.mem_append_left _ hy
        · exact absurd (List.mem_singleton.1 hy) hyd
      · exact List.mem_append_right _ (hNperm.subset hy)
    obtain ⟨u, hu, hUu, hut⟩ := exists_usedb_row hp (rowTag_of_mem hp hy').2.1
    exact ⟨u, hMperm.symm.subset (List.mem_append_left _ hu), hUu, hut⟩
  have hdM : d ∈ M := hMperm.symm.subset (List.mem_append_right _ (List.mem_singleton_self _))
  -- the `OSQL_DONE`'s row is the last of the main table, and every insert row goes before it
  have hlast : M.getLast? = some d := by
    have hmax : ∀ v ∈ M, (OplogKey.ofBytes v.key).rankMain ≤ (OplogKey.ofBytes d.key).rankMain := by
      intro v hv
      rcases List.mem_append.1 (hMperm.subset hv) with hv | hv
      · have hne := tblIdx_ne_ushrtMax_of_mem hp (List.mem_append_left _ hv)
        refine le_of_not_ge fun hge => hne ?_
        have := tblIdx_le_of_tblStripe_le (@tblStripe_le_of_rankBy_le genidKey 60 genidKey_lt _ _ hge)
        rw [hdT] at this
        exact UInt16.toNat_inj.1 (le_antisymm (Nat.lt_succ_iff.1 (UInt16.toNat_lt _)) this)
      · rw [List.mem_singleton.1 hv]
    obtain ⟨v, hv, hvd⟩ := Merge.exists_getLast?_eq_of_pairwise (hMsort.imp le_of_lt) hdM hmax
    rcases List.mem_append.1 (hMperm.subset (List.mem_of_getLast? hv)) with hvM | hvd'
    · -- a stream row ranks below the `OSQL_DONE`'s
      have hne := tblIdx_ne_ushrtMax_of_mem hp (List.mem_append_left _ hvM)
      have := tblIdx_le_of_tblStripe_le (@tblStripe_le_of_rankBy_le genidKey 60 genidKey_lt _ _ hvd.ge)
      rw [hdT] at this
      exact absurd (UInt16.toNat_inj.1 (le_antisymm (Nat.lt_succ_iff.1 (UInt16.toNat_lt _)) this)) hne
    · rw [hv, List.mem_singleton.1 hvd']
  have hdrain : ∀ y ∈ N, insBefore addStripe y d = true := by
    intro y hy
    have hne := tblIdx_ne_ushrtMax_of_mem hp (List.mem_append_right _ (hNperm.subset hy))
    have hlt : (OplogKey.ofBytes y.key).tblIdx.toNat < 65535 := by
      have := UInt16.toNat_lt (OplogKey.ofBytes y.key).tblIdx
      have : (OplogKey.ofBytes y.key).tblIdx.toNat ≠ 65535 := fun h => hne (UInt16.toNat_inj.1 h)
      omega
    have ha := addStripe.toNat_lt
    rw [insBefore, insIsLess_some_iff, OplogKey.tblStripe, hdT]
    simp only [ushrtMax, UInt16.toNat_ofNat]
    omega
  -- no insert row goes before the first main row
  obtain ⟨m₀, ms, hM⟩ := List.exists_cons_of_ne_nil (List.ne_nil_of_mem hdM)
  have hfirst : ∀ y ∈ N, insBefore addStripe y m₀ = false := by
    intro y hy
    -- the `OSQL_DONE`'s row is no insert row
    obtain ⟨u, hu, hUu, hut⟩ := hex y (List.mem_append_right _ hy) fun e =>
      tblIdx_ne_ushrtMax_of_mem hp (List.mem_append_right _ (hNperm.subset (e ▸ hy))) hdT
    have hle : (OplogKey.ofBytes m₀.key).rankMain ≤ (OplogKey.ofBytes u.key).rankMain := by
      rw [hM] at hu hMsort
      rcases List.mem_cons.1 hu with rfl | hu
      · exact le_refl _
      · exact (List.rel_of_pairwise_cons hMsort hu).le
    have hts := @tblStripe_le_of_rankBy_le genidKey 60 genidKey_lt _ _ hle
    have hu0 := (hU u hu hUu).1
    rw [insBefore, ← Bool.not_eq_true, insIsLess_some_iff, OplogKey.tblStripe]
    simp only [OplogKey.tblStripe, hu0, UInt8.toNat_zero, Nat.add_zero, hut] at hts
    omega
  have horder : replayRows addStripe M N = mergeRows addStripe M N := by
    rw [hM]
    exact replayRows_eq_mergeRows hfirst ms
  have hperm := perm_mergeRows hlast hdrain
  refine ⟨?_, ?_, ?_⟩
  · -- every row once: those of the stream, then the `OSQL_DONE`'s
    rw [horder]
    refine ((hperm.trans (hMperm.append hNperm)).map rowEntry).trans ?_
    have hent : ((IF.main ++ IF.ins).map rowEntry).Perm ((stream segs).zipIdx.map fun q => (q.2, q.1.rpl)) :=
      entries_intendedRows hL.le
    rw [List.zipIdx_append, List.map_append]
    simp only [List.map_append, List.map_singleton, List.zipIdx_singleton, Nat.zero_add, hdoneE]
    refine List.Perm.trans ?_ (hent.append_right _)
    simp only [List.map_append, List.append_assoc]
    exact List.Perm.append_left _ List.perm_append_comm
  · rw [horder, List.getLast?_map, getLast?_mergeRows hlast hdrain, Option.map_some, hdoneE]
  · intro A z B h hz hzU
    rw [horder] at h
    have hzmem : z ∈ M ++ N := hperm.subset (by rw [h]; simp)
    have hzd : z ≠ d := fun e => by rw [e, hdoneE] at hz; exact lt_irrefl _ hz
    obtain ⟨u, hu, hUu, hut⟩ := hex z hzmem hzd
    obtain ⟨v, hv, hvt⟩ := last_usedb_of_mergeRows hMsort hNsort hNU hU h hzU hu hUu hut
    refine ⟨v, hv, ?_⟩
    -- both are rows of the stream, each telling the table of its request
    have hvA := List.mem_filter.1 (List.mem_of_getLast? hv)
    have hvM : v ∈ IF.main ++ IF.ins := by
      have hv' : v ∈ M ++ N := hperm.subset (by rw [h]; exact List.mem_append_left _ hvA.1)
      rcases List.mem_append.1 hv' with hv' | hv'
      · rcases List.mem_append.1 (hMperm.subset hv') with hv' | hv'
        · exact List.mem_append_left _ hv'
        · rw [List.mem_singleton.1 hv', hdU] at hvA
          cases hvA.2
      · rw [hNU v hv'] at hvA
        cases hvA.2
    have hzM : z ∈ IF.main ++ IF.ins := by
      rcases List.mem_append.1 hzmem with hz' | hz'
      · rcases List.mem_append.1 (hMperm.subset hz') with hz' | hz'
        · exact List.mem_append_left _ hz'
        · exact absurd (List.mem_singleton.1 hz') hzd
      · exact List.mem_append_right _ (hNperm.subset hz')
    rw [(rowTag_of_mem hp hvM).2.1, (rowTag_of_mem hp hzM).2.1, hvt]

/-- The example stream of one update and one insert, closed by an
`OSQL_DONE`. -/
theorem replayRows_reorder_example : Produced exampleEnv exampleSegs ∧ (Op.mk .done [7]).type = .done ∧
    BtPut.Lawful btPutSorted ∧
    ∃ tran tIns,
      saveOps exampleEnv (osqlBplogCreate btPutSorted 0 0 true false) (stream exampleSegs ++ [Op.mk .done [7]]) =
          (0, tran) ∧
        tran.dbIns = some tIns ∧
        ((replayRows 0 (scan tran.db) (scan tIns)).map rowEntry).Perm
          ((stream exampleSegs ++ [Op.mk .done [7]]).zipIdx.map fun q => (q.2, q.1.rpl)) ∧
        ((replayRows 0 (scan tran.db) (scan tIns)).map rowEntry).getLast? =
          some ((stream exampleSegs).length, [7]) ∧
        ∀ (A : List ArrElem) (z : ArrElem) (B : List ArrElem),
          replayRows 0 (scan tran.db) (scan tIns) = A ++ z :: B →
          (rowEntry z).1 < (stream exampleSegs).length → isUsedbAt (stream exampleSegs) (rowEntry z).1 = false →
          ∃ u ∈ (A.filter fun a => isUsedbAt (stream exampleSegs) (rowEntry a).1).getLast?,
            (reqTables exampleEnv exampleSegs)[(rowEntry u).1]? =
              (reqTables exampleEnv exampleSegs)[(rowEntry z).1]? :=
  ⟨exampleSegs_produced, rfl, lawful_btPutSorted,
    replayRows_reorder exampleSegs_produced rfl lawful_btPutSorted 0 0 false 0⟩

end Replay

/-! ## Without reordering -/

section Plain

variable {env : Env}

/-- Without reordering and without the selectv cache, a request the
pre-processing lets through is saved in the main table under its arrival
number alone. -/
theorem osqlBplogSaveop_plain {tran : Tran} {op : Op} (hre : tran.isReorderOn = false)
    (hsel : tran.isSelectvWlUpd = false) (hsc : op.type = .schemachange → env.getSchemachange op.rpl = true) :
    osqlBplogSaveop env tran op =
      (0, { tran with
        db := (bdbTempTablePut tran.db ({ OplogKey.zero with seq := UInt32.ofNat tran.seq }).bytes op.rpl).2
        seq := tran.seq + 1 }) := by
  -- a schema change reads, so `osql_sess_save_sc` answers 0
  have hrc : ¬(op.type = .schemachange ∧ env.getSchemachange op.rpl = false) := fun ⟨h₁, h₂⟩ => by
    simp [hsc h₁] at h₂
  simp [osqlBplogSaveop, preProcessSaveop, hre, hsel, hrc, putOp, bdbTempTablePut_fst]

/-- The rows requests leave without reordering, from arrival number `j` on. -/
def plainRows (ops : List Op) (j : ℕ) : List ArrElem :=
  (ops.zipIdx j).map fun q => ⟨({ OplogKey.zero with seq := UInt32.ofNat q.2 }).bytes, q.1.rpl⟩

theorem saveOps_plain :
    ∀ {tran : Tran} (ops : List Op), tran.isReorderOn = false → tran.isSelectvWlUpd = false →
      (∀ op ∈ ops, op.type = .schemachange → env.getSchemachange op.rpl = true) →
      saveOps env tran ops =
        (0, { tran with db := putAll tran.db (plainRows ops tran.seq), seq := tran.seq + ops.length })
  | tran, [], _, _, _ => by simp [saveOps, plainRows, putAll_nil]
  | tran, op :: ops, hre, hsel, hsc => by
    rw [saveOps_cons_of_ok _ (osqlBplogSaveop_plain hre hsel (hsc op List.mem_cons_self))]
    refine (saveOps_plain ops ?_ ?_ fun o ho => hsc o (List.mem_cons_of_mem op ho)).trans ?_
    · exact hre
    · exact hsel
    · simp [plainRows, putAll_cons, Nat.add_assoc, Nat.add_comm 1]

/-- Below `2 ^ 32` requests, the rows go up by arrival number... -/
theorem plainRows_seq_lt {ops : List Op} (hlen : ops.length ≤ 2 ^ 32) :
    (plainRows ops 0).Pairwise fun x y =>
      (OplogKey.ofBytes x.key).seq.toNat < (OplogKey.ofBytes y.key).seq.toNat := by
  have hkey : ∀ q ∈ ops.zipIdx,
      (OplogKey.ofBytes ({ OplogKey.zero with seq := UInt32.ofNat q.2 } : OplogKey).bytes).seq.toNat = q.2 := by
    intro q hq
    have hq32 : q.2 < 2 ^ 32 := by
      have := List.snd_lt_of_mem_zipIdx hq
      omega
    simp [UInt32.toNat_ofNat']
    omega
  rw [plainRows, List.pairwise_map]
  refine List.pairwise_iff_get.2 fun i k hik => ?_
  rw [hkey _ (List.get_mem _ _), hkey _ (List.get_mem _ _)]
  simpa using hik

/-- ... and a row's rank is its arrival number. -/
theorem plainRows_rankMain {ops : List Op} {j : ℕ} {x : ArrElem} (hx : x ∈ plainRows ops j) :
    (OplogKey.ofBytes x.key).rankMain = (OplogKey.ofBytes x.key).seq.toNat := by
  obtain ⟨q, -, rfl⟩ := List.mem_map.1 hx
  have hk0 : genidKey 0 = 0 := by decide
  simp [OplogKey.rankMain, OplogKey.rankBy, OplogKey.zero, hk0]

/-- With reordering off (and the selectv cache off), any stream of fewer requests
than the `int` counter `seq` numbers, whose schema changes read, is saved
whole, with no insert table, and the replay applies the requests one after
another in arrival order, each once. -/
theorem replayRows_plain (ops : List Op) (hlen : ops.length < 2 ^ 31)
    (hsc : ∀ op ∈ ops, op.type = .schemachange → env.getSchemachange op.rpl = true)
    {put : BtPut} (hbt : put.Lawful) (temptableMemThreshold temptableCachesz : ℕ) (addStripe : UInt8) :
    ∃ tran, saveOps env (osqlBplogCreate put temptableMemThreshold temptableCachesz false false) ops = (0, tran) ∧
      tran.dbIns = none ∧
      (replayRows addStripe (scan tran.db) []).map rowEntry = ops.zipIdx.map fun q => (q.2, q.1.rpl) := by
  refine ⟨_, saveOps_plain ops rfl rfl hsc, rfl, ?_⟩
  have hlt := plainRows_seq_lt (show ops.length ≤ 2 ^ 32 by omega)
  obtain ⟨hperm, hsort⟩ := scan_putAll_of_seq osqlBplogKeyCmp_eq hbt temptableMemThreshold temptableCachesz
    (hlt.imp fun h he => by rw [he] at h; exact lt_irrefl _ h)
  -- the scan is the rows themselves: both are sorted by rank
  have hscan := hperm.eq_of_pairwise (fun _ _ _ _ hab hba => absurd (hab.trans hba) (lt_irrefl _)) hsort
    (hlt.imp_of_mem fun hx hy h => by
      show OplogKey.rankMain _ < OplogKey.rankMain _
      rwa [plainRows_rankMain hx, plainRows_rankMain hy])
  simp only [osqlBplogCreate]
  rw [hscan, replayRows_nil_right, plainRows, List.map_map]
  refine List.map_congr_left fun q hq => ?_
  have hq32 : q.2 < 2 ^ 32 := by
    have := List.snd_lt_of_mem_zipIdx hq
    omega
  simp [rowEntry, OplogKey.zero, UInt32.toNat_ofNat']
  omega

theorem replayRows_plain_example : (stream exampleSegs).length < 2 ^ 31 ∧
    (∀ op ∈ stream exampleSegs, op.type = .schemachange → exampleEnv.getSchemachange op.rpl = true) ∧
    BtPut.Lawful btPutSorted ∧
    ∃ tran, saveOps exampleEnv (osqlBplogCreate btPutSorted 0 0 false false) (stream exampleSegs) = (0, tran) ∧
      tran.dbIns = none ∧
      (replayRows 0 (scan tran.db) []).map rowEntry = (stream exampleSegs).zipIdx.map fun q => (q.2, q.1.rpl) :=
  ⟨by decide, fun _ _ _ => rfl, lawful_btPutSorted,
    replayRows_plain (stream exampleSegs) (by decide) (fun _ _ _ => rfl) lawful_btPutSorted 0 0 0⟩

end Plain

end Osql
