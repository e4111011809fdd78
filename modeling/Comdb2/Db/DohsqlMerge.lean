import Comdb2.Db.DohsqlOrder

/-!
# The ordered merge of a parallel query

`dohsql_dist_next_row_ordered` gives the coordinator the next row of a
distributed `SELECT ... ORDER BY`.  Each connection has a queue of rows: a
child's thread adds the rows its shard's statement returns, while the
coordinator's own statement, connection `0`, is stepped by the coordinator
itself (`_local_step`).  A call runs passes from `retry_row` until one returns:

* with every active connection queued, the fast path checks the `LIMIT`, takes
  the first queued connection (`q_top`) and the first row of its queue, and
  returns that row, or skips it while the `OFFSET` lasts and goes round again;
* otherwise the slow path looks once at each connection that is not queued:
  a child with a queued row is inserted (`_move_client_row`), a finished child
  is removed (`_move_client_done`), a failed child ends the call, and the
  coordinator's own statement is stepped.  It then goes round again.

The first call steps the coordinator's statement at cell `0` before any pass.

The model keeps, of each connection, its queue and its return code, and the
rows its statement returns with how many of them it has produced.  A pass reads
a child's queue once, under the child's lock; a row a child adds meanwhile is
added before or after the pass as the pass saw it, so a pass is one step.
What a pass reads of the outside is `Env`: the error of a step of the
coordinator's statement, what `recover_deadlock_simple` returns when the lock
is desired, and the client's disconnect.  `donate_current_row`, which gives the
previous row's memory back, and the statement reset and
`_signal_children_master_is_done` on the way out are left out.

Between passes the order of the connections keeps its layout (`Inv`) and the
queues theirs (`Rows`): every queued connection has a row, and the current row
goes before every row an active connection has still to give.  The slow path
keeps both (`slowLoop_spec`), and so does a pass (`pass_spec`), which never
reaches the failed `assert(que_idx >= 0)` and takes its rows in order.
-/

namespace Dohsql

/-! ## The model -/

/-- `SQLITE_OK`. -/
def sqliteOk : ℤ := 0
/-- `SQLITE_ROW`. -/
def sqliteRow : ℤ := 100
/-- `SQLITE_DONE`. -/
def sqliteDone : ℤ := 101
/-- `SQLITE_EARLYSTOP_DOHSQL`. -/
def sqliteEarlystopDohsql : ℤ := 52

/-- The `ORDER BY` of the query: `sqlite3MemCompare` on values, and
`order_dir`. -/
structure OrderBy (V : Type*) where
  memCompare : V → V → ℤ
  orderDir : List ℤ

/-- The fields of `struct dohsql` that `dohsql_dist_next_row_ordered` uses: the
order of the connections, of each connection `conns[i]` its queue `que` of rows,
oldest first, and its return code `rc`, the rows sent and skipped so far, the
`LIMIT` and `OFFSET` with the registers that say whether they are set, and the
current row `row` with its connection `row_src`.  Beside them, the rows each
connection's statement returns (`stream`) and how many of them it has produced
so far (`sent`). -/
structure Merge (V : Type*) where
  conns : Conns
  que : ℤ → List (List V)
  rc : ℤ → ℤ
  stream : ℤ → List (List V)
  sent : ℤ → ℕ
  nrows : ℕ
  limit : ℤ
  offset : ℤ
  skipped : ℤ
  limitSaved : ℤ
  offsetSaved : ℤ
  rowSrc : ℤ
  row : Option (List V)

/-- What a pass finds outside the connections: the error, if any, of a step of
the coordinator's statement (`sqlite3_maybe_step`), what
`recover_deadlock_simple` returns when `bdb_lock_desired` (`0` when the lock is
not desired), and whether the client has disconnected. -/
structure Env where
  stepErr : Option ℤ
  lockRc : ℤ
  disconnected : Bool

/-- A failed step of a statement returns an error: neither `SQLITE_OK`, nor a
row, nor its end; and `recover_deadlock_simple` returns no row. -/
def Env.Wf (env : Env) : Prop :=
  (∀ rc, env.stepErr = some rc → rc ≠ sqliteOk ∧ rc ≠ sqliteRow ∧ rc ≠ sqliteDone) ∧
    env.lockRc ≠ sqliteRow

variable {V : Type*}

namespace Merge

variable (m : Merge V)

/-- What `_cmp` reads of the queues: how many rows each holds, and the first. -/
def queues : Queues V := ⟨fun i => (m.que i).length, fun i => (m.que i).headD []⟩

/-- Connection `i`'s statement produces its next row, which `queue_add` puts at
the end of the connection's queue. -/
def produce (i : ℤ) : Merge V :=
  { m with que := Function.update m.que i (m.que i ++ [(m.stream i).getD (m.sent i) []]),
           sent := Function.update m.sent i (m.sent i + 1) }

/-- `q_top`, `queue_next` and `add_row`: the first queued connection leaves the
queued ones, and the first row of its queue becomes the current row. -/
def takeTop : Merge V :=
  { m with conns := m.conns.qTop.2,
           que := Function.update m.que m.conns.qTop.1 (m.que m.conns.qTop.1).tail,
           row := (m.que m.conns.qTop.1).head?,
           rowSrc := m.conns.qTop.1 }

end Merge

/-- `init_next_row`: a step of the coordinator's statement gives its next row,
`SQLITE_DONE` past its last, or the error. -/
def initNextRow (env : Env) (m : Merge V) : ℤ :=
  match env.stepErr with
  | some rc => rc
  | none => if m.sent 0 < (m.stream 0).length then sqliteRow else sqliteDone

/-- `_check_limit`: the `LIMIT` is set and reached. -/
def checkLimit (m : Merge V) : Bool :=
  decide (m.limitSaved > 0 ∧ m.limit ≥ 0 ∧ (m.nrows : ℤ) ≥ m.limit)

/-- What a pass ends with: `goto retry_row`, a return code, or the failed
assertion. -/
inductive Outcome (V : Type*)
  | retry (m : Merge V)
  | ret (rc : ℤ) (m : Merge V)
  | fault

/-- The outcome is not the failed assertion, and `P` holds of the merge it
leaves. -/
def Outcome.Holds (P : Merge V → Prop) : Outcome V → Prop
  | .retry m => P m
  | .ret _ m => P m
  | .fault => False

section Compare

variable [Inhabited V]

/-- Two rows compared by the `ORDER BY` loop of `_cmp`. -/
def OrderBy.rows (o : OrderBy V) (a b : List V) : ℤ := cmpColumns o.memCompare a b o.orderDir

/-- `_cmp` as the queues stand. -/
def Merge.cmp (o : OrderBy V) (m : Merge V) : ℤ → ℤ → ℤ := cmpConns o.memCompare o.orderDir m.queues

/-- `_local_step`: the coordinator's statement is stepped and its return code
stored for connection `0`; its row is queued and inserted, its end removes the
connection, anything else is returned. -/
def localStep (o : OrderBy V) (env : Env) (m : Merge V) (crtIdx : ℕ) : ℤ × Merge V :=
  let rc := initNextRow env m
  let m := { m with rc := Function.update m.rc 0 rc }
  if rc = sqliteRow then
    let m := m.produce 0
    (sqliteOk, { m with conns := m.conns.moveClientRow (m.cmp o) crtIdx })
  else if rc = sqliteDone then (sqliteOk, { m with conns := m.conns.moveClientDone crtIdx })
  else (rc, m)

/-- The loop of the slow path over the `unready` cells from `unready_start`:
`none` is the failed `assert(que_idx >= 0)`.  A finished child is replaced in
its cell by the last active connection, so `i` stays and `unready` drops; a
failed child returns `SQLITE_EARLYSTOP_DOHSQL`.  A local step that fails ends
the loop at its test. -/
def slowLoop (o : OrderBy V) (env : Env) (unreadyStart : ℕ) (m : Merge V) (i unready : ℕ)
    (rc : ℤ) : Option (ℤ × Merge V) :=
  if i < unready ∧ rc = sqliteOk then
    let idx := (m.conns.topIdx + unreadyStart + i) % m.conns.nconns
    let queIdx := m.conns.order.getD idx (-1)
    if queIdx < 0 then none
    else if queIdx ≠ 0 then
      if 0 < (m.que queIdx).length then
        slowLoop o env unreadyStart { m with conns := m.conns.moveClientRow (m.cmp o) idx } (i + 1)
          unready rc
      else if m.rc queIdx = sqliteDone then
        slowLoop o env unreadyStart { m with conns := m.conns.moveClientDone idx } i (unready - 1) rc
      else if m.rc queIdx ≠ sqliteRow then some (sqliteEarlystopDohsql, m)
      else slowLoop o env unreadyStart m (i + 1) unready rc
    else
      slowLoop o env unreadyStart (localStep o env m idx).2 (i + 1) unready (localStep o env m idx).1
  else some (rc, m)
termination_by unready - i

/-- One pass of `dohsql_dist_next_row_ordered` from `retry_row`. -/
def pass (o : OrderBy V) (env : Env) (m : Merge V) : Outcome V :=
  if m.conns.active = 0 then .ret sqliteDone m
  else if m.conns.filling = m.conns.active then
    if checkLimit m then .ret sqliteDone m
    else
      let m := m.takeTop
      -- `_check_offset`: the first rows are skipped while the `OFFSET` lasts
      if m.offsetSaved ≠ 0 ∧ m.skipped < m.offset then .retry { m with skipped := m.skipped + 1 }
      else .ret sqliteRow { m with nrows := m.nrows + 1 }
  else
    match slowLoop o env m.conns.filling m 0 (m.conns.active - m.conns.filling) sqliteOk with
    | none => .fault
    | some (rc, m) =>
      if rc ≠ sqliteOk then .ret rc m
      else if env.lockRc ≠ 0 then .ret env.lockRc m
      else if env.disconnected then .ret sqliteEarlystopDohsql m
      else .retry m

/-- The start of a call: the first call steps the coordinator's statement at
cell `0` before any pass. -/
def start (o : OrderBy V) (env : Env) (m : Merge V) : Outcome V :=
  if m.nrows = 0 then
    if (localStep o env m 0).1 ≠ sqliteOk then .ret (localStep o env m 0).1 (localStep o env m 0).2
    else .retry (localStep o env m 0).2
  else .retry m

end Compare

/-! ## The invariant of the order -/

/-- The merge between passes: the order array's layout with the queued
connections `R`, sorted by `c`, and the waiting ones `U`; every active
connection is a connection number and is there once, and connection `0` waits
only alone. -/
structure Inv (c : ℤ → ℤ → ℤ) (s : Conns) (R U : List ℤ) : Prop where
  layout : Layout s R U
  sorted : Cmp.Sorted (Cmp.ordOf c) R
  nodup : (R ++ U).Nodup
  range : ∀ x ∈ R ++ U, 0 ≤ x ∧ x < s.nconns
  local_alone : 0 ∈ U → U = [0]

section Inv

variable {c c' : ℤ → ℤ → ℤ} {s s' : Conns} {R U R' U' : List ℤ}

/-- The invariant passes to a sorted layout of some of the same connections. -/
theorem Inv.of_subperm (h : Inv c s R U) (hl : Layout s' R' U') (hs : Cmp.Sorted (Cmp.ordOf c') R')
    (hn : s'.nconns = s.nconns) (hp : (R' ++ U').Subperm (R ++ U)) (hloc : 0 ∈ U' → U' = [0]) :
    Inv c' s' R' U' where
  layout := hl
  sorted := hs
  nodup := by
    obtain ⟨l, hpl, hsl⟩ := hp
    exact hpl.nodup_iff.1 (hsl.nodup h.nodup)
  range x hx := hn ▸ h.range x (hp.subset hx)
  local_alone := hloc

/-- A comparator that agrees on the queued connections keeps them sorted. -/
theorem Inv.recmp (h : Inv c s R U) (hc : ∀ a ∈ R, ∀ b ∈ R, c' a b = c a b) : Inv c' s R U :=
  { h with
    sorted := h.sorted.imp_of_mem fun ha hb hab => by rwa [Cmp.ordOf, hc _ ha _ hb] }

end Inv

/-! ## The slow path's loop over the connections -/

/-- The slow path's loop after `i` of its places: the connections it passed over
and left waiting are `W`, those still to look at are `U`. -/
structure LoopInv (c : ℤ → ℤ → ℤ) (unreadyStart : ℕ) (s : Conns) (R W U : List ℤ)
    (i unready : ℕ) : Prop where
  inv : Inv c s R (W ++ U)
  local_passed : 0 ∉ W
  passed : s.filling + W.length = unreadyStart + i
  left : unready = i + U.length

section Loop

variable {c c' : ℤ → ℤ → ℤ} {f : ℕ} {s : Conns} {R W U : List ℤ} {x : ℤ} {i u : ℕ}

theorem LoopInv.recmp (h : LoopInv c f s R W U i u) (hc : ∀ a ∈ R, ∀ b ∈ R, c' a b = c a b) :
    LoopInv c' f s R W U i u :=
  { h with inv := h.inv.recmp hc }

/-- While the loop runs, there is a connection still to look at. -/
theorem LoopInv.exists_cons (h : LoopInv c f s R W U i u) (hi : i < u) : ∃ x U', U = x :: U' := by
  refine List.exists_cons_of_ne_nil fun hU => ?_
  have := h.left
  simp only [hU, List.length_nil, Nat.add_zero] at this
  omega

/-- The place the loop looks at holds the next connection to look at. -/
theorem LoopInv.getD (h : LoopInv c f s R W (x :: U) i u) :
    s.order.getD ((s.topIdx + f + i) % s.nconns) (-1) = x := by
  have hl := h.inv.layout
  have hR := hl.length_ready
  have hact := hl.length_active
  have hle := hl.active_le
  simp only [List.length_append, List.length_cons] at hact
  have hk : s.topIdx + f + i = s.topIdx + (R.length + W.length) := by
    have := h.passed
    omega
  rw [hk, hl.getD_add_mod (by omega), Circ.getD_append_add _ _ _ (by simp)]
  simp

theorem LoopInv.nonneg (h : LoopInv c f s R W (x :: U) i u) : 0 ≤ x :=
  (h.inv.range x (by simp)).1

/-- Connection `0` is only looked at last, with nothing passed over. -/
theorem LoopInv.local_last (h : LoopInv c f s R W (0 :: U) i u) : W = [] ∧ U = [] := by
  have h0 := h.inv.local_alone (by simp)
  rcases W with _ | ⟨w, W⟩
  · simpa using h0
  · simp only [List.cons_append, List.cons.injEq, List.append_eq_nil_iff, reduceCtorEq,
      and_false] at h0

/-- ... so connection `0` is not among those still to look at after another one. -/
theorem LoopInv.zero_not_mem (h : LoopInv c f s R W (x :: U) i u) : 0 ∉ U := by
  intro h0
  have := h.inv.local_alone (by simp [h0])
  rw [List.append_eq_singleton_iff] at this
  rcases this with ⟨-, hU⟩ | ⟨-, hU⟩ <;> simp_all

/-- A connection with a queued row joins the queued ones; the connection it
swaps places with is the first one passed over, which goes to the end of
those. -/
theorem LoopInv.row [Std.TransCmp (Cmp.ordOf c)] (h : LoopInv c f s R W (x :: U) i u) :
    LoopInv c f (s.moveClientRow c ((s.topIdx + f + i) % s.nconns))
      (R.orderedInsert (fun a b => Cmp.ordOf c a b = .lt) x) (W.rotate 1) U (i + 1) u := by
  have hl := h.inv.layout
  have hidx : s.topIdx + f + i = s.topIdx + s.filling + W.length := by
    have := h.passed
    omega
  have hrow := hl.moveClientRow h.inv.sorted (j := W.length) (by simp)
  rw [← hidx, Circ.tail_set_getElem_zero] at hrow
  simp only [List.getElem_append_right (Nat.le_refl _), Nat.sub_self, List.getElem_cons_zero] at hrow
  have hperm : (R.orderedInsert (fun a b => Cmp.ordOf c a b = .lt) x ++ (W.rotate 1 ++ U)).Perm
      (R ++ (W ++ x :: U)) := by
    refine ((List.perm_orderedInsert _ _ _).append ((W.rotate_perm 1).append_right U)).trans ?_
    exact ((List.perm_middle.append_left R).trans List.perm_middle).symm
  have hzero : 0 ∉ W.rotate 1 ++ U := by
    simpa [List.mem_rotate] using ⟨h.local_passed, h.zero_not_mem⟩
  refine ⟨h.inv.of_subperm hrow (Cmp.sorted_orderedInsert _ h.inv.sorted) (by simp) hperm.subperm
    (fun h0 => absurd h0 hzero), by simpa [List.mem_rotate] using h.local_passed, ?_, ?_⟩
  · have := h.passed
    have := hl.length_ready
    have := hrow.length_ready
    simp only [List.orderedInsert_length, List.length_rotate] at *
    omega
  · have := h.left
    simp only [List.length_cons] at this
    omega

/-- A finished connection leaves; the last active connection takes its place
and is looked at next. -/
theorem LoopInv.done (h : LoopInv c f s R W (x :: U) i u) :
    ∃ U', U' ⊆ U ∧ LoopInv c f (s.moveClientDone ((s.topIdx + f + i) % s.nconns)) R W U' i (u - 1) := by
  have hidx : s.topIdx + f + i = s.topIdx + s.filling + W.length := by
    have := h.passed
    omega
  have hzero := h.zero_not_mem
  have hleft := h.left
  simp only [List.length_cons] at hleft
  rcases List.eq_nil_or_concat' U with rfl | ⟨U₂, z, rfl⟩
  · -- the connection was the last active one: its cell is freed
    have hl : Layout s R (W ++ [x]) := by simpa using h.inv.layout
    have hd := hl.moveClientDone (j := W.length) le_rfl
    rw [← hidx, List.set_eq_of_length_le le_rfl] at hd
    refine ⟨[], List.Subset.refl _, h.inv.of_subperm (by simpa using hd) h.inv.sorted (by simp) ?_ ?_,
      h.local_passed, by simpa using h.passed, by simp at hleft ⊢; omega⟩
    · simpa using (((List.sublist_append_left W [x]).append_left R)).subperm
    · simpa using fun h0 => absurd h0 h.local_passed
  · -- the last active connection `z` takes its place
    have hl : Layout s R ((W ++ x :: U₂) ++ [z]) := by simpa using h.inv.layout
    have hd := hl.moveClientDone (j := W.length) (by simp)
    rw [← hidx, List.set_append_right _ _ (Nat.le_refl _), Nat.sub_self, List.set_cons_zero] at hd
    refine ⟨z :: U₂, fun a ha => by simp at ha ⊢; tauto, h.inv.of_subperm hd h.inv.sorted (by simp) ?_ ?_,
      h.local_passed, by simpa using h.passed, by simp at hleft ⊢; omega⟩
    · exact ⟨_, ((List.perm_append_singleton z U₂).append_left W).append_left R,
        ((List.sublist_cons_self x _).append_left W).append_left R⟩
    · intro h0
      have hW := h.local_passed
      simp only [List.mem_append, List.mem_cons, not_or] at h0 hzero
      rcases h0 with h0 | h0 | h0
      · exact absurd h0 hW
      · exact absurd h0 hzero.2.1
      · exact absurd h0 hzero.1

/-- A connection with nothing queued yet is passed over. -/
theorem LoopInv.wait (h : LoopInv c f s R W (x :: U) i u) (hx : x ≠ 0) :
    LoopInv c f s R (W ++ [x]) U (i + 1) u where
  inv := by simpa using h.inv
  local_passed := by simpa [hx.symm] using h.local_passed
  passed := by
    have := h.passed
    simp only [List.length_append, List.length_singleton]
    omega
  left := by
    have := h.left
    simp only [List.length_cons] at this
    omega

end Loop

/-! ## The queues -/

/-- What `_cmp` reads of a queue looks the same in `q'`: empty or not, and its
first row. -/
def SameHead (q q' : List (List V)) : Prop := (q = [] ↔ q' = []) ∧ q.headD [] = q'.headD []

theorem SameHead.refl (q : List (List V)) : SameHead q q := ⟨Iff.rfl, rfl⟩

/-- Rows added behind the first are not seen by `_cmp`. -/
theorem sameHead_append {q : List (List V)} (h : q ≠ []) (l : List (List V)) : SameHead q (q ++ l) := by
  obtain ⟨x, q, rfl⟩ := List.exists_cons_of_ne_nil h
  simp [SameHead]

namespace Merge

variable {m : Merge V}

/-- What connection `i` has still to give: its queue, then the rows its
statement has not produced yet. -/
def rest (m : Merge V) (i : ℤ) : List (List V) := m.que i ++ (m.stream i).drop (m.sent i)

@[simp] theorem produce_conns (i : ℤ) : (m.produce i).conns = m.conns := rfl
@[simp] theorem produce_row (i : ℤ) : (m.produce i).row = m.row := rfl
@[simp] theorem produce_stream (i : ℤ) : (m.produce i).stream = m.stream := rfl

theorem que_produce (i : ℤ) : (m.produce i).que i = m.que i ++ [(m.stream i).getD (m.sent i) []] := by
  simp [produce]

theorem que_produce_of_ne {i j : ℤ} (h : j ≠ i) : (m.produce i).que j = m.que j := by
  simp [produce, h]

/-- The row produced is the first the statement had not produced yet. -/
theorem rest_produce {i : ℤ} (hs : m.sent i < (m.stream i).length) (j : ℤ) :
    (m.produce i).rest j = m.rest j := by
  by_cases hj : j = i
  · subst hj
    rw [rest, rest, que_produce, List.drop_eq_getElem_cons hs]
    simp [produce, List.getD_eq_getElem?_getD, List.getElem?_eq_getElem hs]
  · simp [rest, produce, hj]

/-- `_cmp` sees no change at a connection other than `i`, or at one with a row. -/
theorem sameHead_produce {i x : ℤ} (hx : x = i → m.que x ≠ []) :
    SameHead (m.que x) ((m.produce i).que x) := by
  by_cases h : x = i
  · subst h
    rw [que_produce]
    exact sameHead_append (hx rfl) _
  · rw [que_produce_of_ne h]
    exact SameHead.refl _

@[simp] theorem takeTop_conns : m.takeTop.conns = m.conns.qTop.2 := rfl
@[simp] theorem takeTop_stream : m.takeTop.stream = m.stream := rfl
@[simp] theorem takeTop_row : m.takeTop.row = (m.que m.conns.qTop.1).head? := rfl

theorem que_takeTop_of_ne {x : ℤ} (h : x ≠ m.conns.qTop.1) : m.takeTop.que x = m.que x := by
  simp [takeTop, h]

/-- The row taken leaves what its connection has still to give. -/
theorem rest_takeTop {v : List V} {q : List (List V)} (hq : m.que m.conns.qTop.1 = v :: q) :
    m.rest m.conns.qTop.1 = v :: m.takeTop.rest m.conns.qTop.1 := by
  simp [rest, takeTop, hq]

theorem rest_takeTop_of_ne {x : ℤ} (h : x ≠ m.conns.qTop.1) : m.takeTop.rest x = m.rest x := by
  simp [rest, takeTop, h]

end Merge

/-- A step of the coordinator's statement gives a row only while it has one. -/
theorem initNextRow_row {m : Merge V} {env : Env} (henv : env.Wf) (h : initNextRow env m = sqliteRow) :
    m.sent 0 < (m.stream 0).length := by
  unfold initNextRow at h
  rcases hs : env.stepErr with _ | rc
  · rw [hs] at h
    by_contra hlt
    rw [if_neg hlt] at h
    exact absurd h (by decide)
  · rw [hs] at h
    exact absurd h (henv.1 rc hs).2.1

section Compare

variable [Inhabited V]

/-- The order the rows go in. -/
def OrderBy.ord (o : OrderBy V) : List V → List V → Ordering := Cmp.ordOf o.rows

namespace Merge

variable {o : OrderBy V} {m m' : Merge V}

/-- `_cmp` of two connections whose queues look the same to it. -/
theorem cmp_congr {a b : ℤ} (ha : SameHead (m.que a) (m'.que a)) (hb : SameHead (m.que b) (m'.que b)) :
    m'.cmp o a b = m.cmp o a b := by
  simp only [cmp, cmpConns, queues, List.length_eq_zero_iff, ← ha.1, ← hb.1, ← ha.2, ← hb.2]

theorem cmp_agree {R : List ℤ} (h : ∀ x ∈ R, SameHead (m.que x) (m'.que x)) :
    ∀ a ∈ R, ∀ b ∈ R, m'.cmp o a b = m.cmp o a b :=
  fun a ha b hb => cmp_congr (h a ha) (h b hb)

/-- `_cmp` of two connections with rows compares their first rows. -/
theorem cmp_eq_rows {a b : ℤ} (ha : m.que a ≠ []) (hb : m.que b ≠ []) :
    m.cmp o a b = o.rows ((m.que a).headD []) ((m.que b).headD []) := by
  simp [cmp, cmpConns, queues, ha, hb, OrderBy.rows]

end Merge

/-! ## The invariant of the queues -/

/-- The queues between passes, for the queued connections `R` and the waiting
ones `U`: each queued connection has a row; each statement returns its rows in
the `ORDER BY` order, and what a connection has still to give is the end of
them; and the current row goes before everything an active connection has still
to give. -/
structure Rows (o : OrderBy V) (m : Merge V) (R U : List ℤ) : Prop where
  ready : ∀ x ∈ R, m.que x ≠ []
  sorted : ∀ i, Cmp.Sorted o.ord (m.stream i)
  rest_suffix : ∀ i, m.rest i <:+ m.stream i
  above : ∀ r, m.row = some r → ∀ i ∈ R ++ U, ∀ v ∈ m.rest i, (o.ord r v).isLE

/-- The merge between passes: the order of the connections and their queues. -/
structure Queued (o : OrderBy V) (m : Merge V) (R U : List ℤ) : Prop where
  order : Inv (m.cmp o) m.conns R U
  rows : Rows o m R U

section Rows

variable {o : OrderBy V} {m m' : Merge V} {R U R' U' : List ℤ}

/-- What a connection has still to give is in order. -/
theorem Rows.sorted_rest (h : Rows o m R U) (i : ℤ) : Cmp.Sorted o.ord (m.rest i) :=
  (h.sorted i).sublist (h.rest_suffix i).sublist

/-- The facts carry over to a merge with the same rows to give and the same
current row, for active connections among the old ones. -/
theorem Rows.transfer (h : Rows o m R U) (hs : m'.stream = m.stream) (hrest : ∀ i, m'.rest i = m.rest i)
    (hrow : m'.row = m.row) (hready : ∀ x ∈ R', m'.que x ≠ []) (hsub : ∀ x ∈ R' ++ U', x ∈ R ++ U) :
    Rows o m' R' U' where
  ready := hready
  sorted i := hs ▸ h.sorted i
  rest_suffix i := by rw [hrest, hs]; exact h.rest_suffix i
  above r hr i hi v hv := h.above r (hrow ▸ hr) i (hsub i hi) v (hrest i ▸ hv)

end Rows

/-! ## The slow path -/

/-- The loop stops at its test. -/
theorem slowLoop_of_le {o : OrderBy V} {env : Env} {f : ℕ} {m : Merge V} {i u : ℕ} (h : u ≤ i)
    (rc : ℤ) : slowLoop o env f m i u rc = some (rc, m) := by
  rw [slowLoop, if_neg (by omega)]

theorem localStep_row {o : OrderBy V} {env : Env} {m : Merge V} (idx : ℕ) :
    (localStep o env m idx).2.row = m.row := by
  simp only [localStep]
  split_ifs <;> rfl

/-- The local step returns no row: it returns `SQLITE_OK` or the error. -/
theorem localStep_ne_row {o : OrderBy V} {env : Env} {m : Merge V} (idx : ℕ) :
    (localStep o env m idx).1 ≠ sqliteRow := by
  simp only [localStep]
  split_ifs with hrow
  · exact (by decide : sqliteOk ≠ sqliteRow)
  · exact (by decide : sqliteOk ≠ sqliteRow)
  · exact hrow

/-- The slow path's loop returns no row: its code is `SQLITE_OK`, the local
step's error, or `SQLITE_EARLYSTOP_DOHSQL`. -/
theorem slowLoop_ne_row {o : OrderBy V} {env : Env} {f : ℕ} (m : Merge V) (i u : ℕ) (rc : ℤ)
    (hrc : rc ≠ sqliteRow) : ∀ rc' m', slowLoop o env f m i u rc = some (rc', m') → rc' ≠ sqliteRow := by
  fun_induction slowLoop o env f m i u rc with
  | case1 =>
    intro rc' m' h
    cases h
  | case2 m i u rc _ _ _ _ _ _ ih => exact ih hrc
  | case3 m i u rc _ _ _ _ _ _ _ ih => exact ih hrc
  | case4 =>
    intro rc' m' h
    cases h
    exact (by decide : sqliteEarlystopDohsql ≠ sqliteRow)
  | case5 m i u rc _ _ _ _ _ _ _ _ ih => exact ih hrc
  | case6 m i u rc _ _ _ _ _ ih => exact ih (localStep_ne_row _)
  | case7 =>
    intro rc' m' h
    cases h
    exact hrc

section Slow

variable {o : OrderBy V} [Std.TransCmp (Cmp.ordOf o.memCompare)] {m : Merge V} {env : Env} {f i u : ℕ}
  {R W U : List ℤ}

/-- With a total preorder on values, `_cmp` on connections is one, whatever the
queues hold. -/
theorem Merge.transCmp_cmp (m : Merge V) : Std.TransCmp (Cmp.ordOf (m.cmp o)) :=
  transCmp_cmpConns o.orderDir m.queues

/-- The local step, when the loop reaches connection `0`, the only connection
still waiting: its row is queued and inserted, or its end removes it, or its
error leaves the order as it is.  The current row stays. -/
theorem localStep_spec (henv : env.Wf) (hl : LoopInv (m.cmp o) f m.conns R [] [0] i u)
    (hr : Rows o m R [0]) :
    (∃ R' U', Queued o (localStep o env m ((m.conns.topIdx + f + i) % m.conns.nconns)).2 R' U') ∧
      (localStep o env m ((m.conns.topIdx + f + i) % m.conns.nconns)).2.row = m.row := by
  have h0R : (0 : ℤ) ∉ R := by
    have hnd := hl.inv.nodup
    simp only [List.nil_append, List.nodup_append, List.mem_singleton] at hnd
    exact fun h0 => hnd.2.2 0 h0 0 rfl rfl
  simp only [localStep]
  split_ifs with hrow hdone
  · -- a row: queued for connection `0`, which is then inserted
    have hs := initNextRow_row henv hrow
    set m₁ : Merge V := { m with rc := Function.update m.rc 0 (initNextRow env m) }
    have hagree : ∀ a ∈ R, ∀ b ∈ R, (m₁.produce 0).cmp o a b = m.cmp o a b :=
      Merge.cmp_agree fun x hx => Merge.sameHead_produce (m := m₁) fun h => absurd (h ▸ hx : (0 : ℤ) ∈ R) h0R
    have := (m₁.produce 0).transCmp_cmp (o := o)
    have hl' := (hl.recmp hagree).row
    refine ⟨⟨_, [], by have h := hl'.inv; simp only [List.rotate_nil, List.append_nil] at h; exact h,
      hr.transfer rfl (Merge.rest_produce (m := m₁) hs) rfl ?_ ?_⟩, rfl⟩
    · intro x hx
      rcases (List.mem_orderedInsert _).1 hx with rfl | hx
      · simp [Merge.que_produce]
      · rw [Merge.que_produce_of_ne (fun h : x = 0 => h0R (h ▸ hx))]
        exact hr.ready x hx
    · intro x hx
      simp only [List.append_nil, List.mem_orderedInsert] at hx
      simp only [List.mem_append, List.mem_singleton]
      tauto
  · -- its end: connection `0` leaves
    obtain ⟨U', hU', hl'⟩ := hl.done
    rw [List.eq_nil_of_subset_nil hU'] at hl'
    refine ⟨⟨R, [], by have h := hl'.inv; simp only [List.nil_append] at h; exact h,
      hr.transfer rfl (fun _ => rfl) rfl hr.ready fun x hx => ?_⟩, rfl⟩
    simp only [List.append_nil] at hx
    exact List.mem_append_left _ hx
  · -- an error: stored, and returned
    exact ⟨⟨R, [0], by have h := hl.inv; simp only [List.nil_append] at h; exact h,
      hr.transfer rfl (fun _ => rfl) rfl hr.ready fun _ hx => hx⟩, rfl⟩

/-- The slow path's loop ends, without reaching the failed assertion, in a merge
that keeps the invariant, and the current row stays.  The induction follows the
loop: each place it looks at keeps `LoopInv`. -/
theorem slowLoop_spec (henv : env.Wf) (m : Merge V) (i u : ℕ) (rc : ℤ) :
    ∀ R W U, LoopInv (m.cmp o) f m.conns R W U i u → Rows o m R (W ++ U) →
      ∃ rc' m', slowLoop o env f m i u rc = some (rc', m') ∧ (∃ R' U', Queued o m' R' U') ∧
        m'.row = m.row := by
  fun_induction slowLoop o env f m i u rc with
  | case1 m i u rc hc idx queIdx hneg =>
    -- the place holds a connection number, never `-1`
    intro R W U hl hr
    obtain ⟨x, U, rfl⟩ := hl.exists_cons hc.1
    have hq : queIdx = x := hl.getD
    exact absurd hneg (not_lt.2 (hq ▸ hl.nonneg))
  | case2 m i u rc hc idx queIdx hneg hne hlen ih =>
    intro R W U hl hr
    obtain ⟨x, U, rfl⟩ := hl.exists_cons hc.1
    have hq : queIdx = x := hl.getD
    have := m.transCmp_cmp (o := o)
    refine ih _ _ _ hl.row (hr.transfer rfl (fun _ => rfl) rfl ?_ ?_)
    · intro y hy
      rcases (List.mem_orderedInsert _).1 hy with rfl | hy
      · exact List.ne_nil_of_length_pos (hq ▸ hlen)
      · exact hr.ready y hy
    · intro y hy
      simp only [List.mem_append, List.mem_orderedInsert, List.mem_rotate, List.mem_cons] at hy ⊢
      tauto
  | case3 m i u rc hc idx queIdx hneg hne hlen hdone ih =>
    intro R W U hl hr
    obtain ⟨x, U, rfl⟩ := hl.exists_cons hc.1
    obtain ⟨U', hU', hl'⟩ := hl.done
    refine ih _ _ _ hl' (hr.transfer rfl (fun _ => rfl) rfl hr.ready ?_)
    intro y hy
    simp only [List.mem_append, List.mem_cons] at hy ⊢
    rcases hy with hy | hy | hy
    · exact .inl hy
    · exact .inr (.inl hy)
    · exact .inr (.inr (.inr (hU' hy)))
  | case4 m i u rc hc idx queIdx hneg hne hlen hdone herr =>
    -- a failed child: the order is as the loop left it
    intro R W U hl hr
    exact ⟨_, _, rfl, ⟨R, W ++ U, hl.inv, hr⟩, rfl⟩
  | case5 m i u rc hc idx queIdx hneg hne hlen hdone hrow ih =>
    intro R W U hl hr
    obtain ⟨x, U, rfl⟩ := hl.exists_cons hc.1
    have hq : queIdx = x := hl.getD
    exact ih _ _ _ (hl.wait (hq ▸ hne)) (by rwa [List.append_assoc, List.singleton_append])
  | case6 m i u rc hc idx queIdx hneg hzero ih =>
    -- connection `0` is the last to look at: the loop stops after its step
    intro R W U hl hr
    obtain ⟨x, U, rfl⟩ := hl.exists_cons hc.1
    have hq : queIdx = x := hl.getD
    have hx : x = 0 := by rw [← hq]; simpa using hzero
    subst hx
    obtain ⟨rfl, rfl⟩ := hl.local_last
    have hu : u ≤ i + 1 := by
      have := hl.left
      simp at this
      omega
    rw [slowLoop_of_le hu]
    exact ⟨_, _, rfl, localStep_spec henv hl hr⟩
  | case7 m i u rc hc =>
    intro R W U hl hr
    exact ⟨_, _, rfl, ⟨R, W ++ U, hl.inv, hr⟩, rfl⟩

end Slow

/-! ## A pass -/

section Pass

variable {o : OrderBy V} [Std.TransCmp (Cmp.ordOf o.memCompare)] {m m' : Merge V} {env : Env}
  {R U : List ℤ}

/-- The current row goes on: when there is one, the next one goes after it. -/
def RowStep (o : OrderBy V) (m m' : Merge V) : Prop := ∀ r ∈ m.row, ∃ r' ∈ m'.row, (o.ord r r').isLE

omit [Std.TransCmp (Cmp.ordOf o.memCompare)] in
/-- With a total preorder on values, the `ORDER BY` is one on rows. -/
theorem OrderBy.transCmp_ord (o : OrderBy V) [Std.TransCmp (Cmp.ordOf o.memCompare)] :
    Std.TransCmp o.ord :=
  transCmp_cmpColumns o.orderDir

theorem RowStep.of_eq (h : m'.row = m.row) : RowStep o m m' := by
  have := o.transCmp_ord
  intro r hr
  exact ⟨r, h ▸ hr, Std.ReflCmp.isLE_rfl⟩

omit [Std.TransCmp (Cmp.ordOf o.memCompare)] in
/-- The invariant depends only on the order, the queues, the statements and the
current row. -/
theorem Queued.congr (h : Queued o m R U) (hc : m'.conns = m.conns) (hq : m'.que = m.que)
    (hs : m'.stream = m.stream) (hse : m'.sent = m.sent) (hr : m'.row = m.row) : Queued o m' R U := by
  have hcmp : m'.cmp o = m.cmp o := by simp only [Merge.cmp, Merge.queues, hq]
  have hrest : ∀ i, m'.rest i = m.rest i := fun i => by simp only [Merge.rest, hq, hs, hse]
  exact ⟨by rw [hcmp, hc]; exact h.order,
    h.rows.transfer hs hrest hr (fun x hx => hq ▸ h.rows.ready x hx) fun _ hx => hx⟩

/-- The first row of the first queued connection goes before everything a
queued connection has still to give: `_cmp` put it first, and each statement
gives its rows in order. -/
theorem Queued.head_le_rest {r : ℤ} {v : List V} {q : List (List V)} (h : Queued o m (r :: R) U)
    (hq : m.que r = v :: q) : ∀ i ∈ r :: R, ∀ w ∈ m.rest i, (o.ord v w).isLE := by
  have := o.transCmp_ord
  intro i hi w hw
  obtain ⟨u, q', hu⟩ := List.exists_cons_of_ne_nil (h.rows.ready i hi)
  have hvu : (o.ord v u).isLE := by
    rcases List.mem_cons.1 hi with rfl | hi'
    · obtain rfl : v = u := List.head_eq_of_cons_eq (hq.symm.trans hu)
      exact Std.ReflCmp.isLE_rfl
    · have hc := List.rel_of_pairwise_cons h.order.sorted hi'
      rw [Cmp.isLE_ordOf, Merge.cmp_eq_rows (h.rows.ready r (by simp)) (h.rows.ready i hi), hq, hu] at hc
      exact Cmp.isLE_ordOf.2 hc
  have hs := h.rows.sorted_rest i
  rw [Merge.rest, hu, List.cons_append] at hs hw
  rcases List.mem_cons.1 hw with rfl | hw
  · exact hvu
  · exact Std.TransCmp.isLE_trans hvu (List.rel_of_pairwise_cons hs hw)

/-- The fast path: with every active connection queued, `q_top` takes the first
one, whose first row goes before the first row of every other.  The invariant
stays, and the row taken goes after the current row. -/
theorem Queued.takeTop (h : Queued o m R U) (hf : m.conns.filling = m.conns.active)
    (ha : m.conns.active ≠ 0) : (∃ R' U', Queued o m.takeTop R' U') ∧ RowStep o m m.takeTop := by
  have hl := h.order.layout
  have hR := hl.length_ready
  have hA := hl.length_active
  -- all active connections are queued, so `U` is empty and `R` is not
  obtain rfl : U = [] := List.eq_nil_of_length_eq_zero (by omega)
  obtain ⟨r, R, rfl⟩ : ∃ r R', R = r :: R' :=
    List.exists_cons_of_ne_nil (List.ne_nil_of_length_pos (by simp at hA; omega))
  obtain ⟨hr, hl'⟩ := hl.qTop
  obtain ⟨v, q, hq⟩ := List.exists_cons_of_ne_nil (h.rows.ready r (by simp))
  have hq' : m.que m.conns.qTop.1 = v :: q := by rw [hr]; exact hq
  have hnd := h.order.nodup
  simp only [List.append_nil, List.nodup_cons] at hnd
  have hne : ∀ x ∈ R, x ≠ m.conns.qTop.1 := fun x hx hx' => hnd.1 (hr ▸ hx' ▸ hx)
  have hord := o.transCmp_ord
  -- the queued connections after `r` keep their first rows
  have hagree : ∀ a ∈ R, ∀ b ∈ R, m.takeTop.cmp o a b = m.cmp o a b :=
    Merge.cmp_agree fun x hx => by rw [Merge.que_takeTop_of_ne (hne x hx)]; exact SameHead.refl _
  have hinv : Inv (m.cmp o) m.takeTop.conns R [r] :=
    h.order.of_subperm (by simpa using hl') h.order.sorted.of_cons (by simp)
      (by simpa using (List.perm_append_singleton r R).subperm)
      (fun h0 => by rw [List.mem_singleton] at h0; rw [← h0])
  have hrow : m.takeTop.row = some v := by simp [hr, hq]
  -- the row taken goes before what every active connection has still to give
  have habove : ∀ i ∈ R ++ [r], ∀ w ∈ m.takeTop.rest i, (o.ord v w).isLE := by
    intro i hi w hw
    rcases List.mem_append.1 hi with hi | hi
    · rw [Merge.rest_takeTop_of_ne (hne i hi)] at hw
      exact h.head_le_rest hq i (List.mem_cons_of_mem r hi) w hw
    · rw [List.mem_singleton.1 hi, ← hr] at hw
      have hw' : w ∈ m.rest m.conns.qTop.1 := by
        rw [Merge.rest_takeTop hq']
        exact List.mem_cons_of_mem v hw
      exact h.head_le_rest hq _ (by simp [hr]) w hw'
  refine ⟨⟨R, [r], hinv.recmp hagree, ?_⟩, fun r₀ hr₀ => ⟨v, hrow, ?_⟩⟩
  · refine ⟨fun x hx => ?_, h.rows.sorted, fun i => ?_, fun r' hr' => ?_⟩
    · rw [Merge.que_takeTop_of_ne (hne x hx)]
      exact h.rows.ready x (by simp [hx])
    · by_cases hi : i = m.conns.qTop.1
      · subst hi
        have hsuf := h.rows.rest_suffix m.conns.qTop.1
        rw [Merge.rest_takeTop hq'] at hsuf
        exact (List.suffix_cons v _).trans hsuf
      · rw [Merge.rest_takeTop_of_ne hi]
        exact h.rows.rest_suffix i
    · rw [hrow, Option.some.injEq] at hr'
      exact hr' ▸ habove
  · have hv : v ∈ m.rest r := by simp [Merge.rest, hq]
    exact h.rows.above r₀ hr₀ r (by simp) v hv

/-- **A pass** never reaches the failed assertion; the merge it leaves keeps the
invariant, and the current row goes on. -/
theorem pass_spec (henv : env.Wf) (h : Queued o m R U) :
    (pass o env m).Holds fun m' => (∃ R' U', Queued o m' R' U') ∧ RowStep o m m' := by
  have hl := h.order.layout
  unfold pass
  by_cases ha : m.conns.active = 0
  · rw [if_pos ha]
    exact ⟨⟨R, U, h⟩, RowStep.of_eq rfl⟩
  rw [if_neg ha]
  by_cases hf : m.conns.filling = m.conns.active
  · -- the fast path
    rw [if_pos hf]
    by_cases hlim : checkLimit m
    · rw [if_pos hlim]
      exact ⟨⟨R, U, h⟩, RowStep.of_eq rfl⟩
    rw [if_neg hlim]
    obtain ⟨⟨R', U', h'⟩, hstep⟩ := h.takeTop hf ha
    dsimp only
    -- the row taken is skipped while the `OFFSET` lasts, or returned
    split_ifs
    · exact ⟨⟨R', U', h'.congr rfl rfl rfl rfl rfl⟩, hstep⟩
    · exact ⟨⟨R', U', h'.congr rfl rfl rfl rfl rfl⟩, hstep⟩
  · -- the slow path looks at the `U` connections from the first waiting one
    rw [if_neg hf]
    have hloop : LoopInv (m.cmp o) m.conns.filling m.conns R [] U 0
        (m.conns.active - m.conns.filling) := by
      refine ⟨by simpa only [List.nil_append] using h.order, List.not_mem_nil, rfl, ?_⟩
      have := hl.length_ready
      have := hl.length_active
      omega
    obtain ⟨rc, m', heq, ⟨R', U', h'⟩, hrow⟩ :=
      slowLoop_spec henv m 0 _ sqliteOk R [] U hloop (by simpa only [List.nil_append] using h.rows)
    rw [heq]
    dsimp only
    split_ifs <;> exact ⟨⟨R', U', h'⟩, RowStep.of_eq hrow⟩

omit [Std.TransCmp (Cmp.ordOf o.memCompare)] in
/-- A pass returns a row only from the fast path, which counts it. -/
theorem pass_row (henv : env.Wf) (h : pass o env m = .ret sqliteRow m') : m'.nrows ≠ 0 := by
  unfold pass at h
  by_cases ha : m.conns.active = 0
  · rw [if_pos ha] at h
    exact absurd (Outcome.ret.inj h).1 (by decide)
  rw [if_neg ha] at h
  by_cases hf : m.conns.filling = m.conns.active
  · rw [if_pos hf] at h
    by_cases hlim : checkLimit m
    · rw [if_pos hlim] at h
      exact absurd (Outcome.ret.inj h).1 (by decide)
    rw [if_neg hlim] at h
    dsimp only at h
    -- a skipped row goes round again
    split_ifs at h
    cases h
    exact Nat.succ_ne_zero _
  · -- the slow path returns an error, or goes round again
    rw [if_neg hf] at h
    rcases hl : slowLoop o env m.conns.filling m 0 (m.conns.active - m.conns.filling) sqliteOk
      with _ | ⟨rc, m₁⟩
    · rw [hl] at h
      cases h
    · rw [hl] at h
      dsimp only at h
      have hrc := slowLoop_ne_row m 0 _ sqliteOk (by decide) rc m₁ hl
      split_ifs at h
      · exact absurd (Outcome.ret.inj h).1 hrc
      · exact absurd (Outcome.ret.inj h).1 henv.2
      · exact absurd (Outcome.ret.inj h).1 (by decide)

/-! ## The first call -/

/-- A merge before its first call: `order_init`'s order, no row yet, and each
statement's rows in the `ORDER BY` order, of which what a connection has still
to give is the end. -/
structure Fresh (o : OrderBy V) (m : Merge V) : Prop where
  nrows : m.nrows = 0
  nconns_pos : 0 < m.conns.nconns
  conns : m.conns = orderInit m.conns.nconns
  row : m.row = none
  sorted : ∀ i, Cmp.Sorted o.ord (m.stream i)
  rest_suffix : ∀ i, m.rest i <:+ m.stream i

omit [Std.TransCmp (Cmp.ordOf o.memCompare)] in
/-- Before the first row there is no current row for the rows to go after. -/
theorem Fresh.rows (h : Fresh o m) (hready : ∀ x ∈ R, m.que x ≠ []) : Rows o m R U where
  ready := hready
  sorted := h.sorted
  rest_suffix := h.rest_suffix
  above r hr := by simp [h.row] at hr

omit [Inhabited V] [Std.TransCmp (Cmp.ordOf o.memCompare)] in
/-- `order_init`'s order: no connection queued, and every one waiting, `0`
first. -/
theorem layout_orderInit_cons {n : ℕ} (h : 0 < n) :
    ∃ T, Layout (orderInit n) [] (0 :: T) ∧ (0 :: T).Nodup ∧ ∀ x ∈ 0 :: T, 0 ≤ x ∧ x < n := by
  obtain ⟨k, rfl⟩ : ∃ k, n = k + 1 := ⟨n - 1, by omega⟩
  have hU : (List.range (k + 1)).map Int.ofNat = 0 :: (List.range k).map fun i => ((i + 1 : ℕ) : ℤ) := by
    simp [List.range_succ_eq_map, Function.comp_def]
  refine ⟨_, hU ▸ layout_orderInit h, hU ▸ List.nodup_range.map Int.ofNat_injective, ?_⟩
  rw [← hU]
  intro x hx
  obtain ⟨a, ha, rfl⟩ := List.mem_map.1 hx
  simp only [List.mem_range, Int.ofNat_eq_natCast] at ha ⊢
  omega

omit [Inhabited V] [Std.TransCmp (Cmp.ordOf o.memCompare)] in
/-- A step of the coordinator's statement never returns `SQLITE_OK`. -/
theorem initNextRow_ne_ok (henv : env.Wf) : initNextRow env m ≠ sqliteOk := by
  unfold initNextRow
  rcases hs : env.stepErr with _ | rc
  · dsimp only
    split_ifs <;> decide
  · exact (henv.1 rc hs).1

/-- The first call steps the coordinator's statement on `order_init`'s order:
its row is queued and inserted, or its end removes it, and the merge keeps the
invariant; or its error is returned. -/
theorem localStep_fresh (henv : env.Wf) (h : Fresh o m) (hok : (localStep o env m 0).1 = sqliteOk) :
    ∃ R U, Queued o (localStep o env m 0).2 R U := by
  obtain ⟨T, hl, hnd, hrange⟩ := layout_orderInit_cons h.nconns_pos
  rw [← h.conns] at hl
  have h0 : (m.conns.topIdx + m.conns.filling + 0) % m.conns.nconns = 0 := by
    rw [h.conns]
    simp [orderInit]
  have h0T : (0 : ℤ) ∉ T := (List.nodup_cons.1 hnd).1
  revert hok
  simp only [localStep]
  split_ifs with hrow hdone
  · -- a row: connection `0` is the one queued connection
    intro _
    have hs := initNextRow_row henv hrow
    set m₁ : Merge V := { m with rc := Function.update m.rc 0 (initNextRow env m) }
    have := (m₁.produce 0).transCmp_cmp (o := o)
    have hl' := hl.moveClientRow (c := (m₁.produce 0).cmp o) List.Pairwise.nil (j := 0) (by simp)
    rw [h0] at hl'
    simp only [List.getElem_cons_zero, List.orderedInsert_nil, List.set_cons_zero, List.tail_cons] at hl'
    refine ⟨[0], T, ⟨hl', List.pairwise_singleton _ _, hnd, fun x hx => ?_, fun h0' => absurd h0' h0T⟩,
      (h.rows (R := []) (U := 0 :: T) (by simp)).transfer rfl (Merge.rest_produce (m := m₁) hs) rfl
        (fun x hx => ?_) (by simp)⟩
    · simpa using hrange x (by simpa using hx)
    · rw [List.mem_singleton.1 hx]
      show (m₁.produce 0).que 0 ≠ []
      simp [Merge.que_produce]
  · -- its end: the last connection takes cell `0`
    intro _
    rcases List.eq_nil_or_concat' T with rfl | ⟨T', z, rfl⟩
    · have hd := (show Layout m.conns [] ([] ++ [0]) by simpa using hl).moveClientDone (j := 0) le_rfl
      rw [h0] at hd
      exact ⟨[], [], ⟨by simpa using hd, List.Pairwise.nil, List.nodup_nil, by simp, by simp⟩,
        (h.rows (R := []) (U := []) (by simp)).transfer rfl (fun _ => rfl) rfl (by simp) fun _ hx => hx⟩
    · have hd := (show Layout m.conns [] ((0 :: T') ++ [z]) by simpa using hl).moveClientDone
        (j := 0) (Nat.zero_le _)
      rw [h0, List.set_cons_zero] at hd
      have hperm : (z :: T').Perm (T' ++ [z]) := (List.perm_append_singleton z T').symm
      refine ⟨[], z :: T', ⟨hd, List.Pairwise.nil, ?_, fun x hx => hrange x ?_, fun h0' => ?_⟩,
        (h.rows (R := []) (U := z :: T') (by simp)).transfer rfl (fun _ => rfl) rfl (by simp)
          fun _ hx => hx⟩
      · simpa using hperm.nodup_iff.2 (List.nodup_cons.1 hnd).2
      · simp only [List.nil_append, List.mem_cons, List.mem_append] at hx ⊢
        tauto
      · exact absurd (hperm.subset h0') h0T
  · -- an error is returned
    intro hok
    exact absurd hok (initNextRow_ne_ok henv)

/-- **The first call** never reaches the failed assertion and leaves no row; it
goes on to its passes with the invariant, or returns an error. -/
theorem start_spec (henv : env.Wf) (h : Fresh o m) :
    (start o env m).Holds (fun m' => m'.row = m.row) ∧
      (∀ m', start o env m = .retry m' → ∃ R U, Queued o m' R U) ∧
      ∀ rc m', start o env m = .ret rc m' → rc ≠ sqliteRow := by
  unfold start
  rw [if_pos h.nrows]
  split_ifs with hok
  · refine ⟨localStep_row 0, (fun m' h' => by cases h'), fun rc m' h' => ?_⟩
    cases h'
    exact localStep_ne_row 0
  · refine ⟨localStep_row 0, fun m' h' => ?_, (fun rc m' h' => by cases h')⟩
    cases h'
    exact localStep_fresh henv h (not_not.1 hok)

omit [Std.TransCmp (Cmp.ordOf o.memCompare)] in
/-- A later call goes straight to its passes. -/
theorem start_of_nrows (h : m.nrows ≠ 0) : start o env m = .retry m := by
  rw [start, if_neg h]

end Pass

end Compare

end Dohsql
