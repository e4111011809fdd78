import Comdb2.Db.DohsqlMerge
import Comdb2.Lib.Run

/-!
# The ordered merge as a system

The children's threads run beside the coordinator.  Whenever the coordinator is
between two passes or two calls, a child adds its statement's next row to its
queue (`inner_row`), marks the end of its rows (`inner_row_last`), or stores an
error (`inner_error`, `handle_child_error`).  The coordinator makes calls of
`dohsql_dist_next_row_ordered`: the head of a call, then passes until one
returns; after a row, the client asks for the next one.

Over every interleaving of these steps from a query's start, the coordinator
never reaches the failed `assert(que_idx >= 0)`, and the rows the calls return
come in the `ORDER BY` order (`merge_sorted`), when each statement returns its
rows in that order and `sqlite3MemCompare` is a total preorder.  The proof
carries `Queued` from pass to pass, and the rows returned with the current row
(`Good`).
-/

namespace Dohsql

variable {V : Type*}

/-! ## The system -/

/-- What a child's thread does to its connection `i`, under the connection's
lock: while its statement runs (`rc` is `SQLITE_ROW` from `_shard_connect` on),
`inner_row` adds the statement's next row to the queue and `inner_row_last`
marks the end of the rows; `inner_error` and `handle_child_error` store an
error at any time. -/
inductive ChildStep (m : Merge V) : Merge V → Prop
  | row {i : ℤ} (hi : 0 < i) (hn : i < m.conns.nconns) (hrc : m.rc i = sqliteRow)
      (hs : m.sent i < (m.stream i).length) : ChildStep m (m.produce i)
  | last {i : ℤ} (hi : 0 < i) (hn : i < m.conns.nconns) (hrc : m.rc i = sqliteRow)
      (hs : m.sent i = (m.stream i).length) :
      ChildStep m { m with rc := Function.update m.rc i sqliteDone }
  | error {i : ℤ} (hi : 0 < i) (hn : i < m.conns.nconns) (rc : ℤ) :
      ChildStep m { m with rc := Function.update m.rc i rc }

/-- Where the coordinator stands: at the head of a call, at `retry_row`,
returned from a call with a code, or stopped by the failed assertion. -/
inductive Pc
  | call
  | retry
  | ret (rc : ℤ)
  | fault
  deriving DecidableEq

/-- The merge, where the coordinator stands, and the rows its calls have
returned so far. -/
structure Sys (V : Type*) where
  pc : Pc
  m : Merge V
  out : List (List V)

/-- The system after the head of a call or a pass: a call that returns
`SQLITE_ROW` hands the current row to the client. -/
def Sys.after (s : Sys V) : Outcome V → Sys V
  | .retry m => ⟨.retry, m, s.out⟩
  | .ret rc m => ⟨.ret rc, m, if rc = sqliteRow then s.out ++ m.row.toList else s.out⟩
  | .fault => { s with pc := .fault }

section Holds

variable {P Q : Merge V → Prop} {oc : Outcome V} {m : Merge V}

theorem Outcome.Holds.mono (h : oc.Holds P) (hPQ : ∀ m, P m → Q m) : oc.Holds Q := by
  cases oc with
  | retry m => exact hPQ m h
  | ret _ m => exact hPQ m h
  | fault => exact h

theorem Outcome.Holds.of_retry (h : oc.Holds P) (he : oc = .retry m) : P m := by
  subst he
  exact h

theorem Outcome.Holds.of_ret {rc : ℤ} (h : oc.Holds P) (he : oc = .ret rc m) : P m := by
  subst he
  exact h

end Holds

section System

variable [Inhabited V] (o : OrderBy V)

/-- The steps of the system: the coordinator's, and the children's at any
time. -/
inductive Next : Sys V → Sys V → Prop
  | start {s : Sys V} (hpc : s.pc = .call) (env : Env) (henv : env.Wf) :
      Next s (s.after (start o env s.m))
  | pass {s : Sys V} (hpc : s.pc = .retry) (env : Env) (henv : env.Wf) :
      Next s (s.after (pass o env s.m))
  | next {s : Sys V} (hpc : s.pc = .ret sqliteRow) : Next s { s with pc := .call }
  | child {s : Sys V} {m' : Merge V} (h : ChildStep s.m m') : Next s { s with m := m' }

/-- A query before its first call: `order_init` over its connections, empty
queues, no statement stepped, no row, and each statement's rows in the
`ORDER BY` order. -/
structure Init (s : Sys V) : Prop where
  pc : s.pc = .call
  out : s.out = []
  nconns_pos : 0 < s.m.conns.nconns
  conns : s.m.conns = orderInit s.m.conns.nconns
  que : ∀ i, s.m.que i = []
  sent : ∀ i, s.m.sent i = 0
  nrows : s.m.nrows = 0
  row : s.m.row = none
  sorted : ∀ i, Cmp.Sorted o.ord (s.m.stream i)

/-- The rows returned so far, then the current row, are in the `ORDER BY`
order; before the first row taken none is returned. -/
def Output (s : Sys V) : Prop :=
  Cmp.Sorted o.ord (s.out ++ s.m.row.toList) ∧ (s.m.row = none → s.out = [])

/-- What holds of the merge at each place of the coordinator: before the first
call it is fresh; between passes, and after a returned row, it keeps `Queued`. -/
def At : Pc → Merge V → Prop
  | .call, m => Fresh o m ∨ (m.nrows ≠ 0 ∧ ∃ R U, Queued o m R U)
  | .retry, m => ∃ R U, Queued o m R U
  | .ret rc, m => rc = sqliteRow → m.nrows ≠ 0 ∧ ∃ R U, Queued o m R U
  | .fault, _ => False

/-- The invariant of the system. -/
structure Good (s : Sys V) : Prop where
  output : Output o s
  at_pc : At o s.pc s.m

end System

/-! ## The children's steps -/

section Children

variable {m m' : Merge V}

theorem ChildStep.conns_eq (h : ChildStep m m') : m'.conns = m.conns := by
  cases h <;> rfl

theorem ChildStep.row_eq (h : ChildStep m m') : m'.row = m.row := by
  cases h <;> rfl

theorem ChildStep.nrows_eq (h : ChildStep m m') : m'.nrows = m.nrows := by
  cases h <;> rfl

theorem ChildStep.stream_eq (h : ChildStep m m') : m'.stream = m.stream := by
  cases h <;> rfl

/-- A child gives its statement's rows in turn: what each connection has still
to give stays. -/
theorem ChildStep.rest_eq (h : ChildStep m m') (i : ℤ) : m'.rest i = m.rest i := by
  cases h with
  | row _ _ _ hs => exact Merge.rest_produce hs i
  | last => rfl
  | error => rfl

/-- A child's rows go behind the first row of its queue. -/
theorem ChildStep.sameHead (h : ChildStep m m') {x : ℤ} (hx : m.que x ≠ []) :
    SameHead (m.que x) (m'.que x) := by
  cases h with
  | row => exact Merge.sameHead_produce fun _ => hx
  | last => exact SameHead.refl _
  | error => exact SameHead.refl _

variable [Inhabited V] {o : OrderBy V} {R U : List ℤ}

/-- A child's step keeps the invariant between passes: the queued connections
keep their first rows, so `_cmp` keeps them sorted. -/
theorem Queued.child (h : Queued o m R U) (hc : ChildStep m m') : Queued o m' R U := by
  have hagree : ∀ a ∈ R, ∀ b ∈ R, m'.cmp o a b = m.cmp o a b :=
    Merge.cmp_agree fun x hx => hc.sameHead (h.rows.ready x hx)
  refine ⟨by rw [hc.conns_eq]; exact h.order.recmp hagree,
    h.rows.transfer hc.stream_eq hc.rest_eq hc.row_eq (fun x hx => ?_) fun _ hx => hx⟩
  exact fun he => h.rows.ready x hx ((hc.sameHead (h.rows.ready x hx)).1.2 he)

theorem Fresh.child (h : Fresh o m) (hc : ChildStep m m') : Fresh o m' where
  nrows := hc.nrows_eq ▸ h.nrows
  nconns_pos := hc.conns_eq ▸ h.nconns_pos
  conns := by rw [hc.conns_eq]; exact h.conns
  row := hc.row_eq ▸ h.row
  sorted := hc.stream_eq ▸ h.sorted
  rest_suffix i := by rw [hc.rest_eq, hc.stream_eq]; exact h.rest_suffix i

theorem at_call : At o .call m ↔ Fresh o m ∨ (m.nrows ≠ 0 ∧ ∃ R U, Queued o m R U) := Iff.rfl

theorem at_retry : At o .retry m ↔ ∃ R U, Queued o m R U := Iff.rfl

theorem at_ret {rc : ℤ} : At o (.ret rc) m ↔ (rc = sqliteRow → m.nrows ≠ 0 ∧ ∃ R U, Queued o m R U) :=
  Iff.rfl

/-- Wherever the coordinator stands, a child's step keeps what holds there. -/
theorem At.child {pc : Pc} (h : At o pc m) (hc : ChildStep m m') : At o pc m' := by
  cases pc with
  | call =>
    rcases at_call.1 h with hf | ⟨hnr, R, U, hq⟩
    · exact at_call.2 (.inl (hf.child hc))
    · exact at_call.2 (.inr ⟨hc.nrows_eq ▸ hnr, R, U, hq.child hc⟩)
  | retry =>
    obtain ⟨R, U, hq⟩ := at_retry.1 h
    exact at_retry.2 ⟨R, U, hq.child hc⟩
  | ret rc =>
    refine at_ret.2 fun hrc => ?_
    obtain ⟨hnr, R, U, hq⟩ := at_ret.1 h hrc
    exact ⟨hc.nrows_eq ▸ hnr, R, U, hq.child hc⟩
  | fault => exact h

end Children

/-! ## The rows returned -/

section Output

variable [Inhabited V] {o : OrderBy V} [Std.TransCmp (Cmp.ordOf o.memCompare)] {s : Sys V}
  {m' : Merge V}

/-- Every row returned so far goes before the next current row. -/
theorem Output.le_next (h : Output o s) (hstep : RowStep o s.m m') :
    ∀ r' ∈ m'.row, ∀ x ∈ s.out, (o.ord x r').isLE := by
  have := o.transCmp_ord
  intro r' hr' x hx
  rcases hrow : s.m.row with _ | r
  · rw [h.2 hrow] at hx
    cases hx
  · obtain ⟨r'', hr'', hle⟩ := hstep r hrow
    obtain rfl : r'' = r' := Option.some_inj.1 (hr''.symm.trans hr')
    have hs := h.1
    rw [hrow, Option.toList_some] at hs
    exact Std.TransCmp.isLE_trans ((List.pairwise_append.1 hs).2.2 x hx r (by simp)) hle

omit [Std.TransCmp (Cmp.ordOf o.memCompare)] in
/-- ... and with no next current row, none was returned. -/
theorem Output.nil_of_none (h : Output o s) (hstep : RowStep o s.m m') (hn : m'.row = none) :
    s.out = [] := by
  rcases hrow : s.m.row with _ | r
  · exact h.2 hrow
  · obtain ⟨r', hr', -⟩ := hstep r hrow
    rw [hn] at hr'
    cases hr'

/-- The rows returned stay in order when the current row goes on. -/
theorem Output.keep (h : Output o s) (hstep : RowStep o s.m m') (pc : Pc) :
    Output o ⟨pc, m', s.out⟩ := by
  refine ⟨?_, h.nil_of_none hstep⟩
  rcases hr : m'.row with _ | r'
  · simp [h.nil_of_none hstep hr, Cmp.Sorted]
  · rw [Option.toList_some]
    refine List.pairwise_append.2 ⟨List.Pairwise.sublist (List.sublist_append_left _ _) h.1,
      List.pairwise_singleton _ _, fun x hx y hy => ?_⟩
    rw [List.mem_singleton.1 hy]
    exact h.le_next hstep r' hr x hx

/-- ... and when a call returns the new current row. -/
theorem Output.hand (h : Output o s) (hstep : RowStep o s.m m') (pc : Pc) :
    Output o ⟨pc, m', s.out ++ m'.row.toList⟩ := by
  have := o.transCmp_ord
  refine ⟨?_, fun (hn : m'.row = none) => by simp [hn, h.nil_of_none hstep hn]⟩
  rcases hr : m'.row with _ | r'
  · simp [h.nil_of_none hstep hr, Cmp.Sorted]
  · have hk := (h.keep hstep pc).1
    rw [hr, Option.toList_some] at hk
    rw [Option.toList_some]
    refine List.pairwise_append.2 ⟨hk, List.pairwise_singleton _ _, fun x hx y hy => ?_⟩
    rw [List.mem_singleton.1 hy]
    rcases List.mem_append.1 hx with hx | hx
    · exact h.le_next hstep r' hr x hx
    · rw [List.mem_singleton.1 hx]
      exact Std.ReflCmp.isLE_rfl

end Output

/-! ## Every run -/

section Invariant

variable [Inhabited V] (o : OrderBy V) [Std.TransCmp (Cmp.ordOf o.memCompare)]

omit [Std.TransCmp (Cmp.ordOf o.memCompare)] in
theorem Good.init {s : Sys V} (h : Init o s) : Good o s := by
  refine ⟨⟨?_, fun _ => h.out⟩, ?_⟩
  · rw [h.out, h.row]
    exact List.Pairwise.nil
  · rw [h.pc]
    refine at_call.2 (.inl ⟨h.nrows, h.nconns_pos, h.conns, h.row, h.sorted, fun i => ?_⟩)
    simp [Merge.rest, h.que i, h.sent i]

/-- The system after a call's head or a pass is `Good` when the outcome is not
the failed assertion and the current row goes on, a retry leaves `Queued`, and a
returned row is counted. -/
theorem Good.after {s : Sys V} {oc : Outcome V} (h : Output o s) (hold : oc.Holds (RowStep o s.m))
    (hretry : ∀ m', oc = .retry m' → ∃ R U, Queued o m' R U)
    (hrow : ∀ m', oc = .ret sqliteRow m' → m'.nrows ≠ 0 ∧ ∃ R U, Queued o m' R U) :
    Good o (s.after oc) := by
  cases oc with
  | retry m' => exact ⟨h.keep hold _, at_retry.2 (hretry m' rfl)⟩
  | ret rc m' =>
    rw [Sys.after]
    by_cases hrc : rc = sqliteRow
    · -- the call hands the new current row to the client
      subst hrc
      rw [if_pos rfl]
      exact ⟨h.hand hold _, at_ret.2 fun _ => hrow m' rfl⟩
    · rw [if_neg hrc]
      exact ⟨h.keep hold _, at_ret.2 fun h' => absurd h' hrc⟩
  | fault => exact hold.elim

/-- Each step of the coordinator or of a child keeps the invariant. -/
theorem Good.step {s s' : Sys V} (h : Good o s) (hn : Next o s s') : Good o s' := by
  obtain ⟨hout, hpc⟩ := h
  cases hn with
  | start hcall env henv =>
    rw [hcall] at hpc
    rcases at_call.1 hpc with hf | ⟨hnr, R, U, hq⟩
    · -- the first call steps the coordinator's statement before its passes
      obtain ⟨hrow, hretry, hret⟩ := start_spec henv hf
      exact Good.after o hout (hrow.mono fun _ hm => RowStep.of_eq hm) hretry
        fun m' hm => absurd rfl (hret _ m' hm)
    · -- a later call goes straight to `retry_row`
      rw [start_of_nrows hnr]
      exact Good.after o hout (RowStep.of_eq rfl) (fun m' hm => by cases hm; exact ⟨R, U, hq⟩)
        fun _ hm => by cases hm
  | pass hretry env henv =>
    obtain ⟨R, U, hq⟩ := at_retry.1 (hretry ▸ hpc)
    have hspec := pass_spec henv hq
    exact Good.after o hout (hspec.mono fun _ hm => hm.2) (fun _ hm => (hspec.of_retry hm).1)
      fun _ hm => ⟨pass_row henv hm, (hspec.of_ret hm).1⟩
  | next hrow =>
    rw [hrow] at hpc
    obtain ⟨hnr, hq⟩ := at_ret.1 hpc rfl
    exact ⟨hout, at_call.2 (.inr ⟨hnr, hq⟩)⟩
  | child hc => exact ⟨hout.keep (RowStep.of_eq hc.row_eq) s.pc, hpc.child hc⟩

/-- **The ordered merge.**  Over every interleaving of the coordinator's calls
and the children's steps from a query's start, the coordinator never fails
`assert(que_idx >= 0)`, and the rows its calls return come in the `ORDER BY`
order. -/
theorem merge_sorted {s : Sys V} (h : Run.Reachable (Init o) (Next o) s) :
    s.pc ≠ .fault ∧ Cmp.Sorted o.ord s.out := by
  have hg : Good o s := h.invariant (fun _ => Good.init o) fun _ _ hs hn => hs.step o hn
  refine ⟨fun hf => ?_, List.Pairwise.sublist (List.sublist_append_left _ _) hg.output.1⟩
  have hat := hg.at_pc
  rw [hf] at hat
  exact hat

end Invariant

theorem ordOf_sub : Cmp.ordOf (fun a b : ℤ => a - b) = compare := by
  funext a b
  rcases lt_trichotomy a b with h | h | h
  · rw [Cmp.ordOf, compare_lt_iff_lt.2 (by omega), compare_lt_iff_lt.2 h]
  · subst h
    simp [Cmp.ordOf]
  · rw [Cmp.ordOf, compare_gt_iff_gt.2 (by omega), compare_gt_iff_gt.2 h]

/-- `ORDER BY` the first column, over integer values. -/
def byFirst : OrderBy ℤ := ⟨fun a b => a - b, [1]⟩

/-- A query over the coordinator's connection alone, whose statement returns the
row `[5]`. -/
def oneConn : Sys ℤ :=
  ⟨.call, ⟨orderInit 1, fun _ => [], fun _ => 0, fun _ => [[5]], fun _ => 0, 0, 0, 0, 0, 0, 0, 0,
    none⟩, []⟩

/-- No error, no lock wanted, the client still there. -/
def quiet : Env := ⟨none, 0, false⟩

/-- The first call's head steps the statement, its pass returns the row. -/
theorem merge_sorted_oneConn :
    let s := oneConn.after (start byFirst quiet oneConn.m)
    let s' := s.after (pass byFirst quiet s.m)
    Run.Reachable (Init byFirst) (Next byFirst) s' ∧ s'.out = [[5]] ∧
      s'.pc ≠ .fault ∧ Cmp.Sorted byFirst.ord s'.out := by
  intro s s'
  have : Std.TransCmp (Cmp.ordOf byFirst.memCompare) := by
    rw [show byFirst.memCompare = fun a b => a - b from rfl, ordOf_sub]
    infer_instance
  have hquiet : quiet.Wf := ⟨fun _ h => by simp [quiet] at h, by decide⟩
  have hinit : Init byFirst oneConn :=
    ⟨rfl, rfl, by decide, rfl, fun _ => rfl, fun _ => rfl, rfl, rfl, fun _ => by simp [Cmp.Sorted, oneConn]⟩
  have hr : Run.Reachable (Init byFirst) (Next byFirst) s' :=
    .step (.step (.init hinit) (.start rfl quiet hquiet)) (.pass (by decide) quiet hquiet)
  exact ⟨hr, by decide +kernel, merge_sorted byFirst hr⟩

end Dohsql
