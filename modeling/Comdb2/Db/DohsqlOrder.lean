import Comdb2.Lib.Cmp
import Comdb2.Lib.Circ

/-!
# The order of the connections in an ordered parallel query

A `SELECT ... ORDER BY` that dohsql distributes runs one statement per shard
(connections `1` to `nconns - 1`) beside the coordinator's own statement
(connection `0`), and `dohsql_dist_next_row_ordered` merges their rows.  It
keeps the connections in the array `order` of `struct dohsql`, read round from
`top_idx`: first the `filling` connections whose next row is queued, sorted by
that row, then the other active ones, then a `-1` for each connection that is
done (`Layout`).

*The comparison.*  `_cmp` puts a connection with an empty queue first and
compares two queued rows column by column in the ORDER BY directions
(`cmpColumns`, `cmpConns`).  When the row comparison `sqlite3MemCompare` is a
total preorder, so is `_cmp` on connections (`transCmp_cmpConns`).

*The four operations.*  Each is proved against `Layout`:
* `q_top` takes the first sorted connection and moves it to the end of the
  waiting ones (`Layout.qTop`);
* `q_insert` puts the first waiting connection into the sorted ones, after
  those whose row does not go after its row (`Layout.qInsert`).  `_pos` finds
  the place with a binary search over a range that may run round the end of
  the array, and the two `memmove`s make room for it;
* `_move_client_row` first swaps a waiting connection to the front of the
  waiting ones (`Layout.moveClientRow`);
* `_move_client_done` fills the place of a finished connection with the last
  waiting one (`Layout.moveClientDone`).
-/

namespace Dohsql

/-! ## The model -/

/-- `struct dohsql`, as far as the order of the connections goes. -/
structure Conns where
  nconns : ℕ
  order : List ℤ
  topIdx : ℕ
  filling : ℕ
  active : ℕ
  deriving DecidableEq, Repr

/-- `order_init`: every connection active, none queued, in the order of their
numbers. -/
def orderInit (nconns : ℕ) : Conns :=
  ⟨nconns, (List.range nconns).map Int.ofNat, 0, 0, nconns⟩

/-- What `_cmp` reads of a connection's queue: how many rows it holds, and the
unpacked row at its head. -/
structure Queues (V : Type*) where
  count : ℤ → ℕ
  head : ℤ → List V

section Cmp

variable {V : Type*} [Inhabited V]

/-- The ORDER BY loop of `_cmp`: the first column whose values differ decides,
the other way round for a descending column.  `order_dir[i]` is the column
number plus one, negative for a descending column. -/
def cmpColumns (memCompare : V → V → ℤ) (a b : List V) : List ℤ → ℤ
  | [] => 0
  | dir :: dirs =>
    let orderbyIdx := (if dir > 0 then dir else -dir).toNat - 1
    let ret := memCompare (a.getD orderbyIdx default) (b.getD orderbyIdx default)
    if ret ≠ 0 then (if dir < 0 then -ret else ret) else cmpColumns memCompare a b dirs

/-- `_cmp` on two connections: an empty queue goes first, two queued rows are
compared by `cmpColumns`. -/
def cmpConns (memCompare : V → V → ℤ) (orderDir : List ℤ) (q : Queues V) (a b : ℤ) : ℤ :=
  if q.count a = 0 then (if q.count b = 0 then 0 else -1)
  else if q.count b = 0 then 1
  else cmpColumns memCompare (q.head a) (q.head b) orderDir

end Cmp


/-! ## `_cmp` is a total preorder -/

section Lawful

variable {V : Type*} [Inhabited V] {memCompare : V → V → ℤ}

/-- A step of the ORDER BY loop: the column decides when its values differ. -/
theorem cmpColumns_cons (memCompare : V → V → ℤ) (dir : ℤ) (dirs : List ℤ) :
    (fun a b => cmpColumns memCompare a b (dir :: dirs)) =
      Cmp.thenInt (fun a b =>
          let ret := memCompare (a.getD ((if dir > 0 then dir else -dir).toNat - 1) default)
            (b.getD ((if dir > 0 then dir else -dir).toNat - 1) default)
          if dir < 0 then -ret else ret)
        (fun a b => cmpColumns memCompare a b dirs) := by
  funext a b
  simp only [cmpColumns, Cmp.thenInt]
  split_ifs <;> simp_all

variable [Std.TransCmp (Cmp.ordOf memCompare)]

/-- When `sqlite3MemCompare` is a total preorder on values, the ORDER BY loop is
one on rows, whatever the columns and directions. -/
theorem transCmp_cmpColumns :
    ∀ dirs : List ℤ, Std.TransCmp (Cmp.ordOf fun a b => cmpColumns memCompare a b dirs)
  | [] => Cmp.transCmp_zero
  | dir :: dirs => by
    have := transCmp_cmpColumns dirs
    -- one column: its values compared, reversed for a descending column
    have hcol : Std.TransCmp (Cmp.ordOf fun a b : List V =>
        let ret := memCompare (a.getD ((if dir > 0 then dir else -dir).toNat - 1) default)
          (b.getD ((if dir > 0 then dir else -dir).toNat - 1) default)
        if dir < 0 then -ret else ret) := by
      have hget : Std.TransCmp (Cmp.ordOf fun a b : List V =>
          memCompare (a.getD ((if dir > 0 then dir else -dir).toNat - 1) default)
            (b.getD ((if dir > 0 then dir else -dir).toNat - 1) default)) :=
        @Cmp.transCmp_comap _ _ (Cmp.ordOf memCompare) _
          fun a : List V => a.getD ((if dir > 0 then dir else -dir).toNat - 1) default
      by_cases hd : dir < 0
      · simp only [hd, if_true]
        exact Cmp.transCmp_neg (c := fun a b : List V =>
          memCompare (a.getD ((if dir > 0 then dir else -dir).toNat - 1) default)
            (b.getD ((if dir > 0 then dir else -dir).toNat - 1) default))
      · simp only [hd, if_false]
        exact hget
    rw [cmpColumns_cons, Cmp.ordOf_thenInt]
    infer_instance

/-- `_cmp` on connections is a total preorder: the connections with an empty
queue come first and tie, the others are ordered by their head rows. -/
theorem transCmp_cmpConns (orderDir : List ℤ) (q : Queues V) :
    Std.TransCmp (Cmp.ordOf (cmpConns memCompare orderDir q)) := by
  have : Std.TransCmp (Cmp.ordOf fun a b => cmpColumns memCompare a b orderDir) :=
    transCmp_cmpColumns orderDir
  have hcols : Std.TransCmp (Cmp.ordOf fun a b => cmpColumns memCompare (q.head a) (q.head b) orderDir) :=
    @Cmp.transCmp_comap _ _ (Cmp.ordOf fun a b => cmpColumns memCompare a b orderDir) _ q.head
  have hle : ∀ {a b d}, cmpColumns memCompare (q.head a) (q.head b) orderDir ≤ 0 →
      cmpColumns memCompare (q.head b) (q.head d) orderDir ≤ 0 →
      cmpColumns memCompare (q.head a) (q.head d) orderDir ≤ 0 := fun hab hbd => by
    have := hcols.isLE_trans (Cmp.isLE_ordOf.2 hab) (Cmp.isLE_ordOf.2 hbd)
    exact Cmp.isLE_ordOf.1 this
  refine { eq_swap := fun {a b} => ?_, isLE_trans := fun {a b d} hab hbd => ?_ }
  · -- the empty queues come first, the others by `cmpColumns`
    simp only [Cmp.ordOf, cmpConns]
    by_cases ha : q.count a = 0 <;> by_cases hb : q.count b = 0 <;> simp only [ha, hb, if_true, if_false]
    · rfl
    · rfl
    · rfl
    · exact hcols.eq_swap
  · rw [Cmp.isLE_ordOf] at hab hbd ⊢
    simp only [cmpConns] at hab hbd ⊢
    by_cases ha : q.count a = 0 <;> by_cases hb : q.count b = 0 <;> by_cases hd : q.count d = 0 <;>
      simp only [ha, hb, hd, if_true, if_false] at hab hbd ⊢ <;> first | omega | exact hle hab hbd

end Lawful

namespace Conns

variable (c : ℤ → ℤ → ℤ)

/-- `_cmp`: the connections at two places of `order`, compared by `c`. -/
def cmp (s : Conns) (idxA idxB : ℕ) : ℤ :=
  if idxA = idxB then 0 else c (s.order.getD idxA (-1)) (s.order.getD idxB (-1))

/-- `_pos`: where the connection at `index` goes among the queued ones, found by a
binary search of `[top_idx, top_idx + filling)`.  When that range runs round the
end of the array, the last cell decides which of its two parts to search. -/
def pos (s : Conns) (index : ℕ) : ℕ :=
  let right := (s.topIdx + s.filling) % s.nconns
  let before := fun pivot => decide (s.cmp c index pivot < 0)
  if s.topIdx > right then
    if s.cmp c index (s.nconns - 1) < 0 then Bsearch.lower before s.topIdx (s.nconns - 1)
    else Bsearch.lower before 0 right
  else Bsearch.lower before s.topIdx right

/-- `q_top`: the first queued connection; `top_idx` moves past it, and when some
connection is done it goes to the end of the active ones. -/
def qTop (s : Conns) : ℤ × Conns :=
  let ret := s.topIdx
  let retVal := s.order.getD ret (-1)
  let topIdx := (s.topIdx + 1) % s.nconns
  let order :=
    if s.active < s.nconns then
      let last := (topIdx + s.active - 1) % s.nconns
      (s.order.set last (s.order.getD ret (-1))).set ret (-1)
    else s.order
  (retVal, { s with order, topIdx, filling := s.filling - 1 })

/-- `q_insert`: the connection at `indx` goes to the place `_pos` finds, the
queued connections from there up to the first free cell moving up by one; when
that range runs round the end, the cells below it move first and the last cell
comes round to `order[0]`. -/
def qInsert (s : Conns) (indx : ℕ) : Conns :=
  let pos := s.pos c indx
  let last := (s.topIdx + s.filling) % s.nconns
  let saved := s.order.getD indx (-1)
  let (order, last) :=
    if pos > last then
      let order := if last > 0 then Circ.memmove s.order 1 0 last else s.order
      let last := s.nconns - 1
      (order.set 0 (order.getD last (-1)), last)
    else (s.order, last)
  let order := if pos < last then Circ.memmove order (pos + 1) pos (last - pos) else order
  { s with order := order.set pos saved, filling := s.filling + 1 }

/-- `_move_client_done`: the last active connection takes the place of the one at
`idx`, whose cell becomes free. -/
def moveClientDone (s : Conns) (idx : ℕ) : Conns :=
  let last := (s.topIdx + s.active - 1) % s.nconns
  let order := if last ≠ idx then s.order.set idx (s.order.getD last (-1)) else s.order
  { s with order := order.set last (-1), active := s.active - 1 }

/-- `_move_client_row`: the connection at `idx` swaps places with the first one
that is not queued, and is inserted from there. -/
def moveClientRow (s : Conns) (idx : ℕ) : Conns :=
  let last := (s.topIdx + s.filling) % s.nconns
  if last ≠ idx then
    let tmp := s.order.getD idx (-1)
    let order := (s.order.set idx (s.order.getD last (-1))).set last tmp
    qInsert c { s with order } last
  else qInsert c s idx

end Conns

/-! ## Equations of `q_insert` -/

namespace Conns

variable {c : ℤ → ℤ → ℤ} {s : Conns} {indx : ℕ}

@[simp] theorem qInsert_nconns : (s.qInsert c indx).nconns = s.nconns := rfl
@[simp] theorem qInsert_topIdx : (s.qInsert c indx).topIdx = s.topIdx := rfl
@[simp] theorem qInsert_filling : (s.qInsert c indx).filling = s.filling + 1 := rfl
@[simp] theorem qInsert_active : (s.qInsert c indx).active = s.active := rfl

@[simp] theorem moveClientRow_nconns : (s.moveClientRow c indx).nconns = s.nconns := by
  simp only [moveClientRow]
  split <;> rfl

@[simp] theorem moveClientDone_nconns : (s.moveClientDone indx).nconns = s.nconns := rfl
@[simp] theorem moveClientDone_filling : (s.moveClientDone indx).filling = s.filling := rfl
@[simp] theorem qTop_nconns : s.qTop.2.nconns = s.nconns := rfl

/-- `q_insert` when the place `_pos` finds is not past the free cell: the cells
from there up to the free cell move up by one. -/
theorem qInsert_order_of_le (h : s.pos c indx ≤ (s.topIdx + s.filling) % s.nconns) :
    (s.qInsert c indx).order =
      (Circ.memmove s.order (s.pos c indx + 1) (s.pos c indx)
        ((s.topIdx + s.filling) % s.nconns - s.pos c indx)).set (s.pos c indx)
        (s.order.getD indx (-1)) := by
  simp only [qInsert, gt_iff_lt, if_neg (not_lt.2 h)]
  rw [Circ.ite_memmove _ h]

/-- `q_insert` when it is past the free cell, up to the last cell: the cells
below the free cell move up first, the last cell comes round to `order[0]`,
and the cells from the place on move up. -/
theorem qInsert_order_of_gt (h : (s.topIdx + s.filling) % s.nconns < s.pos c indx)
    (h' : s.pos c indx ≤ s.nconns - 1) :
    (s.qInsert c indx).order =
      (Circ.memmove ((Circ.memmove s.order 1 0 ((s.topIdx + s.filling) % s.nconns)).set 0
          ((Circ.memmove s.order 1 0 ((s.topIdx + s.filling) % s.nconns)).getD (s.nconns - 1) (-1)))
        (s.pos c indx + 1) (s.pos c indx) (s.nconns - 1 - s.pos c indx)).set (s.pos c indx)
        (s.order.getD indx (-1)) := by
  have hfirst : (if 0 < (s.topIdx + s.filling) % s.nconns then
      Circ.memmove s.order 1 0 ((s.topIdx + s.filling) % s.nconns) else s.order) =
      Circ.memmove s.order 1 0 ((s.topIdx + s.filling) % s.nconns) := by
    split_ifs with h0
    · rfl
    · rw [show (s.topIdx + s.filling) % s.nconns = 0 by omega, Circ.memmove_zero]
  simp only [qInsert, gt_iff_lt, if_pos h]
  rw [hfirst, Circ.ite_memmove _ h']

end Conns

/-! ## The layout of `order` -/

/-- `order` read round from `top_idx`: the queued connections `R`, the other
active ones `U`, and a `-1` for each connection that is done. -/
structure Layout (s : Conns) (R U : List ℤ) : Prop where
  length_order : s.order.length = s.nconns
  topIdx_lt : s.topIdx < s.nconns
  length_ready : R.length = s.filling
  length_active : R.length + U.length = s.active
  active_le : s.active ≤ s.nconns
  view : s.order.rotate s.topIdx = R ++ U ++ List.replicate (s.nconns - s.active) (-1)

namespace Layout

variable {s : Conns} {R U : List ℤ}

theorem nconns_pos (h : Layout s R U) : 0 < s.nconns := by
  have := h.topIdx_lt
  omega

/-- The cell `k` places after `top_idx`. -/
theorem getD_add_mod (h : Layout s R U) {k : ℕ} (hk : k < s.nconns) :
    s.order.getD ((s.topIdx + k) % s.nconns) (-1) =
      (R ++ U ++ List.replicate (s.nconns - s.active) (-1)).getD k (-1) := by
  rw [← h.view, ← Circ.getD_add_mod _ (by rw [h.length_order]; exact hk), h.length_order]

/-- Writing the cell `k` places after `top_idx` writes the view. -/
theorem rotate_set (h : Layout s R U) {k : ℕ} (hk : k < s.nconns) (x : ℤ) :
    (s.order.set ((s.topIdx + k) % s.nconns) x).rotate s.topIdx =
      (R ++ U ++ List.replicate (s.nconns - s.active) (-1)).set k x := by
  rw [← h.view, ← Circ.rotate_set_add_mod _ (by rw [h.length_order]; exact hk), h.length_order]

end Layout

theorem layout_orderInit {nconns : ℕ} (h : 0 < nconns) :
    Layout (orderInit nconns) [] ((List.range nconns).map Int.ofNat) where
  length_order := by simp [orderInit]
  topIdx_lt := h
  length_ready := rfl
  length_active := by simp [orderInit]
  active_le := le_rfl
  view := by simp [orderInit]

/-! ## `q_top` -/

/-- `q_top` returns the first queued connection and moves it to the end of the
active ones. -/
theorem Layout.qTop {s : Conns} {r : ℤ} {R U : List ℤ} (h : Layout s (r :: R) U) :
    s.qTop.1 = r ∧ Layout s.qTop.2 R (U ++ [r]) := by
  have hn := h.nconns_pos
  have hact := h.length_active
  have htop : (s.topIdx + 0) % s.nconns = s.topIdx := by
    rw [add_zero, Nat.mod_eq_of_lt h.topIdx_lt]
  have hr : s.order.getD s.topIdx (-1) = r := by
    rw [← htop, h.getD_add_mod hn]
    simp
  refine ⟨hr, ?_⟩
  -- the view from the new `top_idx` is the old view rotated by one
  have hrot : ∀ l : List ℤ, l.length = s.nconns →
      l.rotate ((s.topIdx + 1) % s.nconns) = (l.rotate s.topIdx).rotate 1 := by
    intro l hl
    rw [← hl, Circ.rotate_add_mod]
  simp only [Conns.qTop, hr]
  constructor <;> dsimp only
  · split_ifs <;> simp [h.length_order]
  · exact Nat.mod_lt _ hn
  · have := h.length_ready
    simp only [List.length_cons] at this
    omega
  · simp only [List.length_append, List.length_cons, List.length_nil] at hact ⊢
    omega
  · exact h.active_le
  · split_ifs with hlt
    · -- the freed cell after the active ones takes `r`; `r`'s cell becomes free
      have hA : 1 ≤ s.active := by simp at hact; omega
      have hlast : ((s.topIdx + 1) % s.nconns + s.active - 1) % s.nconns =
          (s.topIdx + s.active) % s.nconns := by
        rw [show (s.topIdx + 1) % s.nconns + s.active - 1 =
            (s.topIdx + 1) % s.nconns + (s.active - 1) by omega, Nat.mod_add_mod,
          show s.topIdx + 1 + (s.active - 1) = s.topIdx + s.active by omega]
      have hset := Circ.rotate_set_add_mod (s.order.set ((s.topIdx + s.active) % s.nconns) r)
        (t := s.topIdx) (k := 0) (by rw [List.length_set, h.length_order]; exact hn) (-1)
      rw [add_zero, List.length_set, h.length_order, Nat.mod_eq_of_lt h.topIdx_lt,
        h.rotate_set hlt r] at hset
      rw [hlast, hrot _ (by simp [h.length_order]), hset]
      -- in the view: `r` goes to the first free cell, its own cell is freed
      obtain ⟨m, hm⟩ : ∃ m, s.nconns - s.active = m + 1 := ⟨_, (Nat.succ_pred_eq_of_pos (by omega)).symm⟩
      have hact' : s.active = (r :: R ++ U).length := by simp at hact ⊢; omega
      rw [hm, List.replicate_succ, hact', List.set_append_right _ _ le_rfl, Nat.sub_self]
      simp only [List.set_cons_zero, List.cons_append, List.rotate_cons_succ, List.rotate_zero]
      rw [← List.replicate_succ, List.replicate_succ']
      simp
    · have hn' : s.nconns - s.active = 0 := by have := h.active_le; omega
      rw [hrot _ h.length_order, h.view, hn']
      simp

/-! ## `_move_client_done` -/

/-- `_move_client_done` on the waiting connection `j` places after the queued
ones: the last active connection `z` takes its place and its own cell is freed. -/
theorem Layout.moveClientDone {s : Conns} {R U : List ℤ} {z : ℤ} (h : Layout s R (U ++ [z]))
    {j : ℕ} (hj : j ≤ U.length) :
    Layout (s.moveClientDone ((s.topIdx + s.filling + j) % s.nconns)) R (U.set j z) := by
  have hn := h.nconns_pos
  have hact := h.length_active
  have hR := h.length_ready
  have hle := h.active_le
  simp only [List.length_append, List.length_singleton] at hact
  -- the last active cell and the cell of `j`, as places after `top_idx`
  have hlast : (s.topIdx + s.active - 1) % s.nconns =
      (s.topIdx + (R.length + U.length)) % s.nconns := by
    congr 1
    omega
  have hidx : (s.topIdx + s.filling + j) % s.nconns = (s.topIdx + (R.length + j)) % s.nconns := by
    congr 1
    omega
  have hz : s.order.getD ((s.topIdx + (R.length + U.length)) % s.nconns) (-1) = z := by
    rw [h.getD_add_mod (by omega)]
    simp [List.getD_eq_getElem?_getD]
  have hD : s.nconns - (s.active - 1) = s.nconns - s.active + 1 := by omega
  simp only [Conns.moveClientDone, hlast, hidx, hz]
  constructor <;> dsimp only
  · split_ifs <;> simp [h.length_order]
  · exact h.topIdx_lt
  · exact hR
  · simp only [List.length_set]
    omega
  · omega
  · rw [hD, List.replicate_succ]
    rcases Nat.lt_or_eq_of_le hj with hj | rfl
    · -- the two cells differ: `z` moves into the cell of `j`
      have hne : (s.topIdx + (R.length + U.length)) % s.nconns ≠
          (s.topIdx + (R.length + j)) % s.nconns :=
        mt (Circ.add_mod_inj (by omega) (by omega)).1 (by omega)
      rw [if_pos hne]
      have h₁ := Circ.rotate_set_add_mod (s.order.set ((s.topIdx + (R.length + j)) % s.nconns) z)
        (t := s.topIdx) (k := R.length + U.length) (by simp [h.length_order]; omega) (-1)
      rw [List.length_set, h.length_order, h.rotate_set (by omega) z] at h₁
      rw [h₁]
      simp [hj]
    · -- the cell of `j` is the last active one
      rw [if_neg (not_not_intro rfl), h.rotate_set (by omega), List.set_eq_of_length_le le_rfl]
      simp

/-! ## `_pos` -/

section Pos

variable {c : ℤ → ℤ → ℤ} {s : Conns} {R U : List ℤ} {u : ℤ}

/-- The queued connection `k` places after `top_idx`. -/
theorem Layout.getD_ready (h : Layout s R U) {k : ℕ} (hk : k < R.length) :
    s.order.getD ((s.topIdx + k) % s.nconns) (-1) = R[k] := by
  have := h.length_active
  have := h.active_le
  rw [h.getD_add_mod (by omega)]
  simp [List.getD_eq_getElem?_getD, List.getElem?_append_left hk, List.getElem?_eq_getElem hk]

/-- The first waiting connection sits in the cell after the queued ones. -/
theorem Layout.getD_first (h : Layout s R (u :: U)) :
    s.order.getD ((s.topIdx + s.filling) % s.nconns) (-1) = u := by
  have := h.length_active
  have := h.active_le
  rw [← h.length_ready, h.getD_add_mod (by simp at *; omega)]
  simp [List.getD_eq_getElem?_getD]

/-- `_cmp` of the first waiting connection with a queued one. -/
theorem Layout.cmp_ready (h : Layout s R (u :: U)) {k : ℕ} (hk : k < R.length) :
    s.cmp c ((s.topIdx + s.filling) % s.nconns) ((s.topIdx + k) % s.nconns) = c u R[k] := by
  have := h.length_active
  have := h.active_le
  have hne : (s.topIdx + s.filling) % s.nconns ≠ (s.topIdx + k) % s.nconns := by
    rw [← h.length_ready, Ne, Circ.add_mod_inj (by simp at *; omega) (by simp at *; omega)]
    omega
  rw [Conns.cmp, if_neg hne, h.getD_first, h.getD_ready hk]

/-- `_pos` puts the first waiting connection `u` after the queued connections
that it does not go strictly before, counted round from `top_idx`. -/
theorem Layout.pos_eq [Std.TransCmp (Cmp.ordOf c)] (h : Layout s R (u :: U))
    (hs : Cmp.Sorted (Cmp.ordOf c) R) :
    s.pos c ((s.topIdx + s.filling) % s.nconns) =
      (s.topIdx + (R.takeWhile fun b => decide ¬Cmp.ordOf c u b = .lt).length) % s.nconns := by
  have hf := h.length_ready
  have hact := h.length_active
  have hle := h.active_le
  have ht := h.topIdx_lt
  simp only [List.length_cons] at hact
  -- the search's test at the cell `k` places after `top_idx`
  have hbefore : ∀ k (hk : k < R.length),
      decide (s.cmp c ((s.topIdx + s.filling) % s.nconns) ((s.topIdx + k) % s.nconns) < 0) =
        decide (Cmp.ordOf c u R[k] = .lt) := by
    intro k hk
    rw [h.cmp_ready hk]
    simp
  have hmono := Cmp.lt_mono hs u
  simp only [Conns.pos, decide_not]
  generalize hb : (fun pivot => decide (s.cmp c ((s.topIdx + s.filling) % s.nconns) pivot < 0)) =
    before
  by_cases hwrap : s.topIdx + s.filling < s.nconns
  · -- the queued connections do not run round the end
    rw [Nat.mod_eq_of_lt hwrap, if_neg (by omega), ← hf,
      Bsearch.lower_eq_takeWhile s.topIdx (fun k hk => ?_) hmono,
      Nat.mod_eq_of_lt (by have := (List.takeWhile_sublist (fun b => !decide (Cmp.ordOf c u b = .lt)) (l := R)).length_le; omega)]
    rw [← hb, ← hbefore k hk, Nat.mod_eq_of_lt (show s.topIdx + k < s.nconns by omega)]
  · -- they run round the end: `R.take m` up to the last cell, the rest from cell 0
    have hright : (s.topIdx + s.filling) % s.nconns = s.topIdx + s.filling - s.nconns := by
      rw [Nat.mod_eq_sub_mod (by omega), Nat.mod_eq_of_lt (by omega)]
    set m := s.nconns - 1 - s.topIdx with hm
    have hmR : m < R.length := by omega
    have hcmp : s.cmp c ((s.topIdx + s.filling) % s.nconns) (s.nconns - 1) = c u R[m] := by
      rw [← h.cmp_ready (c := c) hmR, Nat.mod_eq_of_lt (show s.topIdx + m < s.nconns by omega)]
      congr 1
      omega
    rw [if_pos (by rw [hright]; omega), hcmp]
    by_cases hy : c u R[m] < 0
    · -- `u` goes before the connection in the last cell: search up to it
      rw [if_pos hy]
      have key := Bsearch.lower_eq_takeWhile (p := before)
        (t := fun b => decide (Cmp.ordOf c u b = .lt)) (l := R.take m) s.topIdx (fun k hk => ?_)
        (hmono.sublist (List.take_sublist _ _))
      · rw [List.length_take, min_eq_left hmR.le, show s.topIdx + m = s.nconns - 1 by omega] at key
        have hstop : R.takeWhile (fun b => !decide (Cmp.ordOf c u b = .lt)) =
            (R.take m).takeWhile fun b => !decide (Cmp.ordOf c u b = .lt) := by
          conv_lhs => rw [← List.take_append_drop m R, List.drop_eq_getElem_cons hmR]
          exact Bsearch.takeWhile_append_cons_of_false (by simp [hy]) _ _
        have hlen := (List.takeWhile_sublist (fun b => !decide (Cmp.ordOf c u b = .lt))
          (l := R.take m)).length_le
        rw [List.length_take, min_eq_left hmR.le] at hlen
        rw [key, hstop, Nat.mod_eq_of_lt (by omega)]
      · rw [List.length_take, min_eq_left hmR.le] at hk
        rw [← hb, List.getElem_take, ← hbefore k (by omega),
          Nat.mod_eq_of_lt (show s.topIdx + k < s.nconns by omega)]
    · -- it does not: every connection up to the last cell passes, search from cell 0
      rw [if_neg hy, hright]
      have hpass : ∀ a ∈ R.take (m + 1), (!decide (Cmp.ordOf c u a = .lt)) = true := by
        have hpre := (Cmp.prefixBy_not_lt hs u).sublist (List.take_sublist (m + 1) R)
        simp only [decide_not] at hpre
        refine Bsearch.PrefixBy.forall_of_getLast hpre
          (List.ne_nil_of_length_pos (by rw [List.length_take]; omega)) ?_
        rw [List.getLast_eq_getElem, List.getElem_take]
        simpa [min_eq_left (show m + 1 ≤ R.length by omega)] using hy
      have hlen : (R.drop (m + 1)).length = s.topIdx + s.filling - s.nconns := by
        simp only [List.length_drop]
        omega
      have key := Bsearch.lower_eq_takeWhile (p := before)
        (t := fun b => decide (Cmp.ordOf c u b = .lt)) (l := R.drop (m + 1)) 0 (fun k hk => ?_)
        (hmono.sublist (List.drop_sublist _ _))
      · have hle' := (List.takeWhile_sublist (fun b => !decide (Cmp.ordOf c u b = .lt))
          (l := R.drop (m + 1))).length_le
        rw [hlen, zero_add, zero_add] at key
        rw [key]
        conv_rhs => rw [← List.take_append_drop (m + 1) R, List.takeWhile_append_of_pos hpass]
        rw [List.length_append, List.length_take, min_eq_left (by omega), ← add_assoc,
          show s.topIdx + (m + 1) = s.nconns by omega, Nat.add_mod_left, Nat.mod_eq_of_lt (by omega)]
      · rw [List.length_drop] at hk
        rw [← hb, List.getElem_drop, ← hbefore (m + 1 + k) (by omega)]
        -- the cell `k` is `m + 1 + k` places after `top_idx`, round the end
        congr 3
        rw [← add_assoc, show s.topIdx + (m + 1) = s.nconns by omega, Nat.add_mod_left,
          Nat.mod_eq_of_lt (by omega), zero_add]

end Pos

/-! ## `q_insert` -/

section Insert

variable {c : ℤ → ℤ → ℤ} [Std.TransCmp (Cmp.ordOf c)] {s : Conns} {R U : List ℤ} {u : ℤ}

/-- `q_insert` when the queued connections and the free cell after them do not
run round the end of the array. -/
theorem Layout.qInsert_view_of_lt (h : Layout s R (u :: U)) (hs : Cmp.Sorted (Cmp.ordOf c) R)
    (hwrap : s.topIdx + s.filling < s.nconns) :
    (s.qInsert c ((s.topIdx + s.filling) % s.nconns)).order.rotate s.topIdx =
      R.orderedInsert (fun a b => Cmp.ordOf c a b = .lt) u ++ U ++
        List.replicate (s.nconns - s.active) (-1) := by
  have hf := h.length_ready
  have hact := h.length_active
  simp only [List.length_cons] at hact
  rw [List.orderedInsert_eq_take_drop]
  set q : ℤ → Bool := fun b => decide ¬Cmp.ordOf c u b = .lt with hq
  set W := U ++ List.replicate (s.nconns - s.active) (-1) with hW
  have hPS := congrArg List.length (List.takeWhile_append_dropWhile (p := q) (l := R))
  rw [List.length_append] at hPS
  have hWlen : W.length = s.nconns - s.filling - 1 := by
    simp only [hW, List.length_append, List.length_replicate]
    have := h.active_le
    omega
  -- the array: the end of `W` fills the cells below `top_idx`
  set k := s.nconns - s.topIdx - s.filling - 1
  have hord : s.order = W.drop k ++ R.takeWhile q ++ R.dropWhile q ++ u :: W.take k := by
    have hrot : s.order.rotate (W.drop k).length =
        (R.takeWhile q ++ R.dropWhile q ++ u :: W.take k) ++ W.drop k := by
      rw [List.length_drop, hWlen, show s.nconns - s.filling - 1 - k = s.topIdx by omega, h.view,
        List.takeWhile_append_dropWhile, hW]
      simp
    simpa using Circ.eq_append_of_rotate_eq hrot
  have hlenY : (W.drop k).length = s.topIdx := by
    rw [List.length_drop, hWlen]
    omega
  have hpos : s.pos c ((s.topIdx + s.filling) % s.nconns) = (W.drop k ++ R.takeWhile q).length := by
    rw [h.pos_eq hs, ← hq, List.length_append, hlenY, Nat.mod_eq_of_lt (by omega)]
  rw [Conns.qInsert_order_of_le (by rw [hpos, Nat.mod_eq_of_lt hwrap, List.length_append, hlenY]; omega), hpos,
    h.getD_first, show (s.topIdx + s.filling) % s.nconns - (W.drop k ++ R.takeWhile q).length =
      (R.dropWhile q).length by rw [Nat.mod_eq_of_lt hwrap, List.length_append]; omega,
    hord, Circ.set_memmove_insert, ← hlenY]
  simp only [List.append_assoc, List.cons_append]
  rw [List.rotate_append_length_eq]
  simp [hW, List.take_append_drop]

/-- `q_insert` when the queued connections run round the end of the array and
`u` goes among those before the end. -/
theorem Layout.qInsert_view_wrap_lt (h : Layout s R (u :: U)) (hs : Cmp.Sorted (Cmp.ordOf c) R)
    (hwrap : s.nconns ≤ s.topIdx + s.filling)
    (hp : (R.takeWhile fun b => decide ¬Cmp.ordOf c u b = .lt).length < s.nconns - s.topIdx) :
    (s.qInsert c ((s.topIdx + s.filling) % s.nconns)).order.rotate s.topIdx =
      R.orderedInsert (fun a b => Cmp.ordOf c a b = .lt) u ++ U ++
        List.replicate (s.nconns - s.active) (-1) := by
  have hf := h.length_ready
  have hact := h.length_active
  have ht := h.topIdx_lt
  have hle := h.active_le
  simp only [List.length_cons] at hact
  have hpos := h.pos_eq hs
  rw [List.orderedInsert_eq_take_drop]
  set q : ℤ → Bool := fun b => decide ¬Cmp.ordOf c u b = .lt
  set W := U ++ List.replicate (s.nconns - s.active) (-1) with hW
  have hWlen : W.length = s.nconns - s.filling - 1 := by
    simp only [hW, List.length_append, List.length_replicate]
    have := h.active_le
    omega
  generalize hP : R.takeWhile q = P at hp hpos ⊢
  generalize hS : R.dropWhile q = S
  have hRPS : R = P ++ S := by rw [← hP, ← hS, List.takeWhile_append_dropWhile]
  have hPS : P.length + S.length = R.length := by rw [hRPS, List.length_append]
  -- the last cell holds `y`, the element `m` of `S`
  set m := s.nconns - s.topIdx - 1 - P.length with hm
  have hmS : m < S.length := by omega
  set y := S[m]
  have hSy : S = S.take m ++ y :: S.drop (m + 1) := by
    rw [← List.drop_eq_getElem_cons hmS, List.take_append_drop]
  have hlenD : (S.drop (m + 1)).length = s.topIdx + s.filling - s.nconns := by
    rw [List.length_drop]
    omega
  have hord : s.order = S.drop (m + 1) ++ u :: W ++ (P ++ S.take m ++ [y]) := by
    have hrot : s.order.rotate (S.drop (m + 1) ++ u :: W).length =
        (P ++ S.take m ++ [y]) ++ (S.drop (m + 1) ++ u :: W) := by
      rw [show (S.drop (m + 1) ++ u :: W).length = s.topIdx by
          rw [List.length_append, List.length_cons, hlenD, hWlen]; omega,
        h.view, hRPS, hW]
      conv_lhs => rw [hSy]
      simp
    exact Circ.eq_append_of_rotate_eq hrot
  have hpos' : s.pos c ((s.topIdx + s.filling) % s.nconns) = s.topIdx + P.length := by
    rw [hpos, Nat.mod_eq_of_lt (show s.topIdx + P.length < s.nconns by omega)]
  have hlast : (s.topIdx + s.filling) % s.nconns = (S.drop (m + 1)).length := by
    rw [Nat.mod_eq_sub_mod hwrap, Nat.mod_eq_of_lt (show s.topIdx + s.filling - s.nconns < s.nconns by omega), hlenD]
  rw [Conns.qInsert_order_of_gt (by rw [hpos', hlast, hlenD]; omega) (by rw [hpos']; omega),
    hpos', h.getD_first, hlast, hord]
  -- below the free cell: `S.drop (m + 1)` moves up over `u`, and `y` comes round to cell 0
  have h₁ : Circ.memmove (S.drop (m + 1) ++ u :: W ++ (P ++ S.take m ++ [y])) 1 0
      (S.drop (m + 1)).length =
      (S.drop (m + 1) ++ [u]).take 1 ++ S.drop (m + 1) ++ (W ++ (P ++ S.take m ++ [y])) := by
    simpa using Circ.memmove_shift [] (S.drop (m + 1)) (W ++ (P ++ S.take m ++ [y])) u
  have hlenX : ((S.drop (m + 1) ++ [u]).take 1 ++ S.drop (m + 1) ++ (W ++ (P ++ S.take m))).length =
      s.nconns - 1 := by
    simp only [List.length_append, List.length_take, List.length_cons, List.length_nil, hlenD,
      hWlen]
    omega
  have h₂ : ((S.drop (m + 1) ++ [u]).take 1 ++ S.drop (m + 1) ++
      (W ++ (P ++ S.take m ++ [y]))).getD (s.nconns - 1) (-1) = y := by
    rw [← hlenX]
    simp [List.getD_eq_getElem?_getD]
  have h₃ : ((S.drop (m + 1) ++ [u]).take 1 ++ S.drop (m + 1) ++
      (W ++ (P ++ S.take m ++ [y]))).set 0 y = (y :: S.drop (m + 1) ++ W ++ P) ++ S.take m ++ y :: [] := by
    cases S.drop (m + 1) <;> simp
  rw [h₁, h₂, h₃]
  -- from the place of `u` on: `S.take m` moves up over `y`, and `u` goes in
  have hlenP : (y :: S.drop (m + 1) ++ W ++ P).length = s.topIdx + P.length := by
    simp only [List.length_append, List.length_cons, hlenD, hWlen]
    omega
  have hlenT : (y :: S.drop (m + 1) ++ W).length = s.topIdx := by
    simp only [List.length_append, List.length_cons, hlenD, hWlen]
    omega
  rw [← hlenP, show s.nconns - 1 - (y :: S.drop (m + 1) ++ W ++ P).length = (S.take m).length by
      rw [hlenP, List.length_take]; omega,
    Circ.set_memmove_insert]
  conv_lhs => rw [← hlenT]
  rw [List.append_nil, List.append_assoc (y :: S.drop (m + 1) ++ W) P,
    List.rotate_append_length_eq]
  conv_rhs => rw [hSy]
  simp [hW]

/-- `q_insert` when the queued connections run round the end of the array and
`u` goes among those from cell 0 on. -/
theorem Layout.qInsert_view_wrap_ge (h : Layout s R (u :: U)) (hs : Cmp.Sorted (Cmp.ordOf c) R)
    (hwrap : s.nconns ≤ s.topIdx + s.filling)
    (hp : s.nconns - s.topIdx ≤ (R.takeWhile fun b => decide ¬Cmp.ordOf c u b = .lt).length) :
    (s.qInsert c ((s.topIdx + s.filling) % s.nconns)).order.rotate s.topIdx =
      R.orderedInsert (fun a b => Cmp.ordOf c a b = .lt) u ++ U ++
        List.replicate (s.nconns - s.active) (-1) := by
  have hf := h.length_ready
  have hact := h.length_active
  have ht := h.topIdx_lt
  have hle := h.active_le
  simp only [List.length_cons] at hact
  have hpos := h.pos_eq hs
  rw [List.orderedInsert_eq_take_drop]
  set q : ℤ → Bool := fun b => decide ¬Cmp.ordOf c u b = .lt
  set W := U ++ List.replicate (s.nconns - s.active) (-1) with hW
  have hWlen : W.length = s.nconns - s.filling - 1 := by
    simp only [hW, List.length_append, List.length_replicate]
    have := h.active_le
    omega
  generalize hP : R.takeWhile q = P at hp hpos ⊢
  generalize hS : R.dropWhile q = S
  have hRPS : R = P ++ S := by rw [← hP, ← hS, List.takeWhile_append_dropWhile]
  have hPS : P.length + S.length = R.length := by rw [hRPS, List.length_append]
  -- the first `d` queued connections fill the cells up to the end
  set d := s.nconns - s.topIdx with hd
  have hlenT : (P.drop d ++ u :: S ++ W).length = s.topIdx := by
    simp only [List.length_append, List.length_cons, List.length_drop, hWlen]
    omega
  have hord : s.order = P.drop d ++ S ++ u :: (W ++ P.take d) := by
    have hrot : s.order.rotate (P.drop d ++ S ++ u :: W).length =
        P.take d ++ (P.drop d ++ S ++ u :: W) := by
      rw [show (P.drop d ++ S ++ u :: W).length = s.topIdx by
          rw [← hlenT]; simp; omega,
        h.view, hRPS, hW]
      conv_lhs => rw [← List.take_append_drop d P]
      simp only [List.append_assoc, List.cons_append]
    simpa using Circ.eq_append_of_rotate_eq hrot
  have hpos' : s.pos c ((s.topIdx + s.filling) % s.nconns) = (P.drop d).length := by
    rw [hpos, Nat.mod_eq_sub_mod (show s.nconns ≤ s.topIdx + P.length by omega),
      Nat.mod_eq_of_lt (show s.topIdx + P.length - s.nconns < s.nconns by omega), List.length_drop]
    omega
  have hlast : (s.topIdx + s.filling) % s.nconns = s.topIdx + s.filling - s.nconns := by
    rw [Nat.mod_eq_sub_mod hwrap, Nat.mod_eq_of_lt (show s.topIdx + s.filling - s.nconns < s.nconns by omega)]
  rw [Conns.qInsert_order_of_le (by rw [hpos', hlast, List.length_drop]; omega), hpos',
    h.getD_first, show (s.topIdx + s.filling) % s.nconns - (P.drop d).length = S.length by
      rw [hlast, List.length_drop]; omega,
    hord, Circ.set_memmove_insert]
  conv_lhs => rw [← hlenT]
  rw [← List.append_assoc (P.drop d ++ u :: S) W (P.take d), List.rotate_append_length_eq]
  conv_rhs => rw [← List.take_append_drop d P]
  simp only [List.append_assoc, List.cons_append, hW]

/-- `q_insert` of the first waiting connection `u`: read from `top_idx`, `u` now
follows the queued connections it does not go strictly before. -/
theorem Layout.qInsert_view (h : Layout s R (u :: U)) (hs : Cmp.Sorted (Cmp.ordOf c) R) :
    (s.qInsert c ((s.topIdx + s.filling) % s.nconns)).order.rotate s.topIdx =
      R.orderedInsert (fun a b => Cmp.ordOf c a b = .lt) u ++ U ++
        List.replicate (s.nconns - s.active) (-1) := by
  by_cases hwrap : s.topIdx + s.filling < s.nconns
  · exact h.qInsert_view_of_lt hs hwrap
  · by_cases hp : (R.takeWhile fun b => decide ¬Cmp.ordOf c u b = .lt).length < s.nconns - s.topIdx
    · exact h.qInsert_view_wrap_lt hs (by omega) hp
    · exact h.qInsert_view_wrap_ge hs (by omega) (by omega)

/-- `q_insert` keeps the layout: the first waiting connection joins the queued
ones, after those it does not go strictly before. -/
theorem Layout.qInsert (h : Layout s R (u :: U)) (hs : Cmp.Sorted (Cmp.ordOf c) R) :
    Layout (s.qInsert c ((s.topIdx + s.filling) % s.nconns))
      (R.orderedInsert (fun a b => Cmp.ordOf c a b = .lt) u) U where
  length_order := by
    rw [← List.length_rotate _ s.topIdx, h.qInsert_view hs]
    have := h.length_active
    have := h.active_le
    simp only [List.length_append, List.orderedInsert_length, List.length_cons,
      List.length_replicate, Conns.qInsert_nconns] at *
    omega
  topIdx_lt := h.topIdx_lt
  length_ready := by
    have := h.length_ready
    simp only [List.orderedInsert_length, Conns.qInsert_filling]
    omega
  length_active := by
    have := h.length_active
    simp only [List.orderedInsert_length, List.length_cons, Conns.qInsert_active] at *
    omega
  active_le := h.active_le
  view := h.qInsert_view hs


/-! ## `_move_client_row` -/

/-- `_move_client_row` on the waiting connection `j` places after the queued
ones: it swaps places with the first waiting connection and is inserted among
the queued ones. -/
theorem Layout.moveClientRow {s : Conns} {R U : List ℤ}
    (h : Layout s R U) (hs : Cmp.Sorted (Cmp.ordOf c) R) {j : ℕ} (hj : j < U.length) :
    Layout (s.moveClientRow c ((s.topIdx + s.filling + j) % s.nconns))
      (R.orderedInsert (fun a b => Cmp.ordOf c a b = .lt) U[j]) (U.set j U[0]).tail := by
  have hact := h.length_active
  have hR := h.length_ready
  have hle := h.active_le
  obtain ⟨u₀, U', rfl⟩ : ∃ u₀ U', U = u₀ :: U' :=
    List.exists_cons_of_ne_nil (List.ne_nil_of_length_pos (by omega))
  simp only [List.length_cons] at hact hj
  have hidx : (s.topIdx + s.filling + j) % s.nconns = (s.topIdx + (R.length + j)) % s.nconns := by
    rw [hR, add_assoc]
  rcases Nat.eq_zero_or_pos j with rfl | hj0
  · -- the first waiting connection is inserted where it is
    simp only [Conns.moveClientRow, add_zero, ne_eq, not_true_eq_false, if_false]
    simpa using h.qInsert hs
  · -- the two cells differ: swap them, then insert from the first
    obtain ⟨j, rfl⟩ : ∃ j', j = j' + 1 := ⟨j - 1, by omega⟩
    have hne : (s.topIdx + s.filling) % s.nconns ≠ (s.topIdx + (R.length + (j + 1))) % s.nconns := by
      rw [← hR, Ne, Circ.add_mod_inj (by omega) (by omega)]
      omega
    have hfirst : s.order.getD ((s.topIdx + s.filling) % s.nconns) (-1) = u₀ := h.getD_first
    have hjth : s.order.getD ((s.topIdx + (R.length + (j + 1))) % s.nconns) (-1) = U'[j] := by
      rw [h.getD_add_mod (by omega), List.getD_eq_getElem?_getD, List.append_assoc,
        List.getElem?_append_right (by omega), Nat.add_sub_cancel_left, List.cons_append,
        List.getElem?_cons_succ, List.getElem?_append_left (by omega), List.getElem?_eq_getElem]
      rfl
    simp only [Conns.moveClientRow, hidx, if_pos hne, hjth, hfirst]
    -- after the swap `U'[j]` is the first waiting connection
    set order := (s.order.set ((s.topIdx + (R.length + (j + 1))) % s.nconns) u₀).set
      ((s.topIdx + s.filling) % s.nconns) U'[j] with horder
    have hswap : Layout { s with order } R (U'[j] :: U'.set j u₀) := by
      refine ⟨by simp [horder, h.length_order], h.topIdx_lt, hR, by simp; omega, hle, ?_⟩
      have h₁ := Circ.rotate_set_add_mod (s.order.set ((s.topIdx + (R.length + (j + 1))) % s.nconns)
        u₀) (t := s.topIdx) (k := s.filling) (by simp [h.length_order]; omega) U'[j]
      rw [List.length_set, h.length_order, h.rotate_set (by omega)] at h₁
      dsimp only
      rw [horder, h₁, ← hR]
      simp [show j < U'.length by omega]
    simpa using hswap.qInsert hs

end Insert

end Dohsql
