import Mathlib

/-!
# Ring buffers over a list

A ring of `n` cells is a list of length `n` with two indices below `n`: the
tail `tl`, where the oldest cell sits, and the head `hd`, where the next cell
goes.  Its contents (`view`) run from `tl` to `hd`, round past the end when
`hd < tl`; `tl = hd` is the empty ring, so a ring holds at most `n - 1` cells
(`length_view_lt`).

A writer copies a chunk at the head (`writeAt`) no longer than the cells
free before the tail or the end (`room`), and moves the head past it, to 0 when
it reaches the end (`wrap`).  The chunk then ends the contents
(`view_writeAt`).  A reader takes the first segment from the tail, up to the
head or to the end (`span`); the segment is the start of the contents
(`take_span`), and moving the tail past any part of it drops that part from the
contents (`view_advance`).  The room is zero exactly on the full ring
(`room_eq_zero_iff`).
-/

namespace Ring

variable {α : Type*}

/-- The cells from `tl` up to `hd`, round past the end of the list when `hd < tl`. -/
def view (buf : List α) (tl hd : ℕ) : List α :=
  if tl ≤ hd then (buf.drop tl).take (hd - tl) else buf.drop tl ++ buf.take hd

/-- `memcpy(&buf[i], src, len)`: the cells from `i` on replaced by `src`. -/
def writeAt (buf : List α) (i : ℕ) (src : List α) : List α :=
  buf.take i ++ src ++ buf.drop (i + src.length)

/-- The cells a write at `hd` may fill without wrapping: up to the cell before
the tail, or up to the end, and one fewer when the tail is at 0. -/
def room (n tl hd : ℕ) : ℕ :=
  if hd < tl then tl - hd - 1 else n - hd - (if tl = 0 then 1 else 0)

/-- The first segment of the contents: from the tail to the head, or to the end
when the contents wrap. -/
def span (n tl hd : ℕ) : ℕ :=
  if hd < tl then n - tl else hd - tl

/-- An index moved to or past the end of `n` cells goes back to 0. -/
def wrap (n i : ℕ) : ℕ := if n ≤ i then 0 else i

section

variable {buf : List α} {n tl hd : ℕ}

theorem length_writeAt {i : ℕ} {src : List α} (h : i + src.length ≤ buf.length) :
    (writeAt buf i src).length = buf.length := by
  simp only [writeAt, List.length_append, List.length_take, List.length_drop]
  omega

theorem writeAt_singleton {i : ℕ} (a : α) (h : i < buf.length) :
    writeAt buf i [a] = buf.set i a := by
  rw [writeAt, List.set_eq_take_append_cons_drop, if_pos h, List.length_singleton]
  simp

theorem view_self (buf : List α) (i : ℕ) : view buf i i = [] := by
  simp [view]

theorem wrap_lt (hn : 0 < n) (i : ℕ) : wrap n i < n := by
  unfold wrap
  split_ifs <;> omega

theorem length_view (hn : buf.length = n) (htl : tl < n) (hhd : hd < n) :
    (view buf tl hd).length = if tl ≤ hd then hd - tl else n - tl + hd := by
  unfold view
  split_ifs with h
  · simp only [List.length_take, List.length_drop]
    omega
  · simp only [List.length_append, List.length_drop, List.length_take]
    omega

/-- A ring of `n` cells holds at most `n - 1`. -/
theorem length_view_lt (hn : buf.length = n) (htl : tl < n) (hhd : hd < n) :
    (view buf tl hd).length < n := by
  rw [length_view hn htl hhd]
  split_ifs <;> omega

theorem view_eq_nil_iff (hn : buf.length = n) (htl : tl < n) (hhd : hd < n) :
    view buf tl hd = [] ↔ tl = hd := by
  rw [← List.length_eq_zero_iff, length_view hn htl hhd]
  split_ifs <;> omega

/-- The room is zero exactly when the head is one cell behind the tail, round
the ring. -/
theorem room_eq_zero_iff (htl : tl < n) (hhd : hd < n) :
    room n tl hd = 0 ↔ (hd = n - 1 ∧ tl = 0) ∨ hd + 1 = tl := by
  unfold room
  split_ifs <;> omega

theorem drop_writeAt_of_le {i j : ℕ} {src : List α} (hi : i ≤ buf.length) (hj : j ≤ i) :
    (writeAt buf i src).drop j = (buf.drop j).take (i - j) ++ src ++ buf.drop (i + src.length) := by
  rw [writeAt, List.append_assoc, List.drop_append_of_le_length (by simp; omega), List.drop_take,
    List.append_assoc]

theorem drop_writeAt_of_ge {i j : ℕ} {src : List α} (hi : i ≤ buf.length)
    (hj : i + src.length ≤ j) : (writeAt buf i src).drop j = buf.drop j := by
  have hlen : (buf.take i ++ src).length = i + src.length := by simp; omega
  rw [writeAt, ← Nat.add_sub_cancel' hj, ← List.drop_drop, ← hlen, List.drop_left, List.drop_drop, hlen]

theorem take_writeAt {i : ℕ} {src : List α} (hi : i ≤ buf.length) :
    (writeAt buf i src).take (i + src.length) = buf.take i ++ src := by
  have hlen : (buf.take i ++ src).length = i + src.length := by simp; omega
  rw [writeAt, ← hlen, List.take_left]

/-- **A write at the head** of a chunk that fits in the room ends the contents. -/
theorem view_writeAt (hn : buf.length = n) (htl : tl < n) (hhd : hd < n) {src : List α}
    (hk : src.length ≤ room n tl hd) :
    view (writeAt buf hd src) tl (wrap n (hd + src.length)) = view buf tl hd ++ src := by
  unfold room at hk
  unfold view wrap
  by_cases hlt : hd < tl
  · -- the head stays behind the tail
    rw [if_pos hlt] at hk
    rw [if_neg (show ¬n ≤ hd + src.length by omega), if_neg (show ¬tl ≤ hd + src.length by omega),
      if_neg (show ¬tl ≤ hd by omega), drop_writeAt_of_ge (by omega) (by omega),
      take_writeAt (by omega), List.append_assoc]
  · rw [if_neg hlt] at hk
    rw [if_pos (show tl ≤ hd by omega)]
    by_cases hend : n ≤ hd + src.length
    · -- the chunk reaches the end, and the tail is not at 0
      rw [if_pos hend, if_neg (show ¬tl ≤ 0 by split_ifs at hk <;> omega), List.take_zero,
        List.append_nil, drop_writeAt_of_le (by omega) (by omega),
        List.drop_eq_nil_of_le (show buf.length ≤ hd + src.length by omega), List.append_nil]
    · rw [if_neg hend, if_pos (show tl ≤ hd + src.length by omega),
        drop_writeAt_of_le (by omega) (by omega)]
      have hlen : ((buf.drop tl).take (hd - tl) ++ src).length = hd + src.length - tl := by
        simp; omega
      rw [← hlen, List.take_left]

/-- The first segment from the tail starts the contents. -/
theorem take_span (hn : buf.length = n) (htl : tl < n) :
    (buf.drop tl).take (span n tl hd) = (view buf tl hd).take (span n tl hd) := by
  unfold span view
  by_cases hlt : hd < tl
  · rw [if_pos hlt, if_neg (show ¬tl ≤ hd by omega),
      List.take_of_length_le (show (buf.drop tl).length ≤ n - tl by simp; omega)]
    have hlen : (buf.drop tl).length = n - tl := by simp; omega
    rw [← hlen, List.take_left]
  · rw [if_neg hlt, if_pos (show tl ≤ hd by omega), List.take_take, Nat.min_self]

theorem span_le_length_view (hn : buf.length = n) (htl : tl < n) (hhd : hd < n) :
    span n tl hd ≤ (view buf tl hd).length := by
  rw [length_view hn htl hhd]
  unfold span
  split_ifs <;> omega

/-- **Moving the tail** past part of the first segment drops that part from the
contents. -/
theorem view_advance (hn : buf.length = n) (htl : tl < n) (hhd : hd < n) {r : ℕ}
    (hr : r ≤ span n tl hd) : view buf (wrap n (tl + r)) hd = (view buf tl hd).drop r := by
  unfold span at hr
  unfold view wrap
  by_cases hlt : hd < tl
  · rw [if_pos hlt] at hr
    rw [if_neg (show ¬tl ≤ hd by omega)]
    have hlen : (buf.drop tl).length = n - tl := by simp; omega
    by_cases hend : n ≤ tl + r
    · -- the tail reaches the end and goes back to 0
      rw [if_pos hend, if_pos (Nat.zero_le _), List.drop_zero, Nat.sub_zero,
        show r = (buf.drop tl).length by omega, List.drop_left]
    · rw [if_neg hend, if_neg (show ¬tl + r ≤ hd by omega),
        List.drop_append_of_le_length (by omega), List.drop_drop]
  · rw [if_neg hlt] at hr
    rw [if_neg (show ¬n ≤ tl + r by omega), if_pos (show tl + r ≤ hd by omega),
      if_pos (show tl ≤ hd by omega), List.drop_take, List.drop_drop]
    congr 1
    omega

end

end Ring
