import Mathlib
import Comdb2.Lib.Ring

/-!
# Circular arrays

An array of `n` cells read from an index `top` round past the end is
`l.rotate top`.  The cell `k` places after `top` sits at `(top + k) % n`, and
writing it is writing the cell `k` of that view (`rotate_set_add_mod`).

`memmove(&a[i + 1], &a[i], k)` moves `k` cells up by one place
(`memmove_shift`).  Followed by a write of `u` at `i`, it inserts `u` at `i`
and loses the cell just after the moved ones (`set_memmove_insert`): this is
how an array that is full up to a free cell takes a new element in the middle.
A list is recovered from its view by rotating back (`eq_append_of_rotate_eq`).
-/

namespace Circ

variable {α : Type*}

/-- `memmove(&l[dst], &l[src], k)`: the `k` cells from `src` copied to `dst`, as
through a buffer of their own. -/
def memmove (l : List α) (dst src k : ℕ) : List α :=
  Ring.writeAt l dst ((l.drop src).take k)

/-- Moving the cells of `S` up by one leaves the cell where they started as it
was and overwrites the cell `y` after them. -/
theorem memmove_shift (P S T : List α) (y : α) :
    memmove (P ++ S ++ y :: T) (P.length + 1) P.length S.length =
      P ++ (S ++ [y]).take 1 ++ S ++ T := by
  have htake : (P ++ S ++ y :: T).take (P.length + 1) = P ++ (S ++ [y]).take 1 := by
    rw [List.append_assoc, List.take_length_add_append]
    cases S <;> simp
  have hdrop : (P ++ S ++ y :: T).drop P.length = S ++ y :: T := by simp
  have hrest : (P ++ S ++ y :: T).drop (P.length + 1 + S.length) = T := by
    rw [List.append_assoc, show P.length + 1 + S.length = P.length + (S.length + 1) by omega,
      List.drop_length_add_append]
    simp
  rw [memmove, Ring.writeAt, hdrop, List.take_left' rfl, htake, hrest]

/-- Moving no cells changes nothing. -/
theorem memmove_zero (l : List α) (dst src : ℕ) : memmove l dst src 0 = l := by
  simp [memmove, Ring.writeAt, List.take_append_drop]

/-- The guard that C code puts around a `memmove` whose count may be zero. -/
theorem ite_memmove (l : List α) {i j : ℕ} (h : i ≤ j) :
    (if i < j then memmove l (i + 1) i (j - i) else l) = memmove l (i + 1) i (j - i) := by
  split_ifs with hij
  · rfl
  · rw [show j - i = 0 by omega, memmove_zero]

/-- ... and writing `u` where they started then inserts `u` before them. -/
theorem set_memmove_insert (P S T : List α) (y u : α) :
    (memmove (P ++ S ++ y :: T) (P.length + 1) P.length S.length).set P.length u =
      P ++ u :: S ++ T := by
  rw [memmove_shift]
  cases S <;> simp

/-- Writing the first cell over the cell just after `W` and then dropping the
first cell turns `W` round by one: the swap of a cell with the first one,
followed by taking the first one away. -/
theorem tail_set_getElem_zero (W U : List α) (x : α) :
    ((W ++ x :: U).set W.length (W ++ x :: U)[0]).tail = W.rotate 1 ++ U := by
  cases W with
  | nil => simp
  | cons w W => simp [List.rotate_cons_succ]

/-- A list whose view from `t` is `X ++ Y`, with `t` cells in `Y`, is `Y ++ X`. -/
theorem eq_append_of_rotate_eq {l X Y : List α} (h : l.rotate Y.length = X ++ Y) : l = Y ++ X := by
  rw [← List.rotate_eq_rotate (n := Y.length), h, List.rotate_append_length_eq]

/-- The view from `t + m` is the view from `t` rotated by `m`. -/
theorem rotate_add_mod (l : List α) (t m : ℕ) : l.rotate ((t + m) % l.length) = (l.rotate t).rotate m := by
  rw [List.rotate_mod, List.rotate_rotate]

/-- The cell `(t + k) % n` is the cell `k` of the view from `t`. -/
theorem getD_add_mod (l : List α) {t k : ℕ} (hk : k < l.length) (d : α) :
    l.getD ((t + k) % l.length) d = (l.rotate t).getD k d := by
  have hpos : 0 < l.length := by omega
  rw [List.getD_eq_getElem _ _ (Nat.mod_lt _ hpos),
    List.getD_eq_getElem _ _ (by rw [List.length_rotate]; exact hk), List.getElem_rotate, add_comm]

/-- The cell `k` of the middle part of a list. -/
theorem getD_append_add (A L M : List α) {k : ℕ} (hk : k < L.length) (d : α) :
    (A ++ L ++ M).getD (A.length + k) d = L[k] := by
  rw [List.getD_eq_getElem _ _ (by simp; omega)]
  simp [List.getElem_append_right, List.getElem_append_left hk]

/-- Two cells `a` and `b` places after `t` are the same cell only when `a = b`. -/
theorem add_mod_inj {n t a b : ℕ} (ha : a < n) (hb : b < n) : (t + a) % n = (t + b) % n ↔ a = b := by
  constructor
  · intro h
    exact (Nat.ModEq.add_left_cancel' t h).eq_of_lt_of_lt ha hb
  · rintro rfl
    rfl

/-- `(top + k) % n` is the cell `k` of the view from `top`: writing it is writing
the view. -/
theorem rotate_set_add_mod (l : List α) {t k : ℕ} (hk : k < l.length) (x : α) :
    (l.set ((t + k) % l.length) x).rotate t = (l.rotate t).set k x := by
  apply List.ext_getElem (by simp)
  intro j hj₁ hj₂
  simp only [List.length_rotate, List.length_set] at hj₁ hj₂
  rw [List.getElem_rotate, List.getElem_set, List.getElem_set, List.getElem_rotate]
  simp only [List.length_set]
  -- the view's cell `j` is the cell `(j + t) % n`, which is `(t + k) % n` only for `j = k`
  rw [add_comm j t]
  by_cases hkj : k = j
  · rw [if_pos ((add_mod_inj hk hj₁).2 hkj), if_pos hkj]
  · rw [if_neg (mt (add_mod_inj hk hj₁).1 hkj), if_neg hkj]

end Circ
