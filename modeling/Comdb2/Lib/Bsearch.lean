import Mathlib

/-!
# Binary search for the end of a prefix

C code searches a sorted array with a loop over an inclusive range `[lo, hi]`
of `int` bounds: it looks at the middle, goes past it when a test holds there
and below it otherwise, and stops when the range is empty.  `upper` is that
loop, with the test `p` on indices and a `fuel` that bounds the rounds.

When the test holds on an initial part of the range and fails after it
(`InitialOn`), the loop stops at the boundary of the two parts, as long as the
fuel is at least the width of the range, since each round takes the middle out
of the range (`Inv.upper`).  The invariant (`Inv`) is the classical one: the
test holds below `lo` and fails above `hi`.

A list whose elements pass a test `q` only on a prefix (`PrefixBy`) is searched
over all its indices.  The loop then returns the length of `takeWhile q`
(`upper_getD`), and every element after the prefix fails the test
(`eq_false_of_mem_dropWhile`).  Inserting at the returned index puts the new
element between the two parts (`insertIdx_takeWhile`).

A second loop searches a half-open range `[left, right)` and ends at the
first index where the test holds (`lower_spec`, `lower_eq_takeWhile`).
-/

namespace Bsearch

/-- The search loop over `[lo, hi]`: past the middle when `p` holds there, below
it otherwise.  The middle is `(lo + hi) >> 1`, a floor halving. -/
def upper (p : ℤ → Bool) : ℕ → ℤ → ℤ → ℤ
  | 0, lo, _ => lo
  | fuel + 1, lo, hi =>
    if lo ≤ hi then
      if p ((lo + hi) / 2) then upper p fuel ((lo + hi) / 2 + 1) hi
      else upper p fuel lo ((lo + hi) / 2 - 1)
    else lo

/-- `p` holds on an initial part of `[lo₀, hi₀]`: wherever it holds, it holds
further left. -/
def InitialOn (p : ℤ → Bool) (lo₀ hi₀ : ℤ) : Prop :=
  ∀ i j, lo₀ ≤ i → i ≤ j → j ≤ hi₀ → p j = true → p i = true

/-- The invariant of a search of `[lo₀, hi₀]` that is now at `[lo, hi]`. -/
structure Inv (p : ℤ → Bool) (lo₀ hi₀ lo hi : ℤ) : Prop where
  lo_ge : lo₀ ≤ lo
  lo_le : lo ≤ hi + 1
  hi_le : hi ≤ hi₀
  below : ∀ i, lo₀ ≤ i → i < lo → p i = true
  above : ∀ i, hi < i → i ≤ hi₀ → p i = false

variable {p : ℤ → Bool} {lo₀ hi₀ lo hi mid : ℤ}

theorem Inv.init (h : lo₀ ≤ hi₀ + 1) : Inv p lo₀ hi₀ lo₀ hi₀ where
  lo_ge := le_rfl
  lo_le := h
  hi_le := le_rfl
  below _ h₁ h₂ := absurd h₂ (not_lt.2 h₁)
  above _ h₁ h₂ := absurd h₂ (not_le.2 h₁)

/-- A round that finds the test true at `mid` moves `lo` past it: the test holds
left of `mid` because it holds at `mid`. -/
theorem Inv.past (hI : Inv p lo₀ hi₀ lo hi) (hp : InitialOn p lo₀ hi₀) (h₁ : lo ≤ mid)
    (h₂ : mid ≤ hi) (hm : p mid = true) : Inv p lo₀ hi₀ (mid + 1) hi where
  lo_ge := by have := hI.lo_ge; omega
  lo_le := by omega
  hi_le := hI.hi_le
  below i hi₀' _ := hp i mid hi₀' (by omega) (by have := hI.hi_le; omega) hm
  above := hI.above

/-- A round that finds the test false at `mid` moves `hi` below it: right of
`mid` the test fails, or it would hold at `mid`. -/
theorem Inv.before (hI : Inv p lo₀ hi₀ lo hi) (hp : InitialOn p lo₀ hi₀) (h₁ : lo ≤ mid)
    (h₂ : mid ≤ hi) (hm : p mid = false) : Inv p lo₀ hi₀ lo (mid - 1) where
  lo_ge := hI.lo_ge
  lo_le := by omega
  hi_le := by have := hI.hi_le; omega
  below := hI.below
  above i hlt hle := by
    by_cases hi' : i ≤ hi
    · refine Bool.eq_false_iff.2 fun hpi => ?_
      have hpm := hp mid i (by have := hI.lo_ge; omega) (by omega) hle hpi
      rw [hm] at hpm
      exact Bool.false_ne_true hpm
    · exact hI.above i (by omega) hle

/-- With fuel for the width of the range, the loop ends at the boundary: the
invariant holds with `hi = lo - 1`. -/
theorem Inv.upper (hp : InitialOn p lo₀ hi₀) :
    ∀ (fuel : ℕ) {lo hi : ℤ}, Inv p lo₀ hi₀ lo hi → hi + 1 - lo ≤ fuel →
      Inv p lo₀ hi₀ (upper p fuel lo hi) (upper p fuel lo hi - 1)
  | 0, lo, hi, hI, hf => by
    -- no fuel is left only when the range is empty
    have hlo : lo - 1 = hi := by have := hI.lo_le; omega
    rw [Bsearch.upper, hlo]
    exact hI
  | fuel + 1, lo, hi, hI, hf => by
    by_cases hle : lo ≤ hi
    · have h₁ : lo ≤ (lo + hi) / 2 := by omega
      have h₂ : (lo + hi) / 2 ≤ hi := by omega
      rw [Bsearch.upper, if_pos hle]
      cases hm : p ((lo + hi) / 2)
      · exact Inv.upper hp fuel (hI.before hp h₁ h₂ hm) (by omega)
      · exact Inv.upper hp fuel (hI.past hp h₁ h₂ hm) (by omega)
    · have hlo : lo - 1 = hi := by have := hI.lo_le; omega
      rw [Bsearch.upper, if_neg hle, hlo]
      exact hI

/-! ## Searching a list -/

variable {α : Type*}

/-- The elements of `l` that pass `q` form a prefix of it. -/
def PrefixBy (q : α → Bool) (l : List α) : Prop := l.Pairwise fun a b => q b = true → q a = true

/-- A prefix of `r` elements passes `q` and the rest fails it: `r` is the length
of `takeWhile q`. -/
theorem length_takeWhile_eq {q : α → Bool} :
    ∀ {l : List α} {r : ℕ}, r ≤ l.length → (∀ k (hk : k < l.length), k < r → q l[k] = true) →
      (∀ k (hk : k < l.length), r ≤ k → q l[k] = false) → (l.takeWhile q).length = r
  | [], r, hr, _, _ => by simp_all
  | a :: l, 0, _, _, hfail => by
    have ha : q a = false := hfail 0 (by simp) le_rfl
    rw [List.takeWhile_cons_of_neg (by simp [ha])]
    rfl
  | a :: l, r + 1, hr, hpass, hfail => by
    have ha : q a = true := hpass 0 (by simp) (by omega)
    rw [List.takeWhile_cons_of_pos ha, List.length_cons,
      length_takeWhile_eq (by simpa using hr)
        (fun k hk hkr => hpass (k + 1) (by simpa using hk) (by omega))
        (fun k hk hkr => hfail (k + 1) (by simpa using hk) (by omega))]

/-- The search over every index of a list returns the length of the prefix that
passes the test. -/
theorem upper_getD {q : α → Bool} {l : List α} (d : α) (hq : PrefixBy q l) :
    upper (fun i => q (l.getD i.toNat d)) l.length 0 (l.length - 1) = (l.takeWhile q).length := by
  set p : ℤ → Bool := fun i => q (l.getD i.toNat d)
  have hget : ∀ (k : ℕ) (hk : k < l.length), p k = q l[k] := fun k hk => by
    simp [p, List.getElem?_eq_getElem hk]
  have hp : InitialOn p 0 (l.length - 1) := by
    intro i j hi hij hj hpj
    obtain ⟨i, rfl⟩ := Int.eq_ofNat_of_zero_le hi
    obtain ⟨j, rfl⟩ := Int.eq_ofNat_of_zero_le (le_trans hi hij)
    have hjl : j < l.length := by omega
    rw [hget i (by omega)]
    rw [hget j hjl] at hpj
    rcases lt_or_eq_of_le (Int.ofNat_le.1 hij) with hlt | rfl
    · exact List.pairwise_iff_getElem.1 hq i j (by omega) hjl hlt hpj
    · exact hpj
  have hI := Inv.upper hp l.length (Inv.init (by omega)) (by omega)
  set r := upper p l.length 0 (l.length - 1)
  have hr0 := hI.lo_ge
  have hrl := hI.hi_le
  have hlen : (l.takeWhile q).length = r.toNat := by
    refine length_takeWhile_eq (by omega) (fun k hk hkr => ?_) (fun k hk hkr => ?_)
    · rw [← hget k hk]
      exact hI.below k (by omega) (by omega)
    · rw [← hget k hk]
      exact hI.above k (by omega) (by omega)
  rw [hlen, Int.toNat_of_nonneg hr0]

/-- Past the prefix, every element fails the test. -/
theorem eq_false_of_mem_dropWhile {q : α → Bool} :
    ∀ {l : List α}, PrefixBy q l → ∀ x ∈ l.dropWhile q, q x = false
  | [], _, x, hx => by simp at hx
  | a :: l, hq, x, hx => by
    rw [PrefixBy, List.pairwise_cons] at hq
    by_cases ha : q a = true
    · rw [List.dropWhile_cons_of_pos ha] at hx
      exact eq_false_of_mem_dropWhile hq.2 x hx
    · rw [List.dropWhile_cons_of_neg ha] at hx
      rcases List.mem_cons.1 hx with rfl | hx
      · simpa using ha
      · -- a later element that passed would make `a` pass
        exact Bool.eq_false_iff.2 fun hqx => ha (hq.1 x hx hqx)

/-- Inserting at the end of the prefix puts the element between the two parts. -/
theorem insertIdx_takeWhile (q : α → Bool) (a : α) :
    ∀ l : List α, l.insertIdx (l.takeWhile q).length a = l.takeWhile q ++ a :: l.dropWhile q
  | [] => rfl
  | b :: l => by
    by_cases hb : q b = true
    · rw [List.takeWhile_cons_of_pos hb, List.dropWhile_cons_of_pos hb, List.length_cons,
        List.insertIdx_succ_cons, insertIdx_takeWhile q a l, List.cons_append]
    · rw [List.takeWhile_cons_of_neg hb, List.dropWhile_cons_of_neg hb]
      rfl

/-- `takeWhile` stops at an element that fails the test. -/
theorem takeWhile_append_cons_of_false {q : α → Bool} {y : α} (hy : q y = false) (M : List α) :
    ∀ L : List α, (L ++ y :: M).takeWhile q = L.takeWhile q
  | [] => by simp [hy]
  | a :: L => by
    by_cases ha : q a = true
    · rw [List.cons_append, List.takeWhile_cons_of_pos ha, List.takeWhile_cons_of_pos ha,
        takeWhile_append_cons_of_false hy M L]
    · rw [List.cons_append, List.takeWhile_cons_of_neg ha, List.takeWhile_cons_of_neg ha]

/-- When the last element of a list whose passing elements form a prefix
passes, every element does. -/
theorem PrefixBy.forall_of_getLast {q : α → Bool} {l : List α} (h : PrefixBy q l) (hne : l ≠ [])
    (hlast : q (l.getLast hne) = true) : ∀ a ∈ l, q a = true := by
  rw [← List.dropLast_append_getLast hne] at h ⊢
  intro a ha
  rcases List.mem_append.1 ha with ha | ha
  · exact (List.pairwise_append.1 h).2.2 a ha _ List.mem_cons_self hlast
  · rw [List.mem_singleton.1 ha]
    exact hlast

/-! ## Half-open ranges

The other common loop shape searches `[left, right)` with `left < right` as
its test: the middle `left + (right - left) / 2` becomes the new `right` when
the test holds there, and `left` moves past it otherwise.  When the test,
once it holds, holds up to `right`, the loop ends at the first index where it
holds (`lower_spec`); over the indices of a list, that is the length of the
prefix that fails it (`lower_eq_takeWhile`).
-/

/-- The search loop over `[left, right)`: down to the middle when `p` holds
there, past it otherwise. -/
def lower (p : ℕ → Bool) (left right : ℕ) : ℕ :=
  if left < right then
    if p (left + (right - left) / 2) then lower p left (left + (right - left) / 2)
    else lower p (left + (right - left) / 2 + 1) right
  else left
termination_by right - left

/-- The loop ends at the first index of the range where the test holds, or at
`right`. -/
theorem lower_spec {p : ℕ → Bool} {left right : ℕ} (hle : left ≤ right)
    (hp : ∀ i j, left ≤ i → i ≤ j → j < right → p i = true → p j = true) :
    left ≤ lower p left right ∧ lower p left right ≤ right ∧
      (∀ i, left ≤ i → i < lower p left right → p i = false) ∧
      ∀ i, lower p left right ≤ i → i < right → p i = true := by
  fun_induction lower p left right with
  | case1 left right hlt hm ih =>
    -- the test holds at the middle, hence on all of `[mid, right)`
    obtain ⟨h₁, h₂, hbelow, habove⟩ :=
      ih (by omega) fun i j hi hij hj => hp i j hi hij (by omega)
    refine ⟨h₁, by omega, hbelow, fun i hi hir => ?_⟩
    by_cases him : i < left + (right - left) / 2
    · exact habove i hi him
    · exact hp _ i (by omega) (by omega) hir hm
  | case2 left right hlt hm ih =>
    -- the test fails at the middle, hence on all of `[left, mid]`
    obtain ⟨h₁, h₂, hbelow, habove⟩ :=
      ih (by omega) fun i j hi hij hj => hp i j (by omega) hij hj
    refine ⟨by omega, h₂, fun i hi hir => ?_, habove⟩
    by_cases him : i ≤ left + (right - left) / 2
    · exact Bool.eq_false_iff.2 fun hpi => hm (hp i _ hi him (by omega) hpi)
    · exact hbelow i (by omega) hir
  | case3 left right hge =>
    have hlr : left = right := by omega
    subst hlr
    exact ⟨le_rfl, le_rfl, fun i hi hir => absurd hir (by omega), fun i hi hir => absurd hir (by omega)⟩

/-- Searching the indices `[a, a + l.length)` of a list `l` laid out from `a`,
with a test that once it holds holds further on, gives `a` plus the length of
the prefix of `l` that fails the test. -/
theorem lower_eq_takeWhile {p : ℕ → Bool} {t : α → Bool} {l : List α} (a : ℕ)
    (hpt : ∀ k (hk : k < l.length), p (a + k) = t l[k])
    (hmono : l.Pairwise fun b c => t b = true → t c = true) :
    lower p a (a + l.length) = a + (l.takeWhile fun b => !t b).length := by
  have hp : ∀ i j, a ≤ i → i ≤ j → j < a + l.length → p i = true → p j = true := by
    intro i j hi hij hj hpi
    obtain ⟨k, rfl⟩ := Nat.exists_eq_add_of_le hi
    obtain ⟨k', rfl⟩ := Nat.exists_eq_add_of_le hij
    rw [hpt k (by omega)] at hpi
    rw [add_assoc, hpt (k + k') (by omega)]
    rcases Nat.eq_zero_or_pos k' with rfl | hk'
    · simpa using hpi
    · exact List.pairwise_iff_getElem.1 hmono k (k + k') (by omega) (by omega) (by omega) hpi
  obtain ⟨h₁, h₂, hbelow, habove⟩ := lower_spec (by omega) hp
  obtain ⟨r, hr⟩ := Nat.exists_eq_add_of_le h₁
  rw [hr]
  congr 1
  refine (length_takeWhile_eq (by omega) (fun k hk hkr => ?_) (fun k hk hkr => ?_)).symm
  · rw [← hpt k hk, hbelow (a + k) (by omega) (by omega)]
    rfl
  · rw [← hpt k hk, habove (a + k) (by omega) (by omega)]
    rfl

end Bsearch
