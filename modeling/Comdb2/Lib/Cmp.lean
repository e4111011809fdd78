import Mathlib
import Comdb2.Lib.Bsearch

/-!
# Three-way comparators that return integers

A C comparator returns an `int`: negative, zero or positive.  `ordOf c` reads
such a comparator as an `Ordering`, so that the order classes of the standard
library apply to it: `Std.TransCmp (ordOf c)` says that `c` is a total
preorder, antisymmetric in sign and transitive.

*Building comparators.*  The C idioms that build a comparator out of others
keep it lawful: negating one (`transCmp_neg`), comparing two values by a
projection of each (`transCmp_comap`), and trying a second comparator only
where the first ties (`thenInt`, which is the lexicographic `compareLex` of
the two, `ordOf_thenInt`).

*Sorted lists.*  A list is sorted by a comparator when no element goes after
a later one (`Sorted`).  The elements that a new element does not go before
then form a prefix (`prefixBy_not_lt`), the prefix a binary search finds, and
inserting the new element after them, as `List.orderedInsert` does with the
strict test, keeps the list sorted (`sorted_orderedInsert`).
-/

namespace Cmp

variable {α β : Type*}

/-- An `int` comparator read as an `Ordering`. -/
def ordOf (c : α → α → ℤ) (a b : α) : Ordering := compare (c a b) 0

section Int

variable {c : α → α → ℤ} {a b : α}

@[simp] theorem ordOf_eq_lt : ordOf c a b = .lt ↔ c a b < 0 := compare_lt_iff_lt

@[simp] theorem ordOf_eq_eq : ordOf c a b = .eq ↔ c a b = 0 := compare_eq_iff_eq

@[simp] theorem isLE_ordOf : (ordOf c a b).isLE ↔ c a b ≤ 0 := by
  rw [Ordering.isLE_iff_ne_gt]
  exact compare_le_iff_le

theorem compare_neg_zero (r : ℤ) : compare (-r) 0 = (compare r 0).swap := by
  rw [Int.compare_swap]
  rcases lt_trichotomy r 0 with h | h | h
  · rw [compare_gt_iff_gt.2 (by omega), compare_gt_iff_gt.2 h]
  · subst h
    rfl
  · rw [compare_lt_iff_lt.2 (by omega), compare_lt_iff_lt.2 h]

/-- A negated comparator compares the other way round. -/
theorem ordOf_neg [Std.OrientedCmp (ordOf c)] :
    ordOf (fun a b => -c a b) = fun a b => ordOf c b a := by
  funext a b
  rw [ordOf, compare_neg_zero, ← ordOf, ← Std.OrientedCmp.eq_swap]

theorem transCmp_neg [Std.TransCmp (ordOf c)] : Std.TransCmp (ordOf fun a b => -c a b) := by
  rw [ordOf_neg]
  exact Std.TransCmp.opposite

/-- The comparator that finds everything equal. -/
theorem transCmp_zero : Std.TransCmp (ordOf fun (_ _ : α) => (0 : ℤ)) where
  eq_swap := rfl
  isLE_trans _ _ := rfl

/-- `ret = c₁(a, b); if (ret) return ret; return c₂(a, b);` -/
def thenInt (c₁ c₂ : α → α → ℤ) (a b : α) : ℤ := if c₁ a b ≠ 0 then c₁ a b else c₂ a b

theorem ordOf_thenInt (c₁ c₂ : α → α → ℤ) :
    ordOf (thenInt c₁ c₂) = compareLex (ordOf c₁) (ordOf c₂) := by
  funext a b
  by_cases h : c₁ a b = 0
  · simp [ordOf, thenInt, compareLex, h]
  · -- a decided first comparison is the answer on both sides
    have h' : compare (c₁ a b) 0 ≠ .eq := by rwa [Ne, compare_eq_iff_eq]
    simp only [ordOf, thenInt, compareLex, if_pos h]
    cases hc : compare (c₁ a b) 0 with
    | eq => exact absurd hc h'
    | lt => rfl
    | gt => rfl

end Int

/-- Comparing by a projection of each side keeps a comparator lawful. -/
theorem transCmp_comap {cmp : α → α → Ordering} [Std.TransCmp cmp] (f : β → α) :
    Std.TransCmp fun a b => cmp (f a) (f b) where
  eq_swap := Std.OrientedCmp.eq_swap
  isLE_trans := Std.TransCmp.isLE_trans

/-! ## Sorted lists -/

section Sorted

/-- No element of the list goes after a later one. -/
def Sorted (cmp : α → α → Ordering) (l : List α) : Prop :=
  l.Pairwise fun a b => (cmp a b).isLE

variable {cmp : α → α → Ordering} [Std.TransCmp cmp]

/-- In a sorted list the elements that `x` does not go strictly before come
first. -/
theorem prefixBy_not_lt {l : List α} (h : Sorted cmp l) (x : α) :
    Bsearch.PrefixBy (fun b => decide ¬cmp x b = .lt) l :=
  h.imp fun hab hb => by
    simp only [decide_eq_true_eq] at hb ⊢
    exact fun ha => hb (Std.TransCmp.lt_of_lt_of_isLE ha hab)

/-- ... the same fact the other way round: in a sorted list, once `x` goes
strictly before an element it goes strictly before every later one. -/
theorem lt_mono {l : List α} (h : Sorted cmp l) (x : α) :
    l.Pairwise fun b b' => decide (cmp x b = .lt) = true → decide (cmp x b' = .lt) = true :=
  h.imp fun hbb' hb => by
    simp only [decide_eq_true_eq] at hb ⊢
    exact Std.TransCmp.lt_of_lt_of_isLE hb hbb'

/-- Inserting `x` before the first element it goes strictly before keeps a
list sorted. -/
theorem sorted_orderedInsert (x : α) :
    ∀ {l : List α}, Sorted cmp l → Sorted cmp (l.orderedInsert (fun a b => cmp a b = .lt) x)
  | [], _ => List.pairwise_singleton _ _
  | b :: l, h => by
    rw [List.orderedInsert_cons]
    split_ifs with hxb
    · -- `x` goes before `b`, hence before everything after `b`
      refine List.Pairwise.cons (fun c hc => ?_) h
      rcases List.mem_cons.1 hc with rfl | hc
      · simp [hxb]
      · simp [Std.TransCmp.lt_of_lt_of_isLE hxb (List.rel_of_pairwise_cons h hc)]
    · refine List.Pairwise.cons (fun c hc => ?_) (sorted_orderedInsert x h.of_cons)
      rcases (List.mem_orderedInsert _).1 hc with rfl | hc
      · exact Std.OrientedCmp.isLE_of_isGE (Ordering.isGE_iff_ne_lt.2 hxb)
      · exact List.rel_of_pairwise_cons h hc

end Sorted

end Cmp
