import Mathlib

/-!
# Lexicographic comparison of sequences

Byte strings are ordered the way `memcmp` orders them: the first position where
they differ decides, and a proper prefix sorts first.  `Lex.cmp` is that loop,
written once for any linear order on the elements.  `cmp_compares` identifies
it with Mathlib's lexicographic order on lists, so every order fact about lists
is available for it.

The remaining lemmas are the ones encodings are built from.  Comparing two
concatenations whose first parts have one length compares the first parts and
then the rest (`cmp_append_of_length_eq`).  Mapping a strictly monotone function
over both sides changes nothing, and a strictly antitone one swaps the answer
when the lengths agree (`cmp_map_of_strictMono`, `cmp_map_of_strictAnti`).

`prefixCmp` compares only the common prefix of two sequences, as `memcmp` does
over the shorter of two lengths.  A full comparison is the prefix comparison with
the lengths breaking the tie (`cmp_eq_prefixCmp_then`).  The prefix comparison is
not an order: a proper prefix ties with every extension of it.  It does keep one
transitivity, `prefixCmp_ne_gt_of_lt`, which is what bounds checks written with it
rely on.
-/

namespace Lex

variable {α β : Type*} [LinearOrder α] [LinearOrder β]

/-- Three-way lexicographic comparison, element by element. -/
def cmp : List α → List α → Ordering
  | [], [] => .eq
  | [], _ :: _ => .lt
  | _ :: _, [] => .gt
  | a :: l, b :: l' => (compare a b).then (cmp l l')

@[simp] theorem cmp_nil_nil : cmp ([] : List α) [] = .eq := rfl

@[simp] theorem cmp_nil_cons (b : α) (l : List α) : cmp [] (b :: l) = .lt := rfl

@[simp] theorem cmp_cons_nil (a : α) (l : List α) : cmp (a :: l) [] = .gt := rfl

@[simp] theorem cmp_cons_cons (a b : α) (l l' : List α) :
    cmp (a :: l) (b :: l') = (compare a b).then (cmp l l') := rfl

theorem compare_self' (a : α) : compare a a = .eq := compare_eq_iff_eq.2 rfl

theorem cmp_compares : ∀ l l' : List α, (cmp l l').Compares l l'
  | [], [] => rfl
  | [], b :: l' => List.nil_lt_cons b l'
  | a :: l, [] => List.nil_lt_cons a l
  | a :: l, b :: l' => by
      have ih := cmp_compares l l'
      rcases lt_trichotomy a b with hab | rfl | hab
      · rw [cmp_cons_cons, compare_lt_iff_lt.2 hab]
        exact List.cons_lt_cons_iff.2 (Or.inl hab)
      · rw [cmp_cons_cons, compare_self', Ordering.eq_then]
        cases h : cmp l l' <;> rw [h] at ih
        · exact List.cons_lt_cons_iff.2 (Or.inr ⟨rfl, ih⟩)
        · exact congrArg _ ih
        · exact List.cons_lt_cons_iff.2 (Or.inr ⟨rfl, ih⟩)
      · rw [cmp_cons_cons, compare_gt_iff_gt.2 hab]
        exact List.cons_lt_cons_iff.2 (Or.inl hab)

theorem cmp_eq_eq_iff {l l' : List α} : cmp l l' = .eq ↔ l = l' := (cmp_compares l l').eq_eq

theorem cmp_eq_lt_iff {l l' : List α} : cmp l l' = .lt ↔ l < l' := (cmp_compares l l').eq_lt

theorem cmp_eq_gt_iff {l l' : List α} : cmp l l' = .gt ↔ l' < l := (cmp_compares l l').eq_gt

@[simp] theorem cmp_self (l : List α) : cmp l l = .eq := cmp_eq_eq_iff.2 rfl

theorem cmp_swap (l l' : List α) : cmp l' l = (cmp l l').swap :=
  (cmp_compares l' l).inj (cmp_compares l l').swap

theorem compare_map_of_strictMono {f : α → β} (hf : StrictMono f) (a b : α) :
    compare (f a) (f b) = compare a b := by
  rw [← cmp_eq_compare, ← cmp_eq_compare]
  exact hf.cmp_map_eq a b

/-! ## Concatenation -/

/-- Two concatenations whose first parts have one length: the first parts decide,
and the second parts break a tie. -/
theorem cmp_append_of_length_eq :
    ∀ {l₁ l₁' : List α}, l₁.length = l₁'.length → ∀ l₂ l₂' : List α,
      cmp (l₁ ++ l₂) (l₁' ++ l₂') = (cmp l₁ l₁').then (cmp l₂ l₂')
  | [], [], _, l₂, l₂' => by simp
  | a :: l₁, b :: l₁', h, l₂, l₂' => by
      have ih := cmp_append_of_length_eq (Nat.succ.inj h) l₂ l₂'
      rw [List.cons_append, List.cons_append, cmp_cons_cons, cmp_cons_cons, ih,
        Ordering.then_assoc]

/-- A shared prefix does not change the comparison. -/
theorem cmp_append_left (l l₂ l₂' : List α) : cmp (l ++ l₂) (l ++ l₂') = cmp l₂ l₂' := by
  rw [cmp_append_of_length_eq rfl, cmp_self, Ordering.eq_then]

/-! ## Comparing common prefixes -/

/-- Comparison of the common prefix of two sequences: the shorter one ties with
every sequence it is a prefix of. -/
def prefixCmp : List α → List α → Ordering
  | a :: l, b :: l' => (compare a b).then (prefixCmp l l')
  | _, _ => .eq

@[simp] theorem prefixCmp_nil_left (l : List α) : prefixCmp [] l = .eq := by cases l <;> rfl

@[simp] theorem prefixCmp_nil_right (l : List α) : prefixCmp l [] = .eq := by cases l <;> rfl

@[simp] theorem prefixCmp_cons_cons (a b : α) (l l' : List α) :
    prefixCmp (a :: l) (b :: l') = (compare a b).then (prefixCmp l l') := rfl

/-- The prefix comparison is the comparison of both sequences cut to the shorter length. -/
theorem prefixCmp_eq_cmp_take :
    ∀ l l' : List α,
      prefixCmp l l' = cmp (l.take (min l.length l'.length)) (l'.take (min l.length l'.length))
  | [], _ => by simp
  | _ :: _, [] => by simp
  | a :: l, b :: l' => by
      simp only [List.length_cons, Nat.add_min_add_right, List.take_succ_cons, prefixCmp_cons_cons,
        cmp_cons_cons, prefixCmp_eq_cmp_take l l']

/-- A full comparison is the prefix comparison, with the lengths breaking a tie. -/
theorem cmp_eq_prefixCmp_then :
    ∀ l l' : List α, cmp l l' = (prefixCmp l l').then (compare l.length l'.length)
  | [], [] => rfl
  | [], _ :: _ => rfl
  | _ :: _, [] => rfl
  | a :: l, b :: l' => by
      have hlen : compare (l.length + 1) (l'.length + 1) = compare l.length l'.length :=
        compare_map_of_strictMono add_left_strictMono _ _
      rw [cmp_cons_cons, prefixCmp_cons_cons, List.length_cons, List.length_cons, hlen,
        Ordering.then_assoc, cmp_eq_prefixCmp_then l l']

theorem then_eq_lt_iff {o o' : Ordering} : o.then o' = .lt ↔ o = .lt ∨ (o = .eq ∧ o' = .lt) := by
  cases o <;> simp

theorem then_ne_gt_iff {o o' : Ordering} :
    o.then o' ≠ .gt ↔ o = .lt ∨ (o = .eq ∧ o' ≠ .gt) := by
  cases o <;> simp

/-- If `k` does not pass `a` on their common prefix, and `a` is strictly below `b`
on theirs, then `k` does not pass `b`.  A tie of `k` with `a` can come from `k`
being short, so the conclusion is a tie or less, not strictly less. -/
theorem prefixCmp_ne_gt_of_lt :
    ∀ {k a b : List α}, prefixCmp k a ≠ .gt → prefixCmp a b = .lt → prefixCmp k b ≠ .gt
  | [], _, _, _, _ => by simp
  | _ :: _, [], _, _, hab => by simp at hab
  | _ :: _, _ :: _, [], _, hab => by simp at hab
  | x :: k, y :: a, z :: b, hka, hab => by
      simp only [prefixCmp_cons_cons, then_ne_gt_iff, then_eq_lt_iff, compare_lt_iff_lt,
        compare_eq_iff_eq] at hka hab ⊢
      -- the heads decide unless both comparisons tie there
      rcases hab with hyz | ⟨rfl, hab'⟩ <;> rcases hka with hxy | ⟨rfl, hka'⟩
      · exact .inl (hxy.trans hyz)
      · exact .inl hyz
      · exact .inl hxy
      · exact .inr ⟨rfl, prefixCmp_ne_gt_of_lt hka' hab'⟩

/-- A strict prefix comparison is decided within the shorter length, so it
stands when the right side is cut to the left side's length and anything is
put after it. -/
theorem prefixCmp_take_append_of_lt (c : List α) :
    ∀ {a b : List α}, prefixCmp a b = .lt → prefixCmp a (b.take a.length ++ c) = .lt
  | [], _, hab => by simp at hab
  | _ :: _, [], hab => by simp at hab
  | x :: a, y :: b, hab => by
      simp only [prefixCmp_cons_cons, then_eq_lt_iff, List.length_cons, List.take_succ_cons,
        List.cons_append] at hab ⊢
      rcases hab with hxy | ⟨hxy, hab'⟩
      · exact .inl hxy
      · exact .inr ⟨hxy, prefixCmp_take_append_of_lt c hab'⟩

/-! ## Mapping the elements -/

theorem cmp_map_of_strictMono {f : α → β} (hf : StrictMono f) :
    ∀ l l' : List α, cmp (l.map f) (l'.map f) = cmp l l'
  | [], [] => rfl
  | [], _ :: _ => rfl
  | _ :: _, [] => rfl
  | a :: l, b :: l' => by
      simp only [List.map_cons, cmp_cons_cons, compare_map_of_strictMono hf,
        cmp_map_of_strictMono hf l l']

/-- A strictly antitone map reverses the comparison of sequences of one length. -/
theorem cmp_map_of_strictAnti {f : α → β} (hf : StrictAnti f) :
    ∀ {l l' : List α}, l.length = l'.length → cmp (l.map f) (l'.map f) = (cmp l l').swap
  | [], [], _ => rfl
  | a :: l, b :: l', h => by
      have hab : compare (f a) (f b) = (compare a b).swap := by
        rcases lt_trichotomy a b with h | rfl | h
        · rw [compare_lt_iff_lt.2 h, Ordering.swap_lt, compare_gt_iff_gt]; exact hf h
        · rw [compare_self', compare_self']; rfl
        · rw [compare_gt_iff_gt.2 h, Ordering.swap_gt, compare_lt_iff_lt]; exact hf h
      have ih := cmp_map_of_strictAnti hf (Nat.succ.inj h)
      simp only [List.map_cons, cmp_cons_cons, hab, ih, Ordering.swap_then]

end Lex
