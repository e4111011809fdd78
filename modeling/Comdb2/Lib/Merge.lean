import Mathlib

/-!
# Draining a second list into a first

`mergeLeft before xs ys` walks two lists with a cursor each, as a replay that
reads one table and drains a second into it does.  While the head of `ys` goes
`before` the head of `xs` it is taken, else the head of `xs` is; the walk stops
where `xs` ends, whatever is left of `ys`.  Each element is tagged with the list
it came from.

*Everything is taken once.*  All of `xs` is taken, in order (`lefts_mergeLeft`).
When each element of `ys` goes before the last of `xs`, so is all of `ys`
(`rights_mergeLeft`), and the walk ends with that last element
(`getLast?_mergeLeft`).

*Where an element of `ys` lands.*  Suppose going before is monotone along `xs`,
and an element of `ys` goes before nothing that an earlier one does not.  The
elements of `xs` taken before an element `y` of `ys` are then a prefix of `xs`
that `y` goes before none of, and `y` goes before all the rest
(`exists_of_mergeLeft_eq_inr`).

Untagged, the walk is a permutation of what it took (`perm_map_elim`), and
what holds only of elements of `xs` holds in it of what it took from `xs`
(`filter_map_elim`).  The last of a sorted list has the largest value of any
measure that grows along it (`exists_getLast?_eq_of_pairwise`).
-/

namespace Merge

variable {α β : Type*} (before : β → α → Bool)

/-- Take the head of `ys` while it goes before the head of `xs`, else the head
of `xs`; stop where `xs` ends. -/
def mergeLeft : List α → List β → List (α ⊕ β)
  | [], _ => []
  | x :: xs, [] => (x :: xs).map .inl
  | x :: xs, y :: ys =>
    if before y x then .inr y :: mergeLeft (x :: xs) ys else .inl x :: mergeLeft xs (y :: ys)

@[simp] theorem mergeLeft_nil_left (ys : List β) : mergeLeft before [] ys = [] := by
  simp [mergeLeft]

@[simp] theorem mergeLeft_nil_right (xs : List α) : mergeLeft before xs [] = xs.map .inl := by
  cases xs <;> simp [mergeLeft]

theorem mergeLeft_cons_cons (x : α) (xs : List α) (y : β) (ys : List β) :
    mergeLeft before (x :: xs) (y :: ys) =
      if before y x then .inr y :: mergeLeft before (x :: xs) ys
      else .inl x :: mergeLeft before xs (y :: ys) := by
  rw [mergeLeft]

/-- A head of `xs` that nothing of `ys` goes before is taken first. -/
theorem mergeLeft_cons_of_not_before {x : α} {ys : List β} (h : ∀ y ∈ ys, before y x = false)
    (xs : List α) : mergeLeft before (x :: xs) ys = .inl x :: mergeLeft before xs ys := by
  cases ys with
  | nil => simp
  | cons y ys => rw [mergeLeft_cons_cons, h y List.mem_cons_self, if_neg Bool.false_ne_true]

/-- All of `xs` is taken, in order. -/
theorem lefts_mergeLeft (xs : List α) (ys : List β) :
    (mergeLeft before xs ys).filterMap Sum.getLeft? = xs := by
  fun_induction mergeLeft before xs ys with
  | case1 ys => rfl
  | case2 x xs => simp [List.filterMap_map, Function.comp_def]
  | case3 x xs y ys hb ih => simpa [List.filterMap_cons] using ih
  | case4 x xs y ys hb ih => simpa [List.filterMap_cons] using ih

/-- Only elements of `ys` are taken from `ys`. -/
theorem mem_of_inr_mem {y : β} {xs : List α} {ys : List β} (h : .inr y ∈ mergeLeft before xs ys) :
    y ∈ ys := by
  fun_induction mergeLeft before xs ys with
  | case1 ys => simp at h
  | case2 x xs => simp at h
  | case3 x xs y' ys hb ih =>
    rcases List.mem_cons.1 h with h | h
    · cases h
      exact List.mem_cons_self
    · exact List.mem_cons_of_mem _ (ih h)
  | case4 x xs y' ys hb ih =>
    rcases List.mem_cons.1 h with h | h
    · cases h
    · exact ih h

/-- When every element of `ys` goes before the last of `xs`, all of `ys` is
taken, in order. -/
theorem rights_mergeLeft {xs : List α} {ys : List β} {x : α} (hx : xs.getLast? = some x)
    (h : ∀ y ∈ ys, before y x = true) : (mergeLeft before xs ys).filterMap Sum.getRight? = ys := by
  fun_induction mergeLeft before xs ys with
  | case1 ys => simp at hx
  | case2 x' xs => simp
  | case3 x' xs y ys hb ih =>
    simpa [List.filterMap_cons] using ih hx fun y' hy' => h y' (List.mem_cons_of_mem _ hy')
  | case4 x' xs y ys hb ih =>
    cases xs with
    | nil =>
      -- the last of `xs` is the head nothing went before
      simp only [List.getLast?_singleton, Option.some.injEq] at hx
      subst hx
      simp [h y List.mem_cons_self] at hb
    | cons x'' xs =>
      simpa [List.filterMap_cons] using ih (by simpa using hx) h

/-- ... and the walk ends with the last of `xs`. -/
theorem getLast?_mergeLeft {xs : List α} {ys : List β} {x : α} (hx : xs.getLast? = some x)
    (h : ∀ y ∈ ys, before y x = true) : (mergeLeft before xs ys).getLast? = some (.inl x) := by
  fun_induction mergeLeft before xs ys with
  | case1 ys => simp at hx
  | case2 x' xs => rw [List.getLast?_map, hx]; rfl
  | case3 x' xs y ys hb ih =>
    rw [List.getLast?_cons, ih hx fun y' hy' => h y' (List.mem_cons_of_mem _ hy')]
    rfl
  | case4 x' xs y ys hb ih =>
    cases xs with
    | nil =>
      simp only [List.getLast?_singleton, Option.some.injEq] at hx
      subst hx
      simp [h y List.mem_cons_self] at hb
    | cons x'' xs =>
      rw [List.getLast?_cons, ih (by simpa using hx) h]
      rfl

section Position

variable {before}

/-- Where an element `y` of `ys` lands: after a prefix `P` of `xs` that it goes
before none of, and it goes before all the rest `Q`. -/
theorem exists_of_mergeLeft_eq_inr {xs : List α} {ys : List β}
    (hmono : ∀ y ∈ ys, xs.Pairwise fun a b => before y a = true → before y b = true)
    (hanti : ys.Pairwise fun y y' => ∀ x ∈ xs, before y' x = true → before y x = true)
    {A B : List (α ⊕ β)} {y : β} (h : mergeLeft before xs ys = A ++ .inr y :: B) :
    ∃ P Q, xs = P ++ Q ∧ A.filterMap Sum.getLeft? = P ∧ (∀ p ∈ P, before y p = false) ∧
      ∀ q ∈ Q, before y q = true := by
  induction xs, ys using mergeLeft.induct before generalizing A with
  | case1 ys => simp at h
  | case2 x xs =>
    -- with `ys` used up only elements of `xs` are left
    have hmem : Sum.inr y ∈ (x :: xs).map (Sum.inl : α → α ⊕ β) := by
      rw [← mergeLeft_nil_right, h]
      simp
    simp at hmem
  | case3 x xs y₀ ys hb ih =>
    rw [mergeLeft_cons_cons, if_pos hb] at h
    cases A with
    | nil =>
      -- `y` is the head of `ys`, taken before all of `xs`
      simp only [List.nil_append, List.cons.injEq, Sum.inr.injEq] at h
      obtain ⟨rfl, -⟩ := h
      refine ⟨[], x :: xs, rfl, rfl, by simp, ?_⟩
      intro q hq
      rcases List.mem_cons.1 hq with rfl | hq
      · exact hb
      · exact List.rel_of_pairwise_cons (hmono _ List.mem_cons_self) hq hb
    | cons a A =>
      simp only [List.cons_append, List.cons.injEq] at h
      obtain ⟨rfl, h⟩ := h
      obtain ⟨P, Q, hxs, hP, hPf, hQ⟩ :=
        ih (fun y' hy' => hmono y' (List.mem_cons_of_mem _ hy')) (List.pairwise_cons.1 hanti).2 h
      exact ⟨P, Q, hxs, by simpa [List.filterMap_cons] using hP, hPf, hQ⟩
  | case4 x xs y₀ ys hb ih =>
    rw [mergeLeft_cons_cons, if_neg hb] at h
    cases A with
    | nil => simp at h
    | cons a A =>
      simp only [List.cons_append, List.cons.injEq] at h
      obtain ⟨rfl, h⟩ := h
      have hmono' : ∀ y' ∈ y₀ :: ys, xs.Pairwise fun a b => before y' a = true → before y' b = true :=
        fun y' hy' => (List.pairwise_cons.1 (hmono y' hy')).2
      have hanti' : (y₀ :: ys).Pairwise fun y y' => ∀ x ∈ xs, before y' x = true → before y x = true :=
        hanti.imp fun hyy x' hx' => hyy x' (List.mem_cons_of_mem _ hx')
      obtain ⟨P, Q, hxs, hP, hPf, hQ⟩ := ih hmono' hanti' h
      -- `y` comes at or after the head of `ys` that `x` was taken against
      have hyx : before y x = false := by
        have hy : y ∈ y₀ :: ys :=
          mem_of_inr_mem before (by rw [h]; exact List.mem_append_right _ List.mem_cons_self)
        rcases List.mem_cons.1 hy with rfl | hy
        · simpa using hb
        · by_contra hyx
          exact hb (List.rel_of_pairwise_cons hanti hy x List.mem_cons_self (by simpa using hyx))
      refine ⟨x :: P, Q, by rw [hxs]; rfl, by simpa [List.filterMap_cons] using hP, ?_, hQ⟩
      intro p hp
      rcases List.mem_cons.1 hp with rfl | hp
      · exact hyx
      · exact hPf p hp
end Position

/-- Untagged, the walk is a permutation of what it took from each list. -/
theorem perm_map_elim (l : List (α ⊕ α)) :
    (l.map (Sum.elim id id)).Perm (l.filterMap Sum.getLeft? ++ l.filterMap Sum.getRight?) := by
  induction l with
  | nil => rfl
  | cons a l ih =>
    cases a with
    | inl a => simpa [List.filterMap_cons] using ih
    | inr a => simpa [List.filterMap_cons] using (ih.cons a).trans List.perm_middle.symm

/-- Untagged, what `U` holds of in a walk was taken from the first list, when
`U` holds of nothing taken from the second. -/
theorem filter_map_elim {U : α → Bool} {l : List (α ⊕ α)} (h : ∀ y, .inr y ∈ l → U y = false) :
    (l.map (Sum.elim id id)).filter U = (l.filterMap Sum.getLeft?).filter U := by
  induction l with
  | nil => rfl
  | cons a l ih =>
    have ih' := ih fun y hy => h y (List.mem_cons_of_mem _ hy)
    cases a with
    | inl a => simp [List.filter_cons, ih']
    | inr a => simp [List.filterMap_cons, h a List.mem_cons_self, ih']

/-- The last of a list sorted by `f` has the largest value of `f` in it. -/
theorem exists_getLast?_eq_of_pairwise {κ : Type*} [LinearOrder κ] {f : α → κ} {l : List α} {u : α}
    (hl : l.Pairwise fun a b => f a ≤ f b) (hu : u ∈ l) (hmax : ∀ v ∈ l, f v ≤ f u) :
    ∃ v, l.getLast? = some v ∧ f v = f u := by
  obtain ⟨v, hv⟩ : ∃ v, l.getLast? = some v := Option.isSome_iff_exists.1 (by
    cases l with
    | nil => simp at hu
    | cons a l => simp)
  refine ⟨v, hv, le_antisymm (hmax v (List.mem_of_getLast? hv)) ?_⟩
  obtain ⟨l', rfl⟩ : ∃ l', l = l' ++ [v] := List.getLast?_eq_some_iff.1 hv
  rcases List.mem_append.1 hu with hu | hu
  · exact (List.pairwise_append.1 hl).2.2 u hu v List.mem_cons_self
  · rw [List.mem_singleton.1 hu]

end Merge
