import Mathlib

/-!
# Sorting with a three-way comparator

C code sorts with `qsort` and a comparator returning a negative, zero or
positive `int`.  The C standard promises a result only when the comparator is
consistent on the array: it must define a total order on the elements there.
It then promises an ascending permutation, and nothing about the order of
elements that compare equal.  `IsQsort` is that promise, for a sort function
taken as a parameter; `TotalOn` is the condition.

Two facts are used of every such sort.  An array already strictly ascending is
returned as it is (`IsQsort.eq_self_of_pairwise_lt`), since the sorted
permutation is then unique.  And the promise can be kept: insertion sort keeps
it (`isQsort_insertionSort`), so a statement over every `IsQsort` sort is not
vacuous.

In a sorted list, what lies between two elements is fixed by the order alone:
a run of elements below `r`, with nothing else between them and `r`, stands
right before `r` (`exists_eq_append_block`).
-/

namespace Qsort

variable {α : Type*}

/-- The comparator is consistent on the elements of `l`: swapping the arguments
swaps the answer, and "not above" is transitive. -/
def TotalOn (cmp : α → α → Ordering) (l : List α) : Prop :=
  (∀ a ∈ l, ∀ b ∈ l, cmp b a = (cmp a b).swap) ∧
    ∀ a ∈ l, ∀ b ∈ l, ∀ c ∈ l, cmp a b ≠ .gt → cmp b c ≠ .gt → cmp a c ≠ .gt

instance (cmp : α → α → Ordering) (l : List α) : Decidable (TotalOn cmp l) :=
  inferInstanceAs (Decidable (_ ∧ _))

/-- A comparator consistent on a list is consistent on what it holds. -/
theorem TotalOn.mono {cmp : α → α → Ordering} {l l' : List α} (h : TotalOn cmp l)
    (hsub : l' ⊆ l) : TotalOn cmp l' :=
  ⟨fun a ha b hb => h.1 a (hsub ha) b (hsub hb),
    fun a ha b hb c hc => h.2 a (hsub ha) b (hsub hb) c (hsub hc)⟩

/-- What the C standard promises of `qsort` for a consistent comparator: the result
is a permutation of the input, in ascending order. -/
structure IsQsort (qsort : (α → α → Ordering) → List α → List α) : Prop where
  perm : ∀ cmp l, TotalOn cmp l → (qsort cmp l).Perm l
  sorted : ∀ cmp l, TotalOn cmp l → (qsort cmp l).Pairwise fun a b => cmp a b ≠ .gt

/-- A permutation in ascending order of a strictly ascending list is that list. -/
theorem eq_of_perm_of_pairwise_lt {cmp : α → α → Ordering} :
    ∀ {l₁ l₂ : List α}, l₂.Perm l₁ → l₂.Pairwise (fun a b => cmp a b ≠ .gt) →
      l₁.Pairwise (fun a b => cmp a b = .lt) →
      (∀ a ∈ l₁, ∀ b ∈ l₁, cmp b a = (cmp a b).swap) → l₂ = l₁
  | [], _, hp, _, _, _ => List.perm_nil.1 hp
  | a :: l₁, [], hp, _, _, _ => (List.cons_ne_nil a l₁ hp.nil_eq.symm).elim
  | a :: l₁, b :: l₂, hp, h₂, h₁, hswap => by
      rw [List.pairwise_cons] at h₁ h₂
      -- the heads agree: otherwise each is in the other's tail, and they compare both ways
      have hba : b = a := by
        by_contra hne
        have hb : b ∈ l₁ := (List.mem_cons.1 (hp.subset (List.mem_cons_self ..))).resolve_left hne
        have ha : a ∈ l₂ :=
          (List.mem_cons.1 (hp.symm.subset (List.mem_cons_self ..))).resolve_left (Ne.symm hne)
        have hlt := h₁.1 b hb
        have hng := h₂.1 a ha
        rw [hswap a (List.mem_cons_self ..) b (List.mem_cons_of_mem a hb), hlt] at hng
        exact hng rfl
      subst hba
      have htail := eq_of_perm_of_pairwise_lt (List.Perm.cons_inv hp) h₂.2 h₁.2
        fun x hx y hy => hswap x (List.mem_cons_of_mem _ hx) y (List.mem_cons_of_mem _ hy)
      rw [htail]

/-- A `qsort` returns a strictly ascending array unchanged. -/
theorem IsQsort.eq_self_of_pairwise_lt {qsort : (α → α → Ordering) → List α → List α}
    (hq : IsQsort qsort) {cmp : α → α → Ordering} {l : List α} (htot : TotalOn cmp l)
    (hl : l.Pairwise fun a b => cmp a b = .lt) : qsort cmp l = l :=
  eq_of_perm_of_pairwise_lt (hq.perm cmp l htot) (hq.sorted cmp l htot) hl htot.1

/-! ## Runs in a sorted list -/

section Runs

variable {β : Type*} [LinearOrder β]

/-- Comparing by a value in a linear order is consistent on every list. -/
theorem totalOn_compare (f : α → β) (l : List α) : TotalOn (fun a b => compare (f a) (f b)) l := by
  refine ⟨fun _ _ _ _ => Std.OrientedCmp.eq_swap, fun a _ b _ c _ hab hbc => ?_⟩
  exact compare_le_iff_le.2 (le_trans (compare_le_iff_le.1 hab) (compare_le_iff_le.1 hbc))

/-- In a list ascending under `f`, a run `D` below `r`, such that everything
else below `r` is below all of `D`, stands right before `r`. -/
theorem exists_eq_append_block {f : α → β} {L D : List α} {r : α}
    (hL : L.Pairwise fun a b => f a < f b) (hD : D.Pairwise fun a b => f a < f b)
    (hr : r ∈ L) (hDL : ∀ d ∈ D, d ∈ L) (hDr : ∀ d ∈ D, f d < f r)
    (hgap : ∀ x ∈ L, f x < f r → x ∈ D ∨ ∀ d ∈ D, f x < f d) :
    ∃ pre post, L = pre ++ D ++ r :: post := by
  classical
  obtain ⟨A, B, rfl⟩ := List.append_of_mem hr
  rw [List.pairwise_append, List.pairwise_cons] at hL
  obtain ⟨hA, ⟨hB, -⟩, hcross⟩ := hL
  have hAr : ∀ a ∈ A, f a < f r := fun a ha => hcross a ha r List.mem_cons_self
  -- `D` lies before `r`, so in `A`
  have hDA : ∀ d ∈ D, d ∈ A := by
    intro d hd
    rcases List.mem_append.1 (hDL d hd) with h | h
    · exact h
    · rcases List.mem_cons.1 h with rfl | h
      · exact absurd (hDr d hd) (lt_irrefl _)
      · exact absurd (hB d h) (not_lt.2 (hDr d hd).le)
  -- so `A` is its elements outside `D`, then `D`: that list is sorted too
  have hsorted : (A.filter (· ∉ D) ++ D).Pairwise fun a b => f a < f b := by
    refine List.pairwise_append.2 ⟨hA.sublist List.filter_sublist, hD, fun x hx d hd => ?_⟩
    obtain ⟨hxA, hxD⟩ := List.mem_filter.1 hx
    rcases hgap x (List.mem_append_left _ hxA) (hAr x hxA) with h | h
    · exact absurd h (by simpa using hxD)
    · exact h d hd
  have hnodup : ∀ {l : List α}, (l.Pairwise fun a b => f a < f b) → l.Nodup :=
    fun h => h.imp fun hlt heq => (ne_of_lt hlt) (congrArg f heq)
  have hin : (A.filter (· ∈ D)).Perm D :=
    (List.perm_ext_iff_of_nodup ((hnodup hA).filter _) (hnodup hD)).2 fun x => by
      simpa using fun hx => hDA x hx
  have hperm : A.Perm (A.filter (· ∉ D) ++ D) := by
    refine (List.filter_append_perm (· ∈ D) A).symm.trans ?_
    refine List.perm_append_comm.trans (List.Perm.append ?_ hin)
    simp
  have hsplit : A = A.filter (· ∉ D) ++ D :=
    @eq_of_perm_of_pairwise_lt _ (fun a b => compare (f a) (f b)) _ _ hperm
      (hA.imp fun h => by simp [compare_lt_iff_lt.2 h])
      (hsorted.imp fun h => compare_lt_iff_lt.2 h)
      (fun _ _ _ _ => Std.OrientedCmp.eq_swap)
  exact ⟨A.filter (· ∉ D), B, by rw [← hsplit]⟩

/-- Two-digit numbers in base `B` compare by their high digits first. -/
theorem mul_add_lt_mul_add {B g₁ g₂ s₁ s₂ : ℕ} (hg : g₁ < g₂) (hs : s₁ < B) :
    g₁ * B + s₁ < g₂ * B + s₂ := by
  have h := Nat.mul_le_mul_right B (Nat.succ_le_of_lt hg)
  rw [Nat.succ_mul] at h
  omega

/-- ... so the high digits of the smaller number are not above the other's. -/
theorem le_of_mul_add_le {B g₁ g₂ s₁ s₂ : ℕ} (hs : s₂ < B) (h : g₁ * B + s₁ ≤ g₂ * B + s₂) : g₁ ≤ g₂ :=
  not_lt.1 fun hlt => absurd h (not_le.2 (mul_add_lt_mul_add hlt hs))

/-- `exists_eq_append_block` for a value of two digits, a class `G` and a
position `S` below `B`: a run `D` of class `g`, ascending by position, stands
right before `r` of the next class, when `D` is all of class `g` in `L` and `r`
all of the next class. -/
theorem exists_eq_append_block_of_class {G S : α → ℕ} {B g : ℕ} {L D : List α} {r : α}
    (hS : ∀ x ∈ L, S x < B) (hL : L.Pairwise fun a b => G a * B + S a < G b * B + S b)
    (hD : D.Pairwise fun a b => S a < S b) (hDL : ∀ d ∈ D, d ∈ L) (hDG : ∀ d ∈ D, G d = g)
    (hr : r ∈ L) (hrG : G r = g + 1) (hclass : ∀ x ∈ L, G x = g → x ∈ D)
    (hclass' : ∀ x ∈ L, G x = g + 1 → x = r) :
    ∃ pre post, L = pre ++ D ++ r :: post := by
  refine @exists_eq_append_block α ℕ _ (fun x => G x * B + S x) L D r hL ?_ hr hDL ?_ ?_
  · refine hD.imp_of_mem fun ha hb h => ?_
    rw [hDG _ ha, hDG _ hb]
    omega
  · intro d hd
    exact mul_add_lt_mul_add (by rw [hDG d hd, hrG]; omega) (hS d (hDL d hd))
  · intro x hx hxr
    -- the class of `x` is at most that of `r`
    have hle : G x ≤ g + 1 := by
      by_contra h
      exact absurd hxr (not_lt.2 (mul_add_lt_mul_add (by omega) (hS r hr)).le)
    rcases Nat.lt_or_ge (G x) g with hlt | hge
    · exact .inr fun d hd => mul_add_lt_mul_add (by rw [hDG d hd]; exact hlt) (hS x hx)
    · -- so `x` is of class `g`, hence in `D`, or of the next class, hence `r`
      rcases (show G x = g ∨ G x = g + 1 by omega) with h | h
      · exact .inl (hclass x hx h)
      · exact absurd hxr (by rw [hclass' x hx h]; exact lt_irrefl _)

end Runs

/-! ## Insertion sort keeps the promise -/

/-- Insertion sort by "not above". -/
def insertionSort (cmp : α → α → Ordering) (l : List α) : List α :=
  l.insertionSort fun a b => cmp a b ≠ .gt

/-- Inserting into an ascending list keeps it ascending, when the comparator is
consistent on the elements involved. -/
theorem pairwise_orderedInsert {cmp : α → α → Ordering} {s : List α} (htot : TotalOn cmp s)
    {a : α} (ha : a ∈ s) :
    ∀ {l : List α}, (∀ x ∈ l, x ∈ s) → l.Pairwise (fun a b => cmp a b ≠ .gt) →
      (l.orderedInsert (fun a b => cmp a b ≠ .gt) a).Pairwise fun a b => cmp a b ≠ .gt
  | [], _, _ => List.pairwise_singleton _ a
  | b :: l, hs, hl => by
      rw [List.pairwise_cons] at hl
      have hb : b ∈ s := hs b (List.mem_cons_self ..)
      by_cases hab : cmp a b ≠ .gt
      · -- `a` goes first: it is not above `b`, hence not above anything after `b`
        rw [List.orderedInsert_cons, if_pos hab]
        refine List.Pairwise.cons (fun x hx => ?_) (List.Pairwise.cons hl.1 hl.2)
        rcases List.mem_cons.1 hx with rfl | hx
        · exact hab
        · exact htot.2 a ha b hb x (hs x (List.mem_cons_of_mem _ hx)) hab (hl.1 x hx)
      · -- `a` is above `b`, so `b` is below `a` and stays first
        rw [List.orderedInsert_cons, if_neg hab]
        have hba : cmp b a ≠ .gt := by
          rw [htot.1 a ha b hb, not_not.1 hab]
          decide
        refine List.Pairwise.cons (fun x hx => ?_)
          (pairwise_orderedInsert htot ha (fun x hx => hs x (List.mem_cons_of_mem _ hx)) hl.2)
        rcases List.mem_cons.1 ((List.perm_orderedInsert _ a l).subset hx) with rfl | hx
        · exact hba
        · exact hl.1 x hx

theorem pairwise_insertionSort {cmp : α → α → Ordering} {s : List α} (htot : TotalOn cmp s) :
    ∀ {l : List α}, (∀ x ∈ l, x ∈ s) → (insertionSort cmp l).Pairwise fun a b => cmp a b ≠ .gt
  | [], _ => List.Pairwise.nil
  | a :: l, hs =>
      pairwise_orderedInsert htot (hs a (List.mem_cons_self ..))
        (fun x hx => hs x (List.mem_cons_of_mem _ ((List.perm_insertionSort _ l).subset hx)))
        (pairwise_insertionSort htot fun x hx => hs x (List.mem_cons_of_mem _ hx))

theorem isQsort_insertionSort : IsQsort (α := α) insertionSort where
  perm _ l _ := List.perm_insertionSort _ l
  sorted _ _ htot := pairwise_insertionSort htot fun _ hx => hx

end Qsort
