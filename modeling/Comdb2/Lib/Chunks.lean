import Mathlib

/-!
# A list cut into chunks

A stream of requests is often the concatenation of chunks, one per item, and
a chunk is a head request followed by a tail of requests that belong to it.
Two facts find a request of such a stream in its chunk.

*Splitting.*  An element of a `flatMap` lies in the chunk of one item, and the
chunks of the items before it make up the prefix before it
(`flatMap_eq_append_cons`).

*Maximal runs.*  A run of tail requests that stops where the next request is
not one is determined by where it starts (`eq_of_append_of_maximal`): it is
the `takeWhile` of what follows its start (`takeWhile_append_of_stop`).
-/

namespace Chunks

variable {α β : Type*}

/-- An element of a concatenation of chunks lies in the chunk of one item. -/
theorem flatMap_eq_append_cons (f : β → List α) {x : α} :
    ∀ {cs : List β} {pre suf : List α}, cs.flatMap f = pre ++ x :: suf →
      ∃ csA c csB u v, cs = csA ++ c :: csB ∧ f c = u ++ x :: v ∧ pre = csA.flatMap f ++ u ∧
        suf = v ++ csB.flatMap f
  | [], pre, suf, h => by simp at h
  | c :: cs, pre, suf, h => by
    rw [List.flatMap_cons] at h
    rcases List.append_eq_append_iff.mp h with ⟨a, hpre, hrest⟩ | ⟨_ | ⟨y, c'⟩, hc, hsuf⟩
    · -- the element lies after the first chunk
      obtain ⟨csA, c₀, csB, u, v, rfl, hc₀, rfl, rfl⟩ := flatMap_eq_append_cons f hrest
      exact ⟨c :: csA, c₀, csB, u, v, rfl, hc₀, by simp [hpre], rfl⟩
    · -- the first chunk is the whole prefix
      have hrest : cs.flatMap f = [] ++ x :: suf := by simpa using hsuf.symm
      obtain ⟨csA, c₀, csB, u, v, rfl, hc₀, hnil, rfl⟩ := flatMap_eq_append_cons f hrest
      exact ⟨c :: csA, c₀, csB, u, v, rfl, hc₀, by simp [hc, ← hnil], rfl⟩
    · -- the element lies in the first chunk
      simp only [List.cons_append, List.cons.injEq] at hsuf
      obtain ⟨rfl, rfl⟩ := hsuf
      exact ⟨[], c, cs, pre, c', rfl, hc, by simp, rfl⟩

variable {p : α → Bool}

/-- A run of `p` followed by something that does not start with `p` is what
`takeWhile p` keeps. -/
theorem takeWhile_append_of_stop {D post : List α} (hD : ∀ d ∈ D, p d = true)
    (hpost : ∀ a ∈ post.head?, p a = false) : (D ++ post).takeWhile p = D := by
  rw [List.takeWhile_append_of_pos hD]
  cases post with
  | nil => simp
  | cons a post => simp [hpost a rfl]

/-- Two maximal runs of `p` starting at the same place are equal. -/
theorem eq_of_append_of_maximal {D E post rest : List α} (hD : ∀ d ∈ D, p d = true)
    (hE : ∀ e ∈ E, p e = true) (hpost : ∀ a ∈ post.head?, p a = false)
    (hrest : ∀ a ∈ rest.head?, p a = false) (h : D ++ post = E ++ rest) : D = E := by
  rw [← takeWhile_append_of_stop hD hpost, h, takeWhile_append_of_stop hE hrest]

/-- An element in the middle of a list without duplicates is on neither side. -/
theorem not_mem_of_nodup_middle {l₁ l₂ : List α} {a : α} (h : (l₁ ++ [a] ++ l₂).Nodup) :
    a ∉ l₁ ∧ a ∉ l₂ := by
  rw [List.append_assoc, List.singleton_append, List.nodup_append] at h
  obtain ⟨-, hal, hdisj⟩ := h
  exact ⟨fun ha => hdisj a ha a List.mem_cons_self rfl, (List.nodup_cons.1 hal).1⟩

end Chunks
