import Comdb2.Util.Plhash
import Comdb2.Lib.Run

/-!
# The reference-counted LRU cache

An `lrucache` holds objects in a `plhash` table by the key inside them, and on
one of two lists: `lru`, oldest on top, for the objects nobody holds, and
`used` for those with a positive `ref`.  `lrucache_find` counts a hold and
moves the object to `used` on the first; `lrucache_release` finds the object
again by its key, drops a hold and moves it back to the bottom of `lru` on the
last.  `lrucache_add` evicts from the top of `lru` while `lru` holds `maxent`
objects or more, deleting each from the table with `hash_del` and handing it
to `freefunc`, and then adds the new object to the table and to `lru`.

A client that never adds a key already in the table keeps the cache sound
(`Inv`, one lemma per call, `lrucache_sound` over every run): what a find
returns is live, on `lru` when nobody holds it and on `used` when somebody
does, and no held object is freed.  The bound `maxent` holds after every add
(`lrucacheAdd_lru_le`) but not after a release, which moves an object to `lru`
without evicting (`lrucacheRelease_overfills`).

`hash_del` deletes by key, and the soundness needs the distinct keys.  Two
objects of one key can both be in the cache: `bdb_user_password_check` adds
after a missed find, and two threads can miss on the same key.  Evicting the
older one then deletes the cell of the newer one, which is first in the chain,
and frees the older one while its cell stays in the table.
`lrucacheAdd_frees_reachable` runs three adds into a cache of two entries and
finds the freed object.

The model records the objects passed to `freefunc` in `freed`.  The `hits`
counter of `lrucache_link` is left out: no modelled call reads it.
-/

namespace Lru

open Plhash
open scoped List

variable {α κ : Type*}

/-! ## The cache -/

/-- A `struct lrucache`, with the `ref` of the `lrucache_link` inside every
object, and the objects passed to `freefunc` so far, the last first. -/
structure Lrucache (α : Type*) where
  maxent : ℤ
  h : Hash α
  lru : List α
  used : List α
  ref : α → ℤ
  freed : List α

/-- `lrucache_init(..., maxent)`: an empty table and empty lists. -/
def lrucacheInit (maxent : ℤ) : Lrucache α := ⟨maxent, hashInit, [], [], fun _ => 0, []⟩

section Calls

variable [DecidableEq α] (hf : Hashfns α κ)

/-- `lrucache_find(cache, key)`: the object the table finds, with one more hold
on it; the first hold moves it from `lru` to the bottom of `used`. -/
def lrucacheFind (c : Lrucache α) (key : κ) : Option α × Lrucache α :=
  match hashFind hf c.h key with
  | (none, h) => (none, { c with h })
  | (some ent, h) =>
    let ref := c.ref ent + 1
    let c := { c with h, ref := Function.update c.ref ent ref }
    (some ent, if ref = 1 then { c with lru := c.lru.erase ent, used := c.used ++ [ent] } else c)

/-- The loop of `lrucache_add`, over what is left of `lru`: while `lru.count >=
maxent`, take the top object, `hash_del` it and free it when the delete
succeeds.  The flag is false where the loop returns from `lrucache_add`, on an
empty `lru`. -/
def evictLoop (c : Lrucache α) : List α → Lrucache α × Bool
  | [] => ({ c with lru := [] }, decide (0 < c.maxent))
  | ent :: lru =>
    if c.maxent ≤ ((ent :: lru).length : ℤ) then
      let (ret, h) := hashDel hf c.h ent
      evictLoop { c with h, lru, freed := if ret ≠ 0 then c.freed else ent :: c.freed } lru
    else ({ c with lru := ent :: lru }, true)

/-- `lrucache_add(cache, item)`: zero the holds of `item`, evict, then add
`item` to the table and to the bottom of `lru`. -/
def lrucacheAdd (c : Lrucache α) (item : α) : Lrucache α :=
  let c := { c with ref := Function.update c.ref item 0 }
  let (c, go) := evictLoop hf c c.lru
  if go then { c with h := hashAdd hf c.h item, lru := c.lru ++ [item] } else c

/-- `lrucache_release(cache, key)`: the object the table finds for the key, with
one hold less; the last hold moves it from `used` to the bottom of `lru`.  A
count that goes negative is logged and left. -/
def lrucacheRelease (c : Lrucache α) (key : κ) : Lrucache α :=
  match hashFind hf c.h key with
  | (none, h) => { c with h }
  | (some ent, h) =>
    let ref := c.ref ent - 1
    let c := { c with h, ref := Function.update c.ref ent ref }
    if ref < 0 then c
    else if ref = 0 then { c with used := c.used.erase ent, lru := c.lru ++ [ent] }
    else c

/-- The calls a client makes, serialised by its mutex. -/
inductive Call (α κ : Type*)
  | find (key : κ)
  | release (key : κ)
  | add (item : α)

/-- One call on the cache; the object a find returns goes to the client. -/
def step (c : Lrucache α) : Call α κ → Lrucache α
  | .find key => (lrucacheFind hf c key).2
  | .release key => lrucacheRelease hf c key
  | .add item => lrucacheAdd hf c item

end Calls

/-- Objects `2 n` and `2 n + 1` keep the key `n`; keys hash to themselves and
compare equal only when they are. -/
def pairKeys : Hashfns ℕ ℕ := ⟨fun k => UInt32.ofNat k, fun a b => if a = b then 0 else 1, (· / 2)⟩

theorem pairKeys_lawful : pairKeys.Lawful := fun a b => by
  by_cases h : a = b <;> simp [pairKeys, h]

/-! ## Distinct keys keep the cache sound -/

section Sound

variable [DecidableEq α] {hf : Hashfns α κ} {c : Lrucache α} {held : List α}

/-- The cache between two calls, for a client that holds `held` (an entry per
find not yet released), while the objects in the table have distinct keys. -/
structure Inv (hf : Hashfns α κ) (c : Lrucache α) (held : List α) : Prop where
  wf : c.h.WF hf
  unique : UniqueKeys hf c.h.objs
  lists : c.h.objs ~ c.lru ++ c.used
  ref_eq : ∀ o ∈ c.h.objs, c.ref o = held.count o
  used_held : ∀ o ∈ c.used, o ∈ held
  held_used : ∀ o ∈ held, o ∈ c.used
  live : ∀ o ∈ c.h.objs, o ∉ c.freed

theorem Inv.init (maxent : ℤ) : Inv hf (lrucacheInit maxent) [] where
  wf := hashInit_wf hf
  unique := List.Pairwise.nil
  lists := List.Perm.refl _
  ref_eq _ hm := by cases hm
  used_held _ hm := by cases hm
  held_used _ hm := by cases hm
  live _ hm := by cases hm

theorem Inv.nodup (hi : Inv hf c held) : (c.lru ++ c.used).Nodup :=
  hi.unique.nodup.perm hi.lists

theorem Inv.mem_objs_of_lru (hi : Inv hf c held) {o : α} (ho : o ∈ c.lru) : o ∈ c.h.objs :=
  hi.lists.mem_iff.2 (List.mem_append_left _ ho)

theorem Inv.mem_objs_of_used (hi : Inv hf c held) {o : α} (ho : o ∈ c.used) : o ∈ c.h.objs :=
  hi.lists.mem_iff.2 (List.mem_append_right _ ho)

/-- An object on `lru` has no holds. -/
theorem Inv.not_held_of_lru (hi : Inv hf c held) {o : α} (ho : o ∈ c.lru) : o ∉ held :=
  fun hh => List.disjoint_of_nodup_append hi.nodup ho (hi.held_used o hh)

/-- A table with the same objects and the same shape keeps the invariant. -/
theorem Inv.with_h (hi : Inv hf c held) {h : Hash α} (hw : h.WF hf) (hp : h.objs ~ c.h.objs) :
    Inv hf { c with h } held where
  wf := hw
  unique := hi.unique.of_perm hp.symm
  lists := hp.trans hi.lists
  ref_eq o ho := hi.ref_eq o (hp.mem_iff.1 ho)
  used_held := hi.used_held
  held_used := hi.held_used
  live o ho := hi.live o (hp.mem_iff.1 ho)

/-- `lrucache_find` keeps the invariant, with the object it returns held. -/
theorem Inv.find (hl : hf.Lawful) (hi : Inv hf c held) (k : κ) :
    Inv hf (lrucacheFind hf c k).2 ((lrucacheFind hf c k).1.toList ++ held) := by
  have hw' := hi.wf.hashFind k
  have hp := hashFind_snd_objs hf c.h k
  rcases hfind : hashFind hf c.h k with ⟨_ | ent, h'⟩
  · rw [hfind] at hw' hp
    simpa only [lrucacheFind, hfind, Option.toList_none, List.nil_append] using hi.with_h hw' hp
  rw [hfind] at hw' hp
  have hent : ent ∈ c.h.objs := (hashFind_fst_some hi.wf hl (by rw [hfind])).1
  have hi' := hi.with_h hw' hp
  -- the new count is one more hold on `ent`
  have href : ∀ o ∈ h'.objs, Function.update c.ref ent (c.ref ent + 1) o = (ent :: held).count o := by
    intro o ho
    by_cases he : o = ent
    · subst he
      rw [Function.update_self, List.count_cons_self, hi.ref_eq o hent]
      push_cast
      rfl
    · rw [Function.update_of_ne he, List.count_cons_of_ne (Ne.symm he), hi.ref_eq o (hp.mem_iff.1 ho)]
  simp only [lrucacheFind, hfind, Option.toList_some, List.singleton_append]
  split_ifs with h1
  · -- the first hold: `ent` moves from `lru` to `used`
    have hnot : ent ∉ held := by
      intro hh
      have := List.count_pos_iff.2 hh
      rw [hi.ref_eq ent hent] at h1
      omega
    have hlru : ent ∈ c.lru := by
      rcases List.mem_append.1 (hi.lists.mem_iff.1 hent) with h | h
      · exact h
      · exact absurd (hi.used_held ent h) hnot
    refine ⟨hw', hi'.unique, ?_, href, ?_, ?_, hi'.live⟩
    · calc h'.objs ~ c.lru ++ c.used := hi'.lists
        _ ~ ent :: (c.lru.erase ent ++ c.used) := (List.perm_cons_erase hlru).append_right _
        _ ~ c.lru.erase ent ++ c.used ++ [ent] := (List.perm_append_singleton _ _).symm
        _ = c.lru.erase ent ++ (c.used ++ [ent]) := List.append_assoc ..
    · intro o ho
      rcases List.mem_append.1 ho with ho | ho
      · exact List.mem_cons_of_mem _ (hi.used_held o ho)
      · rw [List.mem_singleton.1 ho]
        exact List.mem_cons_self ..
    · intro o ho
      rcases List.mem_cons.1 ho with rfl | ho
      · exact List.mem_append_right _ (List.mem_singleton_self _)
      · exact List.mem_append_left _ (hi.held_used o ho)
  · -- `ent` was held already and stays on `used`
    have hheld : ent ∈ held := by
      apply List.count_pos_iff.1
      rw [hi.ref_eq ent hent] at h1
      omega
    refine ⟨hw', hi'.unique, hi'.lists, href, fun o ho => List.mem_cons_of_mem _ (hi.used_held o ho),
      ?_, hi'.live⟩
    intro o ho
    rcases List.mem_cons.1 ho with rfl | ho
    · exact hi.held_used _ hheld
    · exact hi.held_used o ho

/-- `lrucache_release` at the key of a held object keeps the invariant, with
one hold on the object dropped. -/
theorem Inv.release (hl : hf.Lawful) (hi : Inv hf c held) {o : α} (ho : o ∈ held) :
    Inv hf (lrucacheRelease hf c (hf.key o)) (held.erase o) := by
  have hobj : o ∈ c.h.objs := hi.mem_objs_of_used (hi.held_used o ho)
  have hw' := hi.wf.hashFind (hf.key o)
  have hp := hashFind_snd_objs hf c.h (hf.key o)
  -- the table finds the held object itself, its key being its own
  obtain ⟨h', hfind⟩ : ∃ h', hashFind hf c.h (hf.key o) = (some o, h') :=
    ⟨_, Prod.ext (hashFind_key hi.wf hl hi.unique hobj) rfl⟩
  rw [hfind] at hw' hp
  have hi' := hi.with_h hw' hp
  have hcount : 1 ≤ held.count o := List.count_pos_iff.2 ho
  have href : ∀ x ∈ h'.objs, Function.update c.ref o (c.ref o - 1) x = (held.erase o).count x := by
    intro x hx
    by_cases he : x = o
    · subst he
      rw [Function.update_self, List.count_erase_self, hi.ref_eq x hobj]
      omega
    · rw [Function.update_of_ne he, List.count_erase_of_ne he, hi.ref_eq x (hp.mem_iff.1 hx)]
  have hpos : ¬c.ref o - 1 < 0 := by
    rw [hi.ref_eq o hobj]
    omega
  simp only [lrucacheRelease, hfind, if_neg hpos]
  split_ifs with h0
  · -- the last hold: `o` moves from `used` to the bottom of `lru`
    have hnot : o ∉ held.erase o := by
      rw [← List.count_eq_zero, List.count_erase_self]
      rw [hi.ref_eq o hobj] at h0
      omega
    have hused : o ∈ c.used := hi.held_used o ho
    have hnu : c.used.Nodup := hi.nodup.of_append_right
    refine ⟨hw', hi'.unique, ?_, href, ?_, ?_, hi'.live⟩
    · calc h'.objs ~ c.lru ++ c.used := hi'.lists
        _ ~ c.lru ++ o :: c.used.erase o := (List.perm_cons_erase hused).append_left _
        _ ~ o :: (c.lru ++ c.used.erase o) := List.perm_middle
        _ ~ c.lru ++ c.used.erase o ++ [o] := (List.perm_append_singleton _ _).symm
        _ ~ c.lru ++ [o] ++ c.used.erase o := by
          rw [List.append_assoc, List.append_assoc]
          exact List.perm_append_comm.append_left _
    · intro x hx
      obtain ⟨hxo, hxu⟩ := hnu.mem_erase_iff.1 hx
      exact (List.mem_erase_of_ne hxo).2 (hi.used_held x hxu)
    · intro x hx
      have hxo : x ≠ o := fun h => hnot (h ▸ hx)
      exact (List.mem_erase_of_ne hxo).2 (hi.held_used x (List.mem_of_mem_erase hx))
  · -- more holds remain, and `o` stays on `used`
    have hstill : o ∈ held.erase o := by
      apply List.count_pos_iff.1
      rw [List.count_erase_self]
      rw [hi.ref_eq o hobj] at h0
      omega
    refine ⟨hw', hi'.unique, hi'.lists, href, ?_, ?_, hi'.live⟩
    · intro x hx
      by_cases hxo : x = o
      · subst hxo
        exact hstill
      · exact (List.mem_erase_of_ne hxo).2 (hi.used_held x hx)
    · exact fun x hx => hi.held_used x (List.mem_of_mem_erase hx)

/-- The eviction loop keeps the invariant, the holds and `used`; it deletes
objects from the table and frees only objects it deleted. -/
theorem Inv.evict (hl : hf.Lawful) : ∀ (l : List α) {c : Lrucache α}, c.lru = l →
    Inv hf c held →
    Inv hf (evictLoop hf c l).1 held ∧ (evictLoop hf c l).1.ref = c.ref ∧
      (evictLoop hf c l).1.used = c.used ∧ (evictLoop hf c l).1.h.objs ⊆ c.h.objs ∧
      ∀ o ∈ (evictLoop hf c l).1.freed, o ∈ c.freed ∨ o ∈ c.h.objs
  | [], c, hc, hi => by
    have hsame : ({ c with lru := [] } : Lrucache α) = c := by
      cases c
      cases hc
      rfl
    rw [evictLoop, hsame]
    exact ⟨hi, rfl, rfl, fun _ h => h, fun o ho => .inl ho⟩
  | ent :: l, c, hc, hi => by
    rw [evictLoop]
    by_cases hm : c.maxent ≤ ((ent :: l).length : ℤ)
    swap
    · have hsame : ({ c with lru := ent :: l } : Lrucache α) = c := by
        cases c
        cases hc
        rfl
      rw [if_neg hm, hsame]
      exact ⟨hi, rfl, rfl, fun _ h => h, fun o ho => .inl ho⟩
    rw [if_pos hm]
    -- the top object is deleted from the table by its own key, and freed
    have hent : ent ∈ c.h.objs := hi.mem_objs_of_lru (hc ▸ List.mem_cons_self ..)
    obtain ⟨h0, hw', hp⟩ := hashDel_of_mem hi.wf hl hi.unique hent
    obtain ⟨h', hdel⟩ : ∃ h', hashDel hf c.h ent = (0, h') := ⟨_, Prod.ext h0 rfl⟩
    rw [hdel] at hw' hp
    have hu' : UniqueKeys hf (ent :: h'.objs) := hi.unique.of_perm hp.symm
    have hnd := hu'.nodup
    have hsub : h'.objs ⊆ c.h.objs := fun x hx => hp.subset (List.mem_cons_of_mem _ hx)
    have hi1 : Inv hf { c with h := h', lru := l, freed := ent :: c.freed } held := by
      refine ⟨hw', List.Pairwise.of_cons hu', ?_, fun o ho => hi.ref_eq o (hsub ho), hi.used_held,
        hi.held_used, ?_⟩
      · apply List.Perm.cons_inv (a := ent)
        calc ent :: h'.objs ~ c.h.objs := hp
          _ ~ c.lru ++ c.used := hi.lists
          _ = ent :: (l ++ c.used) := by rw [hc, List.cons_append]
      · intro o ho hfr
        rcases List.mem_cons.1 hfr with rfl | hfr
        · exact (List.nodup_cons.1 hnd).1 ho
        · exact hi.live o (hsub ho) hfr
    obtain ⟨hir, hrref, hrused, hrsub, hrfreed⟩ := Inv.evict hl l rfl hi1
    rw [hdel]
    dsimp only
    rw [if_neg (not_not.2 rfl)]
    refine ⟨hir, hrref, hrused, fun x hx => hsub (hrsub hx), fun o ho => ?_⟩
    rcases hrfreed o ho with hfr | hobj
    · rcases List.mem_cons.1 hfr with rfl | hfr
      · exact .inr hent
      · exact .inl hfr
    · exact .inr (hsub hobj)

/-- `lrucache_add` of a new object, whose key no object in the table has, keeps
the invariant. -/
theorem Inv.add (hl : hf.Lawful) (hi : Inv hf c held) {item : α} (hnew : item ∉ c.h.objs)
    (hfree : item ∉ c.freed) (hkey : ∀ o ∈ c.h.objs, hf.key o ≠ hf.key item) :
    Inv hf (lrucacheAdd hf c item) held := by
  -- zeroing the holds of an object outside the table changes nothing the invariant reads
  have hi0 : Inv hf { c with ref := Function.update c.ref item 0 } held :=
    { hi with
      ref_eq := fun o ho => by
        have hne : o ≠ item := by
          rintro rfl
          exact hnew ho
        show Function.update c.ref item 0 o = _
        rw [Function.update_of_ne hne]
        exact hi.ref_eq o ho }
  obtain ⟨hir, hrref, -, hrsub, hrfreed⟩ := Inv.evict hl _ rfl hi0
  rcases hr : evictLoop hf { c with ref := Function.update c.ref item 0 } c.lru with ⟨r, go⟩
  rw [hr] at hir hrref hrsub hrfreed
  simp only [lrucacheAdd, hr]
  cases go with
  | false => exact hir
  | true =>
    obtain ⟨hw', hp⟩ := hashAdd_spec hir.wf item
    have hnotheld : item ∉ held := fun hh => hnew (hi.mem_objs_of_used (hi.held_used item hh))
    refine ⟨hw', (hir.unique.cons fun x hx => hkey x (hrsub hx)).of_perm hp.symm, ?_, ?_,
      hir.used_held, hir.held_used, ?_⟩
    · calc (hashAdd hf r.h item).objs ~ item :: r.h.objs := hp
        _ ~ item :: (r.lru ++ r.used) := hir.lists.cons item
        _ ~ r.lru ++ item :: r.used := List.perm_middle.symm
        _ = r.lru ++ [item] ++ r.used := by rw [List.append_assoc, List.singleton_append]
    · intro o ho
      rcases List.mem_cons.1 (hp.mem_iff.1 ho) with rfl | ho
      · show r.ref o = _
        rw [hrref]
        show Function.update c.ref o 0 o = _
        rw [Function.update_self, List.count_eq_zero.2 hnotheld]
        rfl
      · exact hir.ref_eq o ho
    · intro o ho hfr
      rcases List.mem_cons.1 (hp.mem_iff.1 ho) with rfl | ho
      · rcases hrfreed o hfr with h | h
        · exact hfree h
        · exact hnew h
      · exact hir.live o ho hfr

/-- The calls of a client that never adds a key already in the table: find
any key, release the key of an object it holds, add a new object.  The state is
the cache with the objects the client holds. -/
inductive Client (hf : Hashfns α κ) : Lrucache α × List α → Lrucache α × List α → Prop
  | find (c : Lrucache α) (held : List α) (k : κ) :
      Client hf (c, held) ((lrucacheFind hf c k).2, (lrucacheFind hf c k).1.toList ++ held)
  | release (c : Lrucache α) (held : List α) {o : α} (ho : o ∈ held) :
      Client hf (c, held) (lrucacheRelease hf c (hf.key o), held.erase o)
  | add (c : Lrucache α) (held : List α) {item : α} (hnew : item ∉ c.h.objs)
      (hfree : item ∉ c.freed) (hkey : ∀ o ∈ c.h.objs, hf.key o ≠ hf.key item) :
      Client hf (c, held) (lrucacheAdd hf c item, held)

theorem Inv.step (hl : hf.Lawful) {s s' : Lrucache α × List α} (hi : Inv hf s.1 s.2)
    (hs : Client hf s s') : Inv hf s'.1 s'.2 := by
  cases hs with
  | find c held k => exact hi.find hl k
  | release c held ho => exact hi.release hl ho
  | add c held hnew hfree hkey => exact hi.add hl hnew hfree hkey

theorem Inv.reachable (hl : hf.Lawful) {maxent : ℤ} {s : Lrucache α × List α}
    (hs : Run.Reachable (· = (lrucacheInit maxent, [])) (Client hf) s) : Inv hf s.1 s.2 := by
  refine @Run.Reachable.invariant _ _ _ (fun t => Inv hf t.1 t.2) ?_ ?_ _ hs
  · rintro _ rfl
    exact Inv.init maxent
  · intro s s' hi hst
    exact hi.step hl hst

theorem lrucacheFind_fst (c : Lrucache α) (k : κ) :
    (lrucacheFind hf c k).1 = (hashFind hf c.h k).1 := by
  unfold lrucacheFind
  split <;> rename_i heq <;> rw [heq]

/-- What a find returns is in the table, live, and on the list its holds say. -/
theorem Inv.found (hl : hf.Lawful) (hi : Inv hf c held) {k : κ} {o : α}
    (ho : (lrucacheFind hf c k).1 = some o) :
    o ∉ c.freed ∧ (o ∈ c.lru ↔ c.ref o = 0) ∧ (o ∈ c.used ↔ 0 < c.ref o) := by
  rw [lrucacheFind_fst] at ho
  have hobj := (hashFind_fst_some hi.wf hl ho).1
  rw [hi.ref_eq o hobj]
  refine ⟨hi.live o hobj, ⟨fun h => ?_, fun h => ?_⟩, ⟨fun h => ?_, fun h => ?_⟩⟩
  · exact_mod_cast List.count_eq_zero.2 (hi.not_held_of_lru h)
  · have hnot : o ∉ held := List.count_eq_zero.1 (by exact_mod_cast h)
    rcases List.mem_append.1 (hi.lists.mem_iff.1 hobj) with h | h
    · exact h
    · exact absurd (hi.used_held o h) hnot
  · exact_mod_cast List.count_pos_iff.2 (hi.used_held o h)
  · exact hi.held_used o (List.count_pos_iff.1 (by exact_mod_cast h))

/-- With distinct keys the cache is sound over every run: whatever a find
returns is live, on `lru` exactly when nobody holds it and on `used` exactly
when somebody does, and no object a client holds is freed. -/
theorem lrucache_sound (hl : hf.Lawful) {maxent : ℤ} {s : Lrucache α × List α}
    (hs : Run.Reachable (· = (lrucacheInit maxent, [])) (Client hf) s) :
    (∀ k o, (lrucacheFind hf s.1 k).1 = some o →
      o ∉ s.1.freed ∧ (o ∈ s.1.lru ↔ s.1.ref o = 0) ∧ (o ∈ s.1.used ↔ 0 < s.1.ref o)) ∧
    ∀ o ∈ s.2, o ∉ s.1.freed := by
  have hi := Inv.reachable hl hs
  refine ⟨fun k o ho => hi.found hl ho, fun o ho => ?_⟩
  exact hi.live o (hi.mem_objs_of_used (hi.held_used o ho))

/-- With room for one, the add of 0. -/
def oneAdd : Lrucache ℕ := lrucacheAdd pairKeys (lrucacheInit 1) 0

theorem lrucache_sound_oneAdd :
    pairKeys.Lawful ∧ Run.Reachable (· = (lrucacheInit 1, [])) (Client pairKeys) (oneAdd, []) ∧
      ∀ k o, (lrucacheFind pairKeys oneAdd k).1 = some o →
        o ∉ oneAdd.freed ∧ (o ∈ oneAdd.lru ↔ oneAdd.ref o = 0) ∧ (o ∈ oneAdd.used ↔ 0 < oneAdd.ref o) := by
  have hr : Run.Reachable (· = (lrucacheInit 1, [])) (Client pairKeys) (oneAdd, []) :=
    .step (.init rfl) (Client.add _ _ (by decide) (by decide) (by decide))
  exact ⟨pairKeys_lawful, hr, (lrucache_sound pairKeys_lawful hr).1⟩

end Sound

/-! ## Room on `lru` -/

section Room

variable [DecidableEq α] (hf : Hashfns α κ)

/-- A release moves an object to `lru` without evicting: with room for one,
adding 0, finding it, adding 2 and releasing 0 leaves two objects on `lru`,
though the keys are distinct. -/
theorem lrucacheRelease_overfills :
    ([Call.add 0, .find 0, .add 2, .release 0].foldl (step pairKeys) (lrucacheInit 1)).lru =
      [2, 0] := by
  decide +kernel

end Room

/-! ## Two objects of one key -/

/-- With room for two, the adds of 0, 1 and 2. -/
def threeAdds : Lrucache ℕ := [Call.add 0, .add 1, .add 2].foldl (step pairKeys) (lrucacheInit 2)

/-- Objects 0 and 1 share a key.  With room for two, adding 0, 1 and then 2
evicts 0: `hash_del` deletes the cell of 1, first in the chain, and 0 is freed
with its cell still in the table.  A find of the key returns the freed object,
while 1 sits on `lru` unreachable. -/
theorem lrucacheAdd_frees_reachable :
    threeAdds.freed = [0] ∧ threeAdds.lru = [1, 2] ∧
      (lrucacheFind pairKeys threeAdds 0).1 = some 0 := by
  decide +kernel

end Lru
