import Comdb2.Util.Plhash

/-!
# The chained hash table as a multimap

`hash_t` comes in two schemes: `HASH_BY_PRIMES` grows through a list of
primes, `HASH_BY_POWER2` doubles the table and its finds (`power2_hash_kfnd`)
take the bucket as `hh & (ntbl - 1)`.  Its finds either flip the found cell to
the head of its chain or, as the `_nofrills` finds, change nothing
(`hash_config_query_stats`).  In lock-free mode a grown table is filled with
fresh copies of the cells, and `hash_delk` turns the chain round the cell it
deletes: the chain becomes a loop through its head, starts at the cell, is cut
before it, and the cell is swapped off the head.  The source defines
`is_lockfree_query(h)` as 0, so that mode is modelled but never taken.
`hash_inctbl` may fail to allocate: the table is then kept, and only the
one-bucket `STARTER_HTAB` makes the add fail.

A `power2` table keeps a power of two buckets (`Hash.Sized`), where the two
ways to pick a bucket agree (`kfndBucket_eq`) and so do the two rehash walks
(`rehashPower2_eq`).  Every call replaces at most one chain by its cells less
the deleted one, in some order (`Hash.WF.setChain`), or grows the table
(`hashInctblBy_spec`).  With a hash function that agrees with the compare
function (`Hashfns.Consistent`), a cell whose key compares equal to a key sits
in the key's chain, so the objects of the table behave as a multiset of which a
find returns, and a delete takes off, the first object of the key
(`plhash_multimap`).  Without that agreement a find may miss an object whose
key compares equal (`plhash_inconsistent_find`).

Table sizes are numbers: the `unsigned int` size of a grown table, which would
wrap past 2^31 buckets, is not.
-/

namespace Plhash

open scoped List

variable {α κ : Type*}

/-! ## Schemes and modes -/

/-- `enum hash_scheme`. -/
inductive Scheme
  | primes
  | power2
deriving DecidableEq, Repr

/-- How a `hash_t` was built and configured: its scheme, whether
`is_lockfree_query(h)` holds (the source defines it as 0), and whether its find
is the one that flips the found cell to the head of its chain
(`hash_config_query_stats`) or a `_nofrills` one. -/
structure Config where
  scheme : Scheme
  lockfree : Bool
  flips : Bool
deriving DecidableEq, Repr

/-- The bucket a find looks in: `BUCKET(hh, ntbl)`, or `hh & (ntbl - 1)` in
`power2_hash_kfnd`. -/
def kfndBucket : Scheme → UInt32 → ℕ → ℕ
  | .primes, hh, ntbl => bucket hh ntbl
  | .power2, hh, ntbl => hh.toNat &&& (ntbl - 1)

/-- The size `hash_inctbl` grows a table to: the next prime, or twice the size
for `HASH_BY_POWER2`, 256 from none. -/
def newNtblBy : Scheme → ℕ → ℕ → ℕ
  | .primes, ntbl, nents => newNtbl ntbl nents
  | .power2, ntbl, _ => if ntbl ≠ 0 then ntbl <<< 1 else 256

/-- `hash_inctbl_rehash_power2`: as `rehashPrimes`, with the bucket
`hash & (newntbl - 1)`. -/
def rehashPower2 (newntbl : ℕ) (tbl : List (List (Hashent α))) : List (List (Hashent α)) :=
  tbl.flatten.foldl (fun nt he => nt.modify (he.hash.toNat &&& (newntbl - 1)) (he :: ·))
    (List.replicate newntbl [])

/-- The walk of `hash_inctbl` for a scheme.  The copying walks of lock-free
mode (`hash_inctbl_rehash_copy_*`) push fresh cells with the same hash and
object in the same order, so they build the same chains. -/
def rehashBy : Scheme → ℕ → List (List (Hashent α)) → List (List (Hashent α))
  | .primes => rehashPrimes
  | .power2 => rehashPower2

/-- `hash_inctbl` for a scheme, when its allocations succeed. -/
def hashInctblBy (scheme : Scheme) (h : Hash α) : Hash α :=
  { h with tbl := rehashBy scheme (newNtblBy scheme h.ntbl h.nents) h.tbl }

section Calls

variable (cfg : Config) (hf : Hashfns α κ)

/-- The push of `hash_add`: a cell for `obj` on the head of its bucket. -/
def pushObj (h : Hash α) (obj : α) : Hash α :=
  let hh := hf.hashfunc (hf.key obj)
  { tbl := h.tbl.modify (bucket hh h.ntbl) (⟨hh, obj⟩ :: ·), nents := h.nents + 1 }

/-- `hash_add(h, obj)` for a configuration, where `grows` says whether the
allocations of `hash_inctbl` succeed.  A table that cannot grow is kept, except
`STARTER_HTAB`, the only table of one bucket: then the add fails. -/
def hashAddBy (grows : Bool) (h : Hash α) (obj : α) : ℤ × Hash α :=
  if h.ntbl / 2 ≤ h.nents then
    if grows then (0, pushObj hf (hashInctblBy cfg.scheme h) obj)
    else if h.ntbl = 1 then (-1, h)
    else (0, pushObj hf h obj)
  else (0, pushObj hf h obj)

variable [DecidableEq α]

/-- `hash_find(h, key)` for a configuration: the first matching cell of the
key's chain, flipped to the head when the find flips. -/
def hashFindBy (h : Hash α) (k : κ) : Option α × Hash α :=
  let ii := kfndBucket cfg.scheme (hf.hashfunc k) h.ntbl
  let chain := h.tbl.getD ii []
  match chain.find? (hf.hits k) with
  | none => (none, h)
  | some he =>
    (some he.obj, if cfg.flips then { h with tbl := h.tbl.set ii (he :: chain.erase he) } else h)

/-- `hash_delk(h, key)` for a configuration.  Outside lock-free mode it snips
the first matching cell; in lock-free mode it makes the chain a loop through
its head, starts it at the matching cell, breaks the loop before that cell and
swaps the cell off the head: the chain becomes the cells after the matching
one, then the cells before it. -/
def hashDelkBy (h : Hash α) (k : κ) : ℤ × Hash α :=
  let chead := bucket (hf.hashfunc k) h.ntbl
  let chain := h.tbl.getD chead []
  match chain.find? (hf.hits k) with
  | none => (-1, h)
  | some he =>
    if cfg.lockfree then
      let i := chain.findIdx (hf.hits k)
      (0, { tbl := h.tbl.set chead (chain.drop (i + 1) ++ chain.take i), nents := h.nents - 1 })
    else (0, { tbl := h.tbl.set chead (chain.erase he), nents := h.nents - 1 })

/-- `hash_del(h, obj)`: `hash_delk` at the key inside `obj`. -/
def hashDelBy (h : Hash α) (obj : α) : ℤ × Hash α := hashDelkBy cfg hf h (hf.key obj)

/-- The tables a `hash_t` goes through from `hash_init_user`. -/
inductive Reachable : Hash α → Prop
  | init : Reachable hashInit
  | add {h : Hash α} (grows : Bool) (obj : α) : Reachable h → Reachable (hashAddBy cfg hf grows h obj).2
  | find {h : Hash α} (k : κ) : Reachable h → Reachable (hashFindBy cfg hf h k).2
  | delk {h : Hash α} (k : κ) : Reachable h → Reachable (hashDelkBy cfg hf h k).2

end Calls

/-! ## Sizes -/

/-- A table of the `power2` scheme has a power of two buckets. -/
def Hash.Sized (scheme : Scheme) (h : Hash α) : Prop := scheme = .power2 → ∃ e, h.ntbl = 2 ^ e

theorem kfndBucket_eq {scheme : Scheme} {h : Hash α} (hs : h.Sized scheme) (hh : UInt32) :
    kfndBucket scheme hh h.ntbl = bucket hh h.ntbl := by
  cases scheme with
  | primes => rfl
  | power2 =>
    obtain ⟨e, he⟩ := hs rfl
    rw [kfndBucket, bucket, he, Nat.and_two_pow_sub_one_eq_mod]

/-- Over a power of two buckets, the walk of `power2` places each cell as the
walk of `primes` does. -/
theorem rehashPower2_eq (e : ℕ) (tbl : List (List (Hashent α))) :
    rehashPower2 (2 ^ e) tbl = rehashPrimes (2 ^ e) tbl := by
  unfold rehashPower2 rehashPrimes bucket
  simp only [Nat.and_two_pow_sub_one_eq_mod]

theorem newNtblBy_pos {scheme : Scheme} {ntbl nents : ℕ} (hg : ntbl / 2 ≤ nents) :
    0 < newNtblBy scheme ntbl nents := by
  cases scheme with
  | primes => exact newNtbl_pos hg
  | power2 =>
    rw [newNtblBy]
    split_ifs with h0
    · rw [Nat.shiftLeft_eq]
      positivity
    · norm_num

/-- The rehash to `n` buckets keeps the shape and the cells. -/
theorem Hash.WF.rehash {hf : Hashfns α κ} {h : Hash α} (hw : h.WF hf) {n : ℕ} (hn : 0 < n) :
    ({ h with tbl := rehashPrimes n h.tbl } : Hash α).WF hf ∧
      ({ h with tbl := rehashPrimes n h.tbl } : Hash α).objs ~ h.objs := by
  obtain ⟨hl, hp, hperm⟩ := rehashPrimes_spec hn h.tbl
  refine ⟨⟨?_, ?_, fun he hm => hw.hash_eq he (hperm.mem_iff.1 hm),
    hw.nents_eq.trans hperm.length_eq.symm⟩, hperm.map _⟩
  · show 0 < List.length _
    rw [hl]
    exact hn
  · show Placed (List.length _) _
    rw [hl]
    exact hp

/-- **Growth** keeps the shape, the size of the scheme and every cell. -/
theorem hashInctblBy_spec {hf : Hashfns α κ} {scheme : Scheme} {h : Hash α} (hw : h.WF hf)
    (hs : h.Sized scheme) (hg : h.ntbl / 2 ≤ h.nents) :
    (hashInctblBy scheme h).WF hf ∧ (hashInctblBy scheme h).Sized scheme ∧
      (hashInctblBy scheme h).objs ~ h.objs := by
  cases scheme with
  | primes =>
    obtain ⟨hw', hp⟩ := hw.rehash (newNtbl_pos hg)
    exact ⟨hw', fun h => (by cases h), hp⟩
  | power2 =>
    obtain ⟨e, he⟩ := hs rfl
    have hn : newNtblBy .power2 h.ntbl h.nents = 2 ^ (e + 1) := by
      rw [newNtblBy, if_pos (by rw [he]; positivity), he, Nat.shiftLeft_eq, pow_one, pow_succ]
    have hreh : hashInctblBy .power2 h = { h with tbl := rehashPrimes (2 ^ (e + 1)) h.tbl } := by
      rw [hashInctblBy, rehashBy, hn, rehashPower2_eq]
    obtain ⟨hw', hp⟩ := hw.rehash (n := 2 ^ (e + 1)) (by positivity)
    refine ⟨hreh ▸ hw', fun _ => ⟨e + 1, ?_⟩, hreh ▸ hp⟩
    rw [hreh]
    exact (rehashPrimes_spec (by positivity) h.tbl).1

/-! ## The calls on the multiset of objects -/

/-- Keys the compare function calls equal have one hash: the contract of a
hash function with its compare function. -/
def Hashfns.Consistent (hf : Hashfns α κ) : Prop :=
  ∀ k k', hf.cmpfunc k k' = 0 → hf.hashfunc k = hf.hashfunc k'

section Multiset

variable {cfg : Config} {hf : Hashfns α κ} {h : Hash α}

/-- Replacing the chain of bucket `i` by its cells less `removed`, in any
order, keeps the shape, with `removed` fewer cells. -/
theorem Hash.WF.setChain (hw : h.WF hf) {i : ℕ} (hi : i < h.tbl.length)
    {c removed : List (Hashent α)} (hc : c ++ removed ~ h.tbl[i]) :
    ({ tbl := h.tbl.set i c, nents := h.nents - removed.length } : Hash α).WF hf ∧
      (h.tbl.set i c).flatten ++ removed ~ h.tbl.flatten := by
  have hperm : (h.tbl.set i c).flatten ++ removed ~ h.tbl.flatten := by
    rw [← List.perm_append_right_iff c]
    calc (h.tbl.set i c).flatten ++ removed ++ c
        ~ (h.tbl.set i c).flatten ++ (c ++ removed) := by
          rw [List.append_assoc]
          exact List.perm_append_comm.append_left _
      _ ~ (h.tbl.set i c).flatten ++ h.tbl[i] := hc.append_left _
      _ ~ h.tbl.flatten ++ c := perm_flatten_set hi c
  have hlen : (h.tbl.set i c).length = h.tbl.length := List.length_set ..
  refine ⟨⟨?_, ?_, ?_, ?_⟩, hperm⟩
  · show 0 < List.length _
    rw [hlen]
    exact hw.ntbl_pos
  · show Placed (List.length _) _
    rw [hlen]
    apply hw.placed.set
    intro x hx
    apply hw.placed
    rw [List.getD_eq_getElem _ _ hi]
    exact hc.mem_iff.1 (List.mem_append_left _ hx)
  · exact fun x hx => hw.hash_eq x (hperm.mem_iff.1 (List.mem_append_left _ hx))
  · have := hperm.length_eq
    simp only [List.length_append] at this
    show h.nents - removed.length = (h.tbl.set i c).flatten.length
    rw [hw.nents_eq]
    omega

theorem hits_iff_cmp (hc : hf.Consistent) {k : κ} {he : Hashent α}
    (hh : he.hash = hf.hashfunc (hf.key he.obj)) :
    hf.hits k he = true ↔ hf.cmpfunc k (hf.key he.obj) = 0 := by
  simp only [Hashfns.hits, Bool.and_eq_true, beq_iff_eq]
  constructor
  · exact fun h => h.2
  · intro h0
    exact ⟨hh.trans (hc _ _ h0).symm, h0⟩

/-- The search of the key's chain finds nothing exactly when no object's key
compares equal to the key. -/
theorem find?_chain_eq_none_iff (hw : h.WF hf) (hc : hf.Consistent) (k : κ) :
    (h.chain hf k).find? (hf.hits k) = none ↔ ∀ o ∈ h.objs, hf.cmpfunc k (hf.key o) ≠ 0 := by
  constructor
  · intro hnone o ho h0
    obtain ⟨he, hm, rfl⟩ := List.mem_map.1 ho
    -- the cell sits in the chain of its key, which is the chain of `k`
    have hmc := mem_chain hw hm
    rw [Hash.chain, ← hc _ _ h0] at hmc
    exact List.find?_eq_none.1 hnone he hmc ((hits_iff_cmp hc (hw.hash_eq he hm)).2 h0)
  · intro hall
    cases hfind : (h.chain hf k).find? (hf.hits k) with
    | none => rfl
    | some he =>
      have hm := mem_flatten_of_mem_getD (List.mem_of_find?_eq_some hfind)
      exact absurd ((hits_iff_cmp hc (hw.hash_eq he hm)).1 (List.find?_some hfind))
        (hall he.obj (List.mem_map_of_mem hm))

theorem find?_chain_some (hw : h.WF hf) (hc : hf.Consistent) {k : κ} {he : Hashent α}
    (hfind : (h.chain hf k).find? (hf.hits k) = some he) :
    he.obj ∈ h.objs ∧ hf.cmpfunc k (hf.key he.obj) = 0 := by
  have hm := mem_flatten_of_mem_getD (List.mem_of_find?_eq_some hfind)
  exact ⟨List.mem_map_of_mem hm, (hits_iff_cmp hc (hw.hash_eq he hm)).1 (List.find?_some hfind)⟩

/-- The chain a lock-free delete leaves: the cells after `x`, then those before. -/
theorem rotate_split {β : Type*} (pre post : List β) (x : β) :
    (pre ++ x :: post).drop (pre.length + 1) ++ (pre ++ x :: post).take pre.length = post ++ pre := by
  simp

/-- The first matching cell splits its chain: no cell before it matches. -/
theorem find?_split {c : List (Hashent α)} {p : Hashent α → Bool} {he : Hashent α}
    [DecidableEq α] (hfind : c.find? p = some he) :
    ∃ pre post, c = pre ++ he :: post ∧ c.erase he = pre ++ post ∧ c.findIdx p = pre.length := by
  obtain ⟨hp, pre, post, rfl, hpre⟩ := List.find?_eq_some_iff_append.1 hfind
  have hnot : he ∉ pre := fun hm => by simpa [hp] using hpre he hm
  refine ⟨pre, post, rfl, ?_, ?_⟩
  · rw [List.erase_append_right _ hnot, List.erase_cons_head]
  · rw [List.findIdx_append, if_neg, List.findIdx_cons, hp, cond_true, Nat.zero_add]
    rw [List.findIdx_eq_length.2 (fun x hx => by simpa using hpre x hx)]
    exact lt_irrefl _

/-- A table a call may start from: the shape, and the size of its scheme. -/
structure Hash.Good (cfg : Config) (hf : Hashfns α κ) (h : Hash α) : Prop where
  wf : h.WF hf
  sized : h.Sized cfg.scheme

theorem pushObj_spec (hg : h.Good cfg hf) (o : α) :
    (pushObj hf h o).Good cfg hf ∧ (pushObj hf h o).objs ~ o :: h.objs := by
  obtain ⟨hw, hp⟩ := push_spec hg.wf o
  refine ⟨⟨hw, fun hsch => ?_⟩, hp⟩
  obtain ⟨e, he⟩ := hg.sized hsch
  exact ⟨e, (List.length_modify ..).trans he⟩

/-- **`hash_add`** adds its object, growing the table on the way when it can,
or fails on the starter table that could not grow and changes nothing. -/
theorem hashAddBy_spec (hg : h.Good cfg hf) (grows : Bool) (o : α) :
    ((hashAddBy cfg hf grows h o).1 = 0 ∧ (hashAddBy cfg hf grows h o).2.Good cfg hf ∧
        (hashAddBy cfg hf grows h o).2.objs ~ o :: h.objs) ∨
      ((hashAddBy cfg hf grows h o).1 = -1 ∧ (hashAddBy cfg hf grows h o).2 = h) := by
  unfold hashAddBy
  split_ifs with hfull hgrow hstart
  · -- grown, then pushed
    obtain ⟨hw₁, hs₁, hp₁⟩ := hashInctblBy_spec hg.wf hg.sized hfull
    have hg₁ : Hash.Good cfg hf _ := ⟨hw₁, hs₁⟩
    obtain ⟨hg₂, hp₂⟩ := pushObj_spec hg₁ o
    exact .inl ⟨rfl, hg₂, hp₂.trans (hp₁.cons o)⟩
  · exact .inr ⟨rfl, rfl⟩
  · obtain ⟨hg₂, hp₂⟩ := pushObj_spec hg o
    exact .inl ⟨rfl, hg₂, hp₂⟩
  · obtain ⟨hg₂, hp₂⟩ := pushObj_spec hg o
    exact .inl ⟨rfl, hg₂, hp₂⟩

variable [DecidableEq α]

/-- Both finds look in the chain of `BUCKET(hh, ntbl)`. -/
theorem hashFindBy_eq (hs : h.Sized cfg.scheme) (k : κ) :
    hashFindBy cfg hf h k =
      match (h.chain hf k).find? (hf.hits k) with
      | none => (none, h)
      | some he =>
        (some he.obj, if cfg.flips then
          { h with tbl := h.tbl.set (bucket (hf.hashfunc k) h.ntbl) (he :: (h.chain hf k).erase he) }
          else h) := by
  unfold hashFindBy Hash.chain
  rw [kfndBucket_eq hs]

theorem hashFindBy_fst_eq_none_iff (hg : h.Good cfg hf) (hc : hf.Consistent) (k : κ) :
    (hashFindBy cfg hf h k).1 = none ↔ ∀ o ∈ h.objs, hf.cmpfunc k (hf.key o) ≠ 0 := by
  rw [hashFindBy_eq hg.sized, ← find?_chain_eq_none_iff hg.wf hc]
  cases (h.chain hf k).find? (hf.hits k) <;> simp

theorem hashFindBy_fst_some (hg : h.Good cfg hf) (hc : hf.Consistent) {k : κ} {o : α}
    (h1 : (hashFindBy cfg hf h k).1 = some o) : o ∈ h.objs ∧ hf.cmpfunc k (hf.key o) = 0 := by
  rw [hashFindBy_eq hg.sized] at h1
  cases hfind : (h.chain hf k).find? (hf.hits k) with
  | none =>
    rw [hfind] at h1
    cases h1
  | some he =>
    rw [hfind] at h1
    cases h1
    exact find?_chain_some hg.wf hc hfind

/-- A find keeps the shape and the objects; the flip only reorders a chain. -/
theorem hashFindBy_snd (hg : h.Good cfg hf) (k : κ) :
    (hashFindBy cfg hf h k).2.Good cfg hf ∧ (hashFindBy cfg hf h k).2.objs ~ h.objs := by
  rw [hashFindBy_eq hg.sized]
  cases hfind : (h.chain hf k).find? (hf.hits k) with
  | none => exact ⟨hg, .refl _⟩
  | some he =>
    dsimp only
    split_ifs with hflip
    · have hm := List.mem_of_find?_eq_some hfind
      have hi := lt_length_of_mem_getD hm
      rw [Hash.chain, List.getD_eq_getElem _ _ hi] at hm ⊢
      obtain ⟨hw', hp⟩ := hg.wf.setChain hi
        (show (he :: h.tbl[bucket (hf.hashfunc k) h.ntbl].erase he) ++ ([] : List (Hashent α)) ~ _ by
          rw [List.append_nil]
          exact (List.perm_cons_erase hm).symm)
      have hobj := hp.map Hashent.obj
      rw [List.map_append, List.map_nil, List.append_nil] at hobj
      refine ⟨⟨hw', fun hsch => ?_⟩, hobj⟩
      obtain ⟨e, he⟩ := hg.sized hsch
      exact ⟨e, (List.length_set ..).trans he⟩
    · exact ⟨hg, .refl _⟩

/-- **`hash_delk`** finds no cell and changes nothing, or takes off the chain
exactly the cell a find would return, snipped out of its chain or, in lock-free
mode, with the chain turned round it. -/
theorem hashDelkBy_spec (hg : h.Good cfg hf) (k : κ) :
    ((h.chain hf k).find? (hf.hits k) = none → hashDelkBy cfg hf h k = (-1, h)) ∧
      ∀ he, (h.chain hf k).find? (hf.hits k) = some he →
        (hashDelkBy cfg hf h k).1 = 0 ∧ (hashDelkBy cfg hf h k).2.Good cfg hf ∧
          he.obj :: (hashDelkBy cfg hf h k).2.objs ~ h.objs := by
  have hchain : h.tbl.getD (bucket (hf.hashfunc k) h.ntbl) [] = h.chain hf k := rfl
  refine ⟨fun hnone => ?_, fun he hfind => ?_⟩
  · unfold hashDelkBy
    dsimp only
    rw [hchain, hnone]
  · obtain ⟨pre, post, hsplit, herase, hidx⟩ := find?_split hfind
    have hm := List.mem_of_find?_eq_some hfind
    have hi := lt_length_of_mem_getD hm
    -- either way the new chain is the old one less the cell
    have hfinish : ∀ c, c ++ [he] ~ pre ++ he :: post →
        ({ tbl := h.tbl.set (bucket (hf.hashfunc k) h.ntbl) c, nents := h.nents - 1 } : Hash α).Good cfg hf ∧
        he.obj :: ({ tbl := h.tbl.set (bucket (hf.hashfunc k) h.ntbl) c, nents := h.nents - 1 } : Hash α).objs
          ~ h.objs := by
      intro c hc
      rw [Hash.chain, List.getD_eq_getElem _ _ hi] at hsplit
      obtain ⟨hw', hp⟩ := hg.wf.setChain hi (hsplit ▸ hc)
      refine ⟨⟨hw', fun hsch => ?_⟩, ?_⟩
      · obtain ⟨e, he⟩ := hg.sized hsch
        exact ⟨e, (List.length_set ..).trans he⟩
      · have hobj := hp.map Hashent.obj
        rw [List.map_append, List.map_singleton] at hobj
        exact (List.perm_append_singleton _ _).symm.trans hobj
    unfold hashDelkBy
    dsimp only
    rw [hchain, hfind]
    dsimp only
    split_ifs with hlock
    · -- lock-free: the cells after the cell, then the cells before it
      rw [hidx, hsplit, rotate_split]
      refine ⟨rfl, hfinish _ ?_⟩
      calc post ++ pre ++ [he] ~ he :: (post ++ pre) := List.perm_append_singleton _ _
        _ ~ he :: (pre ++ post) := List.perm_append_comm.cons he
        _ ~ pre ++ he :: post := List.perm_middle.symm
    · rw [herase]
      exact ⟨rfl, hfinish _ ((List.perm_append_singleton _ _).trans List.perm_middle.symm)⟩

theorem hashFindBy_fst (hs : h.Sized cfg.scheme) (k : κ) :
    (hashFindBy cfg hf h k).1 = ((h.chain hf k).find? (hf.hits k)).map Hashent.obj := by
  rw [hashFindBy_eq hs]
  cases (h.chain hf k).find? (hf.hits k) <;> rfl

theorem Reachable.good (hr : Reachable cfg hf h) : h.Good cfg hf := by
  induction hr with
  | init => exact ⟨hashInit_wf hf, fun _ => ⟨0, rfl⟩⟩
  | add grows obj _ ih =>
    rcases hashAddBy_spec ih grows obj with ⟨-, hg, -⟩ | ⟨-, heq⟩
    · exact hg
    · rw [heq]
      exact ih
  | find k _ ih => exact (hashFindBy_snd ih k).1
  | @delk h k _ ih =>
    cases hfind : (h.chain hf k).find? (hf.hits k) with
    | none =>
      rw [(hashDelkBy_spec ih k).1 hfind]
      exact ih
    | some he => exact ((hashDelkBy_spec ih k).2 he hfind).2.1

end Multiset

/-- **`plhash` is a multimap.**  In every table a `hash_t` reaches, of either
scheme, in lock-free mode or not, with a find that flips or not, and for a hash
function that agrees with the compare function: `nents` counts the objects; an
add adds its object, growth included, or fails and changes nothing; a find
returns an object whose key compares equal to the key exactly when there is
one, and keeps the objects; a delete succeeds exactly when there is one, and
then takes off the object the find returns and nothing else. -/
theorem plhash_multimap [DecidableEq α] (cfg : Config) (hf : Hashfns α κ) (hc : hf.Consistent)
    {h : Hash α} (hr : Reachable cfg hf h) :
    h.nents = h.objs.length ∧
    (∀ grows obj, ((hashAddBy cfg hf grows h obj).1 = 0 ∧
          (hashAddBy cfg hf grows h obj).2.objs ~ obj :: h.objs) ∨
        ((hashAddBy cfg hf grows h obj).1 = -1 ∧ (hashAddBy cfg hf grows h obj).2 = h)) ∧
    (∀ k, ((∃ o, (hashFindBy cfg hf h k).1 = some o) ↔ ∃ o ∈ h.objs, hf.cmpfunc k (hf.key o) = 0) ∧
        (∀ o, (hashFindBy cfg hf h k).1 = some o → o ∈ h.objs ∧ hf.cmpfunc k (hf.key o) = 0) ∧
        (hashFindBy cfg hf h k).2.objs ~ h.objs) ∧
    (∀ k, ((hashDelkBy cfg hf h k).1 = 0 ↔ ∃ o ∈ h.objs, hf.cmpfunc k (hf.key o) = 0) ∧
        (∀ o, (hashFindBy cfg hf h k).1 = some o → o :: (hashDelkBy cfg hf h k).2.objs ~ h.objs) ∧
        ((hashFindBy cfg hf h k).1 = none → (hashDelkBy cfg hf h k).2 = h)) := by
  have hg := hr.good
  refine ⟨by rw [hg.wf.nents_eq, Hash.objs, List.length_map], fun grows obj => ?_,
    fun k => ⟨?_, fun o => hashFindBy_fst_some hg hc, (hashFindBy_snd hg k).2⟩, fun k => ?_⟩
  · rcases hashAddBy_spec hg grows obj with ⟨h0, -, hp⟩ | hfail
    · exact .inl ⟨h0, hp⟩
    · exact .inr hfail
  · -- a find returns something exactly when it does not return nothing
    have hnone := hashFindBy_fst_eq_none_iff hg hc k
    constructor
    · rintro ⟨o, ho⟩
      exact ⟨o, hashFindBy_fst_some hg hc ho⟩
    · rintro ⟨o, ho, h0⟩
      cases hfo : (hashFindBy cfg hf h k).1 with
      | none => exact absurd h0 (hnone.1 hfo o ho)
      | some o' => exact ⟨o', rfl⟩
  · have hfst : (hashFindBy cfg hf h k).1 = ((h.chain hf k).find? (hf.hits k)).map Hashent.obj :=
      hashFindBy_fst hg.sized k
    obtain ⟨hdnone, hdsome⟩ := hashDelkBy_spec hg k
    cases hfind : (h.chain hf k).find? (hf.hits k) with
    | none =>
      rw [hfind] at hfst
      rw [hdnone hfind, hfst]
      refine ⟨⟨fun h1 => absurd h1 (by norm_num), fun ⟨o, ho, h0⟩ => ?_⟩, fun o h1 => (by cases h1),
        fun _ => rfl⟩
      exact absurd h0 ((find?_chain_eq_none_iff hg.wf hc k).1 hfind o ho)
    | some he =>
      rw [hfind] at hfst
      obtain ⟨h0, -, hp⟩ := hdsome he hfind
      rw [hfst]
      refine ⟨⟨fun _ => ⟨he.obj, find?_chain_some hg.wf hc hfind⟩, fun _ => h0⟩, ?_,
        fun h1 => (by cases h1)⟩
      rintro o ⟨⟩
      exact hp

/-- Numbers as keys and objects, each its own hash, compared by equality. -/
def natFns : Hashfns ℕ ℕ := ⟨fun k => k.toUInt32, fun a b => if a = b then 0 else 1, id⟩

theorem natFns_consistent : natFns.Consistent := by
  intro a b h0
  simp only [natFns, ite_eq_left_iff, one_ne_zero, imp_false, not_not] at h0
  rw [h0]

theorem plhash_multimap_oneAdd :
    natFns.Consistent ∧
      Reachable ⟨.primes, false, true⟩ natFns
        (hashAddBy ⟨.primes, false, true⟩ natFns true (hashInit : Hash ℕ) 7).2 ∧
      (hashAddBy ⟨.primes, false, true⟩ natFns true (hashInit : Hash ℕ) 7).2.nents =
        (hashAddBy ⟨.primes, false, true⟩ natFns true (hashInit : Hash ℕ) 7).2.objs.length :=
  ⟨natFns_consistent, .add true 7 .init,
    (plhash_multimap _ natFns natFns_consistent (.add true 7 .init)).1⟩

/-- A compare function that calls every two keys equal, with each key its own
hash. -/
def anyFns : Hashfns ℕ ℕ := ⟨fun k => k.toUInt32, fun _ _ => 0, id⟩

/-- With a hash function that does not agree with the compare function, a find
misses an object whose key compares equal: after adding 1 to a `primes` table,
as `hash_init_user` builds, a find of 2 looks in another bucket. -/
theorem plhash_inconsistent_find :
    (hashFindBy ⟨.primes, false, true⟩ anyFns
        (hashAddBy ⟨.primes, false, true⟩ anyFns true (hashInit : Hash ℕ) 1).2 2).1 = none ∧
      1 ∈ (hashAddBy ⟨.primes, false, true⟩ anyFns true (hashInit : Hash ℕ) 1).2.objs ∧
      anyFns.cmpfunc 2 (anyFns.key 1) = 0 := by
  decide +kernel

end Plhash
