import Mathlib

/-!
# The chained hash table

`plhash` keeps a table of `ntbl` buckets, each a chain of cells (`hashent`)
that point at the user's objects.  An object's key sits inside it, at
`keyoff`; the table is built with a hash function and a compare function on
keys.  A table starts as the one-bucket `STARTER_HTAB`, and `hash_add` grows it
through a list of primes whenever the entries reach half the buckets.

Three calls are modelled, with the `HASH_BY_PRIMES` scheme of `hash_init_user`
and outside lock-free mode.

* `hash_add` pushes a cell on the head of the object's chain.  It never looks
  for an equal key, so a table may hold several objects of one key.
* `hash_find` (`default_hash_kfnd`) walks the key's chain to the first matching
  cell and flips it to the head of the chain.
* `hash_delk` snips the first matching cell.  `hash_del(h, obj)` is
  `hash_delk` at the object's key: it deletes the first cell of that key,
  which need not be the cell of `obj`.

A table keeps a shape (`Hash.WF`): a cell sits in the bucket of its hash, its
hash is that of its object's key, and `nents` counts the cells.  What the table
holds is `Hash.objs`, the objects of all cells.  Every call keeps the shape and
changes the objects by a permutation, one added cell or one deleted cell
(`hashAdd_spec`, `hashFind_snd_objs`, `hashDelk_cases`).  With a compare
function that is zero exactly on equal keys (`Hashfns.Lawful`), a find returns
an object of the key and fails only when there is none (`hashFind_fst_some`,
`hashFind_fst_none`, `hashFind_fst_eq_none`).  When the keys of the objects are distinct
(`UniqueKeys`), a find at an object's key returns that object, and `hash_del`
deletes it (`hashFind_key`, `hashDel_of_mem`).
-/

namespace Plhash

open scoped List

variable {α κ : Type*}

/-! ## The table -/

/-- A `hashent`: one cell of a chain, with the hash of its object's key. -/
structure Hashent (α : Type*) where
  hash : UInt32
  obj : α
deriving DecidableEq, Repr

/-- What `hash_init_user` stores beside the table: the hash function and the
compare function on keys (with `keysz` fixed), and where an object keeps its
key (`keyoff`). -/
structure Hashfns (α κ : Type*) where
  hashfunc : κ → UInt32
  cmpfunc : κ → κ → ℤ
  key : α → κ

/-- A `hash_t` with its current `hashtable`: the chains of the buckets, each
from its head, and the count `nents`. -/
structure Hash (α : Type*) where
  tbl : List (List (Hashent α))
  nents : ℕ
deriving DecidableEq, Repr

/-- `htab->ntbl`, the number of buckets. -/
def Hash.ntbl (h : Hash α) : ℕ := h.tbl.length

/-- `BUCKET(hash, ntbl)`. -/
def bucket (hash : UInt32) (ntbl : ℕ) : ℕ := hash.toNat % ntbl

/-- A new `hash_t`: `STARTER_HTAB`, one empty bucket. -/
def hashInit : Hash α := ⟨[[]], 0⟩

/-- The table sizes of `hash_inctbl` for `HASH_BY_PRIMES`, without the
terminating zero. -/
def prime : List ℕ :=
  [257, 1031, 4099, 16411, 32771, 65537, 131101, 262147, 524309, 1048583, 4194319]

/-- The size `hash_inctbl` grows a table of `ntbl` buckets to: the first prime
above `ntbl`, or `nents * 4 - 1` past the last one. -/
def newNtbl (ntbl nents : ℕ) : ℕ := (prime.find? (fun p => ntbl < p)).getD (nents * 4 - 1)

/-- `hash_inctbl_rehash_primes`: the cells of the old table, bucket by bucket and
each chain from its head, each pushed on the head of its bucket in a table of
`newntbl` empty buckets. -/
def rehashPrimes (newntbl : ℕ) (tbl : List (List (Hashent α))) : List (List (Hashent α)) :=
  tbl.flatten.foldl (fun nt he => nt.modify (bucket he.hash newntbl) (he :: ·))
    (List.replicate newntbl [])

/-- `hash_inctbl`, which `hash_add` calls when the table is half full. -/
def hashInctbl (h : Hash α) : Hash α :=
  { h with tbl := rehashPrimes (newNtbl h.ntbl h.nents) h.tbl }

/-- `hash_default_fixedwidth`: the bytes of a key folded into a 32-bit hash,
`hash = ((hash % PRIME) << 8) + key[jj]`. -/
def hashDefaultFixedwidth (key : List UInt8) : UInt32 :=
  key.foldl (fun hash b => ((hash % 8388013) <<< 8) + b.toUInt32) 0

section Calls

variable (hf : Hashfns α κ)

/-- `hash_add(h, obj)`: grow the table if `nents >= ntbl >> 1`, then push a cell
for `obj` on the head of its bucket.  The C returns -1 only when an allocation
fails. -/
def hashAdd (h : Hash α) (obj : α) : Hash α :=
  let h := if h.ntbl / 2 ≤ h.nents then hashInctbl h else h
  let hh := hf.hashfunc (hf.key obj)
  { tbl := h.tbl.modify (bucket hh h.ntbl) (⟨hh, obj⟩ :: ·), nents := h.nents + 1 }

/-- The test of the chain walks: `he->hash == hh && CMP(h, key, &he->obj[keyoff]) == 0`. -/
def Hashfns.hits (k : κ) (he : Hashent α) : Bool :=
  he.hash == hf.hashfunc k && hf.cmpfunc k (hf.key he.obj) == 0

/-- The chain of the bucket of key `k`. -/
def Hash.chain (h : Hash α) (k : κ) : List (Hashent α) :=
  h.tbl.getD (bucket (hf.hashfunc k) h.ntbl) []

variable [DecidableEq α]

/-- `hash_find` through `default_hash_kfnd`: the object of the first matching
cell of the key's chain, with that cell flipped to the top of the chain.  The
first cell equal to the matching one is the matching one (an equal cell
matches too), so `erase` unlinks exactly it. -/
def hashFind (h : Hash α) (k : κ) : Option α × Hash α :=
  match (h.chain hf k).find? (hf.hits k) with
  | none => (none, h)
  | some he =>
    (some he.obj,
      { h with tbl := h.tbl.set (bucket (hf.hashfunc k) h.ntbl) (he :: (h.chain hf k).erase he) })

/-- `hash_delk(h, key)` outside lock-free mode: snip the first matching cell of
the key's chain; -1 when there is none. -/
def hashDelk (h : Hash α) (k : κ) : ℤ × Hash α :=
  match (h.chain hf k).find? (hf.hits k) with
  | none => (-1, h)
  | some he =>
    (0, { tbl := h.tbl.set (bucket (hf.hashfunc k) h.ntbl) ((h.chain hf k).erase he),
          nents := h.nents - 1 })

/-- `hash_del(h, obj)`: `hash_delk` at the key inside `obj`. -/
def hashDel (h : Hash α) (obj : α) : ℤ × Hash α := hashDelk hf h (hf.key obj)

end Calls

/-! ## Chains -/

section Chains

variable {β : Type*}

/-- Replacing one chain of a table trades the old chain's cells for the new
one's. -/
theorem perm_flatten_set : ∀ {l : List (List β)} {i : ℕ} (hi : i < l.length) (c : List β),
    (l.set i c).flatten ++ l[i] ~ l.flatten ++ c
  | x :: l, 0, _, c => by
    simp only [List.set_cons_zero, List.flatten_cons, List.getElem_cons_zero, List.append_assoc]
    calc c ++ (l.flatten ++ x) ~ (l.flatten ++ x) ++ c := List.perm_append_comm
      _ ~ (x ++ l.flatten) ++ c := List.perm_append_comm.append_right c
      _ = x ++ (l.flatten ++ c) := List.append_assoc ..
  | x :: l, i + 1, hi, c => by
    simp only [List.set_cons_succ, List.flatten_cons, List.getElem_cons_succ, List.append_assoc]
    exact (perm_flatten_set (Nat.lt_of_succ_lt_succ hi) c).append_left x

theorem flatten_set_perm {l : List (List β)} {i : ℕ} (hi : i < l.length) {c : List β}
    (hc : c ~ l[i]) : (l.set i c).flatten ~ l.flatten :=
  (List.perm_append_right_iff l[i]).1 ((perm_flatten_set hi c).trans (hc.append_left _))

theorem cons_flatten_set_erase [DecidableEq β] {l : List (List β)} {i : ℕ} (hi : i < l.length)
    {x : β} (hx : x ∈ l[i]) : x :: (l.set i (l[i].erase x)).flatten ~ l.flatten := by
  rw [← List.perm_append_right_iff (l[i].erase x)]
  calc x :: (l.set i (l[i].erase x)).flatten ++ l[i].erase x
      ~ (l.set i (l[i].erase x)).flatten ++ x :: l[i].erase x := List.perm_middle.symm
    _ ~ (l.set i (l[i].erase x)).flatten ++ l[i] := (List.perm_cons_erase hx).symm.append_left _
    _ ~ l.flatten ++ l[i].erase x := perm_flatten_set hi _

theorem modify_eq_set_getD (l : List (List β)) (i : ℕ) (f : List β → List β) :
    l.modify i f = l.set i (f (l.getD i [])) := by
  rw [List.modify_eq_set, List.getD_eq_getElem?_getD]
  rfl

theorem flatten_modify_cons {l : List (List β)} {i : ℕ} (hi : i < l.length) (x : β) :
    (l.modify i (x :: ·)).flatten ~ x :: l.flatten := by
  rw [modify_eq_set_getD, List.getD_eq_getElem l [] hi, ← List.perm_append_right_iff l[i]]
  exact (perm_flatten_set hi _).trans List.perm_middle

theorem lt_length_of_mem_getD {l : List (List β)} {i : ℕ} {x : β} (hx : x ∈ l.getD i []) :
    i < l.length := by
  by_contra h
  rw [List.getD_eq_default _ _ (by omega)] at hx
  cases hx

theorem mem_flatten_of_mem_getD {l : List (List β)} {i : ℕ} {x : β} (hx : x ∈ l.getD i []) :
    x ∈ l.flatten := by
  have hi := lt_length_of_mem_getD hx
  rw [List.getD_eq_getElem l [] hi] at hx
  exact List.mem_flatten.2 ⟨_, List.getElem_mem hi, hx⟩

theorem mem_getD_set {l : List (List β)} {i j : ℕ} {c : List β} {x : β}
    (hx : x ∈ (l.set i c).getD j []) : (i = j ∧ x ∈ c) ∨ x ∈ l.getD j [] := by
  rw [List.getD_eq_getElem?_getD, List.getElem?_set] at hx
  rw [List.getD_eq_getElem?_getD]
  split_ifs at hx with h1 h2
  · exact .inl ⟨h1, hx⟩
  · cases hx
  · exact .inr hx

end Chains

/-! ## The shape of a table -/

/-- Every cell of `tbl` sits in the bucket of its hash among `n`. -/
def Placed (n : ℕ) (tbl : List (List (Hashent α))) : Prop :=
  ∀ j, ∀ he ∈ tbl.getD j [], bucket he.hash n = j

theorem Placed.set {n : ℕ} {tbl : List (List (Hashent α))} (hp : Placed n tbl) {i : ℕ}
    {c : List (Hashent α)} (hc : ∀ he ∈ c, bucket he.hash n = i) : Placed n (tbl.set i c) := by
  intro j he hm
  rcases mem_getD_set hm with ⟨rfl, hmc⟩ | hml
  · exact hc he hmc
  · exact hp j he hml

theorem Placed.modify_cons {n : ℕ} {tbl : List (List (Hashent α))} (hp : Placed n tbl)
    (he : Hashent α) : Placed n (tbl.modify (bucket he.hash n) (he :: ·)) := by
  rw [modify_eq_set_getD]
  apply hp.set
  intro x hx
  rcases List.mem_cons.1 hx with rfl | hx
  · rfl
  · exact hp _ x hx

theorem placed_replicate (n : ℕ) : Placed n (List.replicate n ([] : List (Hashent α))) := by
  intro j he hm
  rw [List.getD_eq_getElem?_getD, List.getElem?_replicate] at hm
  split_ifs at hm <;> cases hm

theorem bucket_lt (hash : UInt32) {n : ℕ} (hn : 0 < n) : bucket hash n < n := Nat.mod_lt _ hn

/-- The rehash walk over the remaining cells `L`, from a table `nt` of `n`
buckets: it keeps the buckets and their placement, and adds the cells of `L`. -/
theorem rehash_foldl {n : ℕ} (hn : 0 < n) (L : List (Hashent α)) :
    ∀ nt : List (List (Hashent α)), nt.length = n → Placed n nt →
      let r := L.foldl (fun nt he => nt.modify (bucket he.hash n) (he :: ·)) nt
      r.length = n ∧ Placed n r ∧ r.flatten ~ L ++ nt.flatten := by
  induction L with
  | nil => intro nt hl hp; exact ⟨hl, hp, List.Perm.refl _⟩
  | cons he L ih =>
    intro nt hl hp
    have hb : bucket he.hash n < nt.length := by rw [hl]; exact bucket_lt he.hash hn
    obtain ⟨hl', hp', hperm⟩ :=
      ih (nt.modify (bucket he.hash n) (he :: ·)) (by rw [List.length_modify, hl]) (hp.modify_cons he)
    refine ⟨hl', hp', hperm.trans ?_⟩
    calc L ++ (nt.modify (bucket he.hash n) (he :: ·)).flatten ~ L ++ he :: nt.flatten :=
          (flatten_modify_cons hb he).append_left L
      _ ~ he :: L ++ nt.flatten := List.perm_middle

theorem rehashPrimes_spec {n : ℕ} (hn : 0 < n) (tbl : List (List (Hashent α))) :
    (rehashPrimes n tbl).length = n ∧ Placed n (rehashPrimes n tbl) ∧
      (rehashPrimes n tbl).flatten ~ tbl.flatten := by
  obtain ⟨hl, hp, hperm⟩ := rehash_foldl hn tbl.flatten (List.replicate n []) (by simp)
    (placed_replicate n)
  refine ⟨hl, hp, hperm.trans ?_⟩
  simp

/-- The shape every table of a `hash_t` keeps: some buckets, every cell in the
bucket of its hash, every hash that of its object's key, and `nents` cells. -/
structure Hash.WF (hf : Hashfns α κ) (h : Hash α) : Prop where
  ntbl_pos : 0 < h.ntbl
  placed : Placed h.ntbl h.tbl
  hash_eq : ∀ he ∈ h.tbl.flatten, he.hash = hf.hashfunc (hf.key he.obj)
  nents_eq : h.nents = h.tbl.flatten.length

/-- What a table holds: the objects of its cells. -/
def Hash.objs (h : Hash α) : List α := h.tbl.flatten.map Hashent.obj

theorem hashInit_wf (hf : Hashfns α κ) : (hashInit : Hash α).WF hf where
  ntbl_pos := Nat.one_pos
  placed j he hm := by
    cases j with
    | zero => cases hm
    | succ j => cases hm
  hash_eq _ hm := by cases hm
  nents_eq := rfl

theorem hashInit_objs : (hashInit : Hash α).objs = [] := rfl

theorem newNtbl_pos {ntbl nents : ℕ} (h : ntbl / 2 ≤ nents) : 0 < newNtbl ntbl nents := by
  unfold newNtbl
  cases hf : prime.find? (fun p => ntbl < p) with
  | some p =>
    have hp := List.mem_of_find?_eq_some hf
    simp only [prime, List.mem_cons, List.not_mem_nil, or_false] at hp
    simp only [Option.getD_some]
    omega
  | none =>
    -- past the last prime the table is large, and so is `nents`
    have hlast := List.find?_eq_none.1 hf 4194319 (by simp [prime])
    simp only [decide_eq_true_eq, not_lt] at hlast
    simp only [Option.getD_none]
    omega

theorem Hash.WF.hashInctbl {hf : Hashfns α κ} {h : Hash α} (hw : h.WF hf)
    (hg : h.ntbl / 2 ≤ h.nents) : (Plhash.hashInctbl h).WF hf := by
  obtain ⟨hl, hp, hperm⟩ := rehashPrimes_spec (newNtbl_pos hg) h.tbl
  have hn : (Plhash.hashInctbl h).ntbl = newNtbl h.ntbl h.nents := hl
  refine ⟨?_, ?_, ?_, ?_⟩
  · rw [hn]; exact newNtbl_pos hg
  · rw [hn]; exact hp
  · intro he hm
    exact hw.hash_eq he (hperm.mem_iff.1 hm)
  · exact hw.nents_eq.trans hperm.length_eq.symm

theorem hashInctbl_objs (h : Hash α) (hg : h.ntbl / 2 ≤ h.nents) :
    (Plhash.hashInctbl h).objs ~ h.objs :=
  (rehashPrimes_spec (newNtbl_pos hg) h.tbl).2.2.map _

/-! ## The calls -/

section Calls

variable {hf : Hashfns α κ}

/-- A compare function that is zero exactly on equal keys. -/
def Hashfns.Lawful (hf : Hashfns α κ) : Prop := ∀ a b, hf.cmpfunc a b = 0 ↔ a = b

/-- No two objects of the list share a key. -/
def UniqueKeys (hf : Hashfns α κ) (l : List α) : Prop := l.Pairwise (fun a b => hf.key a ≠ hf.key b)

instance [DecidableEq κ] (hf : Hashfns α κ) (l : List α) : Decidable (UniqueKeys hf l) :=
  inferInstanceAs (Decidable (l.Pairwise _))

theorem UniqueKeys.eq {l : List α} (hu : UniqueKeys hf l) {a b : α} (ha : a ∈ l) (hb : b ∈ l)
    (hk : hf.key a = hf.key b) : a = b := by
  by_contra hne
  have : Std.Symm (fun a b : α => hf.key a ≠ hf.key b) := ⟨fun _ _ h => Ne.symm h⟩
  exact hu.forall ha hb hne hk

theorem UniqueKeys.nodup {l : List α} (hu : UniqueKeys hf l) : l.Nodup :=
  List.Pairwise.imp (fun hk he => hk (congrArg hf.key he)) hu

theorem UniqueKeys.of_perm {l l' : List α} (hu : UniqueKeys hf l) (hp : l ~ l') :
    UniqueKeys hf l' :=
  List.Pairwise.perm hu hp fun h => Ne.symm h

theorem UniqueKeys.cons {l : List α} (hu : UniqueKeys hf l) {o : α}
    (hk : ∀ x ∈ l, hf.key x ≠ hf.key o) : UniqueKeys hf (o :: l) :=
  List.pairwise_cons.2 ⟨fun x hx => (hk x hx).symm, hu⟩

theorem hits_iff (hl : hf.Lawful) {k : κ} {he : Hashent α}
    (hh : he.hash = hf.hashfunc (hf.key he.obj)) : hf.hits k he = true ↔ hf.key he.obj = k := by
  simp only [Hashfns.hits, Bool.and_eq_true, beq_iff_eq, hl k (hf.key he.obj)]
  constructor
  · exact fun h => h.2.symm
  · rintro rfl
    exact ⟨hh, rfl⟩

theorem bucket_chain_lt (hw : Hash.WF hf h) (k : κ) : bucket (hf.hashfunc k) h.ntbl < h.tbl.length :=
  bucket_lt _ hw.ntbl_pos

/-- A cell of the table is in the chain of its object's key. -/
theorem mem_chain (hw : Hash.WF hf h) {he : Hashent α} (hm : he ∈ h.tbl.flatten) :
    he ∈ h.chain hf (hf.key he.obj) := by
  obtain ⟨c, hc, hmc⟩ := List.mem_flatten.1 hm
  obtain ⟨j, hj, rfl⟩ := List.mem_iff_getElem.1 hc
  have hmj : he ∈ h.tbl.getD j [] := by rwa [List.getD_eq_getElem _ _ hj]
  have hb := hw.placed j he hmj
  rw [hw.hash_eq he hm] at hb
  rwa [Hash.chain, hb]

/-- The table `hash_add` pushes on: the old one, grown when half full. -/
theorem grown_spec (hw : Hash.WF hf h) :
    let h' := if h.ntbl / 2 ≤ h.nents then Plhash.hashInctbl h else h
    h'.WF hf ∧ h'.objs ~ h.objs := by
  by_cases hg : h.ntbl / 2 ≤ h.nents
  · simp only [if_pos hg]
    exact ⟨hw.hashInctbl hg, hashInctbl_objs h hg⟩
  · simp only [if_neg hg]
    exact ⟨hw, List.Perm.refl _⟩

/-- The push of `hash_add`: a new cell on the head of its chain. -/
theorem push_spec (hw : Hash.WF hf h) (o : α) :
    let hh := hf.hashfunc (hf.key o)
    let h' : Hash α := { tbl := h.tbl.modify (bucket hh h.ntbl) (⟨hh, o⟩ :: ·), nents := h.nents + 1 }
    h'.WF hf ∧ h'.objs ~ o :: h.objs := by
  intro hh h'
  have hi : bucket hh h.ntbl < h.tbl.length := bucket_lt _ hw.ntbl_pos
  have hperm := flatten_modify_cons hi (⟨hh, o⟩ : Hashent α)
  have hlen : h'.ntbl = h.ntbl := List.length_modify ..
  refine ⟨⟨?_, ?_, ?_, ?_⟩, hperm.map Hashent.obj⟩
  · rw [hlen]
    exact hw.ntbl_pos
  · rw [hlen]
    exact hw.placed.modify_cons ⟨hh, o⟩
  · intro x hx
    rcases List.mem_cons.1 (hperm.mem_iff.1 hx) with rfl | hx
    · rfl
    · exact hw.hash_eq x hx
  · simp only [h', hperm.length_eq, List.length_cons, hw.nents_eq]

/-- `hash_add` keeps the shape and adds one object. -/
theorem hashAdd_spec (hw : Hash.WF hf h) (o : α) :
    (hashAdd hf h o).WF hf ∧ (hashAdd hf h o).objs ~ o :: h.objs := by
  obtain ⟨hw1, hp1⟩ := grown_spec hw
  obtain ⟨hw2, hp2⟩ := push_spec hw1 o
  exact ⟨hw2, hp2.trans (hp1.cons o)⟩

variable [DecidableEq α]

theorem hashFind_fst_some (hw : Hash.WF hf h) (hl : hf.Lawful) {k : κ} {o : α}
    (hf1 : (hashFind hf h k).1 = some o) : o ∈ h.objs ∧ hf.key o = k := by
  unfold hashFind at hf1
  split at hf1
  · cases hf1
  · rename_i he hfind
    cases hf1
    have hm := mem_flatten_of_mem_getD (List.mem_of_find?_eq_some hfind)
    exact ⟨List.mem_map_of_mem hm, (hits_iff hl (hw.hash_eq he hm)).1 (List.find?_some hfind)⟩

theorem hashFind_fst_none (hw : Hash.WF hf h) (hl : hf.Lawful) {k : κ}
    (hf1 : (hashFind hf h k).1 = none) : ∀ o ∈ h.objs, hf.key o ≠ k := by
  rintro o ho rfl
  obtain ⟨he, hm, rfl⟩ := List.mem_map.1 ho
  unfold hashFind at hf1
  split at hf1
  · rename_i hfind
    exact List.find?_eq_none.1 hfind he (mem_chain hw hm) ((hits_iff hl (hw.hash_eq he hm)).2 rfl)
  · cases hf1

/-- A find of a key that no object has fails. -/
theorem hashFind_fst_eq_none (hw : Hash.WF hf h) (hl : hf.Lawful) {k : κ}
    (hk : ∀ o ∈ h.objs, hf.key o ≠ k) : (hashFind hf h k).1 = none := by
  cases hf1 : (hashFind hf h k).1 with
  | none => rfl
  | some o =>
    obtain ⟨ho, hok⟩ := hashFind_fst_some hw hl hf1
    exact absurd hok (hk o ho)

theorem hashFind_snd_objs (hf : Hashfns α κ) (h : Hash α) (k : κ) :
    (hashFind hf h k).2.objs ~ h.objs := by
  unfold hashFind
  split
  · exact List.Perm.refl _
  · rename_i he hfind
    have hm := List.mem_of_find?_eq_some hfind
    have hi := lt_length_of_mem_getD hm
    rw [Hash.chain, List.getD_eq_getElem _ _ hi] at hm ⊢
    exact (flatten_set_perm hi (List.perm_cons_erase hm).symm).map _

theorem Hash.WF.hashFind (hw : Hash.WF hf h) (k : κ) : (Plhash.hashFind hf h k).2.WF hf := by
  unfold Plhash.hashFind
  split
  · exact hw
  · rename_i he hfind
    have hm := List.mem_of_find?_eq_some hfind
    have hi := lt_length_of_mem_getD hm
    rw [Hash.chain, List.getD_eq_getElem _ _ hi] at hm ⊢
    have hperm := flatten_set_perm hi (List.perm_cons_erase hm).symm
    have hlen : ∀ c, (h.tbl.set (bucket (hf.hashfunc k) h.ntbl) c).length = h.tbl.length :=
      fun c => List.length_set ..
    refine ⟨?_, ?_, ?_, ?_⟩
    · show 0 < List.length _
      rw [hlen]
      exact hw.ntbl_pos
    · -- the chain keeps its cells, which are all in its bucket
      show Placed (List.length _) _
      rw [hlen]
      apply hw.placed.set
      intro x hx
      apply hw.placed
      rw [List.getD_eq_getElem _ _ hi]
      exact (List.perm_cons_erase hm).mem_iff.2 hx
    · exact fun x hx => hw.hash_eq x (hperm.mem_iff.1 hx)
    · exact hw.nents_eq.trans hperm.length_eq.symm

/-- With distinct keys, a find at an object's key returns the object. -/
theorem hashFind_key (hw : Hash.WF hf h) (hl : hf.Lawful) (hu : UniqueKeys hf h.objs) {o : α}
    (ho : o ∈ h.objs) : (hashFind hf h (hf.key o)).1 = some o := by
  cases hf1 : (hashFind hf h (hf.key o)).1 with
  | none => exact absurd rfl (hashFind_fst_none hw hl hf1 o ho)
  | some o' =>
    obtain ⟨ho', hk⟩ := hashFind_fst_some hw hl hf1
    rw [hu.eq ho' ho hk]

/-- `hash_delk` either finds no object of the key and changes nothing, or
deletes one cell of an object of the key. -/
theorem hashDelk_cases (hw : Hash.WF hf h) (hl : hf.Lawful) (k : κ) :
    ((hashDelk hf h k).1 = -1 ∧ (hashDelk hf h k).2 = h ∧ ∀ o ∈ h.objs, hf.key o ≠ k) ∨
    ((hashDelk hf h k).1 = 0 ∧ (hashDelk hf h k).2.WF hf ∧
      ∃ o, hf.key o = k ∧ o :: (hashDelk hf h k).2.objs ~ h.objs) := by
  unfold hashDelk
  split
  · rename_i hfind
    refine .inl ⟨rfl, rfl, ?_⟩
    rintro o ho rfl
    obtain ⟨he, hm, rfl⟩ := List.mem_map.1 ho
    exact List.find?_eq_none.1 hfind he (mem_chain hw hm) ((hits_iff hl (hw.hash_eq he hm)).2 rfl)
  · rename_i he hfind
    have hm := List.mem_of_find?_eq_some hfind
    have hi := lt_length_of_mem_getD hm
    have hk := List.find?_some hfind
    rw [Hash.chain, List.getD_eq_getElem _ _ hi] at hm ⊢
    have hperm := cons_flatten_set_erase hi hm
    have hmf : he ∈ h.tbl.flatten := hperm.mem_iff.1 (List.mem_cons_self ..)
    have hlen : ∀ c, (h.tbl.set (bucket (hf.hashfunc k) h.ntbl) c).length = h.tbl.length :=
      fun c => List.length_set ..
    refine .inr ⟨rfl, ⟨?_, ?_, ?_, ?_⟩, he.obj, (hits_iff hl (hw.hash_eq he hmf)).1 hk, hperm.map _⟩
    · show 0 < List.length _
      rw [hlen]
      exact hw.ntbl_pos
    · show Placed (List.length _) _
      rw [hlen]
      apply hw.placed.set
      intro x hx
      apply hw.placed
      rw [List.getD_eq_getElem _ _ hi]
      exact List.mem_of_mem_erase hx
    · exact fun x hx => hw.hash_eq x (hperm.mem_iff.1 (List.mem_cons_of_mem _ hx))
    · have := hperm.length_eq
      simp only [List.length_cons] at this
      simp only [hw.nents_eq]
      omega

/-- With distinct keys, `hash_del` of an object in the table deletes its cell. -/
theorem hashDel_of_mem (hw : Hash.WF hf h) (hl : hf.Lawful) (hu : UniqueKeys hf h.objs) {o : α}
    (ho : o ∈ h.objs) :
    (hashDel hf h o).1 = 0 ∧ (hashDel hf h o).2.WF hf ∧ o :: (hashDel hf h o).2.objs ~ h.objs := by
  rcases hashDelk_cases hw hl (hf.key o) with ⟨-, -, hnone⟩ | ⟨h0, hw', o', hk, hperm⟩
  · exact absurd rfl (hnone o ho)
  · have ho' : o' ∈ h.objs := hperm.mem_iff.1 (List.mem_cons_self ..)
    rw [hu.eq ho' ho hk] at hperm
    exact ⟨h0, hw', hperm⟩

end Calls

end Plhash
