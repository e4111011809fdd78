import Comdb2.Util.Plhash
import Comdb2.Lib.Bytes
import Comdb2.Lib.Qsort
import Comdb2.Lib.Bsearch

/-!
# Temp tables and their spill to a btree

A temp table (`temptable.c`) holds rows, each a key and its data, in one of
three forms.

* An array table is a sorted array in memory.  `bdb_temp_table_insert_put`
  finds the place of a new row by a binary search that moves past equal keys,
  so rows of one key stay in the order they were put.
* A hash table is a `plhash` table of rows keyed by their key bytes.  A put
  of a key already there is dropped: the first put of a key wins.
* A btree table is a berkdb btree `tmpdb`.  Berkdb is not part of this model:
  the temp btree's `put(..., 0)` is a parameter of the table (`BtPut`), the
  `put` method of its `DB` handle.  What is proved assumes of it what the
  claim about the spill assumes of berkdb (`BtPut.Lawful`): opened without
  `DB_DUP`, the btree keeps one row per key and a cursor reads the rows in
  comparator order; a put of a new key adds the row, and a put of a key equal
  to a stored one replaces that row's data.  `btPutSorted`, an insert into a
  sorted list, is such a put (`lawful_btPutSorted`).

When an array table reaches `max_mem_entries` rows or `cachesz` bytes, or a
hash table passes `max_mem_entries` rows, the table is copied row by row into
the btree (`bdbArrayCopyToTempDb`, `bdbHashTableCopyToTempDb`) and is a btree
from then on.  A scan (`scan`) reads the array, the hash chains bucket by
bucket, or the btree in order.

The copy is a sequence of btree puts, so it keeps the rows only when their
keys are distinct, whatever btree meets the assumption.  Two puts of one key into an array table keep both rows
until the table spills and one row after it, and a put into a spilled hash
table replaces the data the hash table would have kept
(`tempTable_spill_changes_rows`).

With distinct keys and a comparator consistent on them, the spill changes
nothing.  The put's search is the upper-bound search of `Bsearch`
(`searchLoop_eq_upper`), so it stops after the rows not above the new key
(`arrayInsertPos_eq`) and the array stays ascending (`insertIdx_arrayInsertPos`).
Btree puts of new keys keep the btree ascending and add the rows
(`BtPut.Lawful.foldl_new`), so the copy of an ascending array rebuilds it
(`BtPut.Lawful.foldl_ascending`).  The run
invariants `ArrayInv` and `HashInv` hold after every put, spill or not: an
array table scans as exactly the rows put, ascending, whatever the thresholds
(`scan_putAll_array`, `scan_putAll_array_eq`), and a hash table holds the rows
put (`scan_putAll_hash`).
-/

namespace Temptable

open scoped List

/-! ## Rows, comparators and the btree -/

/-- `TEMP_TABLE_TYPE_*`. -/
inductive TempTableType
  | btree
  | hash
  | array
deriving DecidableEq, Repr

/-- An `arr_elem_t`, and the row a hash cell or the btree holds: a key and its
data, each with its length. -/
structure ArrElem where
  key : List UInt8
  dta : List UInt8
deriving DecidableEq, Repr, Inhabited

/-- A `tmptbl_cmp` on two keys.  Only the sign of the C result is kept. -/
abbrev TmptblCmp := List UInt8 → List UInt8 → Ordering

/-- `key_memcmp`, the default comparator: `memcmp` over the shorter key, then
the lengths. -/
def keyMemcmp (key1 key2 : List UInt8) : Ordering :=
  (Bytes.memcmp key1 key2 (min key1.length key2.length)).then
    (compare key1.length key2.length)

/-- `hashcmpfunc`, the compare function of the hash table, on the keys inside
two rows.  Its body is that of `key_memcmp`, with the `int` it returns. -/
def hashcmpfunc (key1 key2 : List UInt8) : ℤ :=
  match keyMemcmp key1 key2 with
  | .lt => -1
  | .eq => 0
  | .gt => 1

/-- `hashfunc`: `hash_default_fixedwidth` on the key of a row. -/
def hashfunc (key : List UInt8) : UInt32 := Plhash.hashDefaultFixedwidth key

/-- What `hash_init_user(hashfunc, hashcmpfunc, 0, 0)` is built with: a row's
key is at its start. -/
def tempHashfns : Plhash.Hashfns ArrElem (List UInt8) := ⟨hashfunc, hashcmpfunc, ArrElem.key⟩

/-- `key_memcmp` is the lexicographic comparison of the keys. -/
theorem keyMemcmp_eq_cmp (key1 key2 : List UInt8) : keyMemcmp key1 key2 = Lex.cmp key1 key2 := by
  rw [keyMemcmp, Bytes.memcmp_min, Lex.cmp_eq_prefixCmp_then]

theorem keyMemcmp_eq_eq_iff {key1 key2 : List UInt8} : keyMemcmp key1 key2 = .eq ↔ key1 = key2 := by
  rw [keyMemcmp_eq_cmp, Lex.cmp_eq_eq_iff]

/-- `hashcmpfunc` is zero exactly on equal keys. -/
theorem tempHashfns_lawful : tempHashfns.Lawful := fun key1 key2 => by
  simp only [tempHashfns, hashcmpfunc, ← keyMemcmp_eq_eq_iff]
  cases keyMemcmp key1 key2 <;> decide

/-- The comparator on the keys of two rows. -/
def keyCmp (cmp : TmptblCmp) (a b : ArrElem) : Ordering := cmp a.key b.key

/-- Rows in strictly ascending key order. -/
def Ascending (cmp : TmptblCmp) (l : List ArrElem) : Prop :=
  l.Pairwise fun a b => cmp a.key b.key = .lt

instance (cmp : TmptblCmp) (l : List ArrElem) : Decidable (Ascending cmp l) :=
  inferInstanceAs (Decidable (l.Pairwise _))

/-- `key_memcmp` is consistent on every set of rows. -/
theorem totalOn_keyMemcmp (l : List ArrElem) : Qsort.TotalOn (keyCmp keyMemcmp) l := by
  refine ⟨fun a _ b _ => ?_, fun a _ b _ c _ hab hbc => ?_⟩
  · simp only [keyCmp, keyMemcmp_eq_cmp]
    exact Lex.cmp_swap _ _
  · simp only [keyCmp, keyMemcmp_eq_cmp, Ne, Lex.cmp_eq_gt_iff, not_lt] at hab hbc ⊢
    exact le_trans hab hbc

/-- The temp btree's `put(..., 0)`: `put cmp e db` is the btree after the row
`e` is put into `db` under the comparator `cmp`, a btree being the rows a
cursor reads from `DB_FIRST` on. -/
abbrev BtPut := TmptblCmp → ArrElem → List ArrElem → List ArrElem

/-- What the model takes as given of berkdb's temp btree, opened without
`DB_DUP`: on keys where the comparator is consistent, it holds one row per key
and a cursor reads them in comparator order; a put of a new key adds the row,
and a put of a key equal to a stored one replaces that row's data. -/
structure BtPut.Lawful (put : BtPut) : Prop where
  put_new : ∀ {cmp : TmptblCmp} {e : ArrElem} {db : List ArrElem},
    Qsort.TotalOn (keyCmp cmp) (e :: db) → Ascending cmp db → (∀ x ∈ db, cmp e.key x.key ≠ .eq) →
      Ascending cmp (put cmp e db) ∧ put cmp e db ~ e :: db
  put_eq : ∀ {cmp : TmptblCmp} {e x : ArrElem} {A B : List ArrElem},
    Qsort.TotalOn (keyCmp cmp) (e :: (A ++ x :: B)) → Ascending cmp (A ++ x :: B) →
      cmp e.key x.key = .eq → put cmp e (A ++ x :: B) = A ++ { x with dta := e.dta } :: B

/-! ## The table -/

/-- A `struct temp_table`, with the fields a put and a scan read. -/
structure TempTable where
  tempTableType : TempTableType
  cmpfunc : TmptblCmp
  elements : List ArrElem
  tempHashTbl : Plhash.Hash ArrElem
  tmpdb : List ArrElem
  tmpdbPut : BtPut
  numMemEntries : ℕ
  maxMemEntries : ℕ
  inmemsz : ℕ
  cachesz : ℕ

/-- `bdb_temp_table_create_type` on a new table: no rows, `key_memcmp`, the
thresholds `temptable_mem_threshold` and `temptable_cachesz`, the cache at
least 1 MiB, and the btree berkdb opens, with its put. -/
def bdbTempTableCreateType (tmpdbPut : BtPut) (temptableMemThreshold temptableCachesz : ℕ)
    (tempTableType : TempTableType) : TempTable where
  tempTableType := tempTableType
  cmpfunc := keyMemcmp
  elements := []
  tempHashTbl := Plhash.hashInit
  tmpdb := []
  tmpdbPut := tmpdbPut
  numMemEntries := 0
  maxMemEntries := temptableMemThreshold
  inmemsz := 0
  cachesz := max temptableCachesz 1048576

/-- `bdb_temp_array_create`. -/
def bdbTempArrayCreate (tmpdbPut : BtPut) (temptableMemThreshold temptableCachesz : ℕ) : TempTable :=
  bdbTempTableCreateType tmpdbPut temptableMemThreshold temptableCachesz .array

/-- `bdb_temp_hashtable_create`. -/
def bdbTempHashtableCreate (tmpdbPut : BtPut) (temptableMemThreshold temptableCachesz : ℕ) :
    TempTable :=
  bdbTempTableCreateType tmpdbPut temptableMemThreshold temptableCachesz .hash

/-- `bdb_temp_table_set_cmp_func`: a null comparator is `key_memcmp`. -/
def bdbTempTableSetCmpFunc (tbl : TempTable) (cmpfunc : Option TmptblCmp) : TempTable :=
  { tbl with cmpfunc := cmpfunc.getD keyMemcmp }

/-- The binary search of `bdb_temp_table_insert_put` over `[lo, hi]`: below the
middle row when it is above `key`, past it otherwise, equal keys included.
`fuel` bounds the rounds.  The put gives it the row count, the width of the
range, which every round shrinks, so the loop ends before the fuel does
(`arrayInsertPos_eq`). -/
def searchLoop (cmpfn : TmptblCmp) (elements : List ArrElem) (key : List UInt8) :
    ℕ → ℤ → ℤ → ℤ
  | 0, lo, _ => lo
  | fuel + 1, lo, hi =>
    if lo ≤ hi then
      -- `(lo + hi) >> 1`, a floor halving
      let mid := (lo + hi) / 2
      match cmpfn (elements.getD mid.toNat default).key key with
      | .lt => searchLoop cmpfn elements key fuel (mid + 1) hi
      | .gt => searchLoop cmpfn elements key fuel lo (mid - 1)
      | .eq => searchLoop cmpfn elements key fuel (mid + 1) hi
    else lo

/-- The place of a new row in the array: the search over every row, or 0 when
there is none. -/
def arrayInsertPos (tbl : TempTable) (key : List UInt8) : ℤ :=
  let hi : ℤ := tbl.numMemEntries - 1
  if 0 ≤ hi then searchLoop tbl.cmpfunc tbl.elements key tbl.numMemEntries 0 hi else 0

/-- `bdb_array_copy_to_temp_db`: every row of the array put into the btree in
array order; the table is a btree from then on and keeps its row count. -/
def bdbArrayCopyToTempDb (tbl : TempTable) : TempTable :=
  { tbl with
    tmpdb := tbl.elements.foldl (fun db e => tbl.tmpdbPut tbl.cmpfunc e db) tbl.tmpdb
    inmemsz := 0
    tempTableType := .btree }

/-- `bdb_hash_table_copy_to_temp_db`: every row of the hash table put into the
btree in `hash_first`/`hash_next` order, and a new empty hash table. -/
def bdbHashTableCopyToTempDb (tbl : TempTable) : TempTable :=
  { tbl with
    tmpdb := tbl.tempHashTbl.objs.foldl (fun db e => tbl.tmpdbPut tbl.cmpfunc e db) tbl.tmpdb
    tempHashTbl := Plhash.hashInit
    tempTableType := .btree }

/-- `bdb_temp_table_insert_put`: 0 when the row went to memory (and the table
spilled if the row made it full), 1 for a btree table, whose caller puts the
row.  The failed allocations and btree puts that return -1 are not modelled. -/
def bdbTempTableInsertPut (tbl : TempTable) (key dta : List UInt8) : ℤ × TempTable :=
  match tbl.tempTableType with
  | .hash =>
    let tbl :=
      match Plhash.hashFind tempHashfns tbl.tempHashTbl key with
      | (none, h) =>
        { tbl with
          tempHashTbl := Plhash.hashAdd tempHashfns h ⟨key, dta⟩
          numMemEntries := tbl.numMemEntries + 1 }
      -- an equal key is there: the new row is freed
      | (some _, h) => { tbl with tempHashTbl := h }
    if tbl.maxMemEntries < tbl.numMemEntries then (0, bdbHashTableCopyToTempDb tbl) else (0, tbl)
  | .array =>
    let tbl :=
      { tbl with
        elements := tbl.elements.insertIdx (arrayInsertPos tbl key).toNat ⟨key, dta⟩
        numMemEntries := tbl.numMemEntries + 1
        inmemsz := tbl.inmemsz + (key.length + dta.length) }
    -- the spill test comes after the count is raised
    if tbl.numMemEntries = tbl.maxMemEntries ∨ tbl.cachesz < tbl.inmemsz then
      (0, bdbArrayCopyToTempDb tbl)
    else (0, tbl)
  | .btree => (1, { tbl with numMemEntries := tbl.numMemEntries + 1 })

/-- `bdb_temp_table_put`: the in-memory put, and a btree put when that answers 1. -/
def bdbTempTablePut (tbl : TempTable) (key dta : List UInt8) : ℤ × TempTable :=
  match bdbTempTableInsertPut tbl key dta with
  | (1, tbl) => (0, { tbl with tmpdb := tbl.tmpdbPut tbl.cmpfunc ⟨key, dta⟩ tbl.tmpdb })
  | r => r

/-- The rows a cursor reads from `bdb_temp_table_first` through
`bdb_temp_table_next` until `IX_PASTEOF`: the array up to the row count, the
hash chains from `hash_first` on, or the btree from `DB_FIRST` on. -/
def scan (tbl : TempTable) : List ArrElem :=
  match tbl.tempTableType with
  | .hash => tbl.tempHashTbl.objs
  | .array => tbl.elements.take tbl.numMemEntries
  | .btree => tbl.tmpdb

/-- A run of puts, each row put by `bdb_temp_table_put`. -/
def putAll (tbl : TempTable) (rows : List ArrElem) : TempTable :=
  rows.foldl (fun t e => (bdbTempTablePut t e.key e.dta).2) tbl

/-! ## Puts, one mode at a time -/

section Puts

variable {t : TempTable} (key dta : List UInt8)

/-- A put into a btree table goes to the btree. -/
theorem bdbTempTablePut_btree (h : t.tempTableType = .btree) :
    (bdbTempTablePut t key dta).2 =
      { t with numMemEntries := t.numMemEntries + 1, tmpdb := t.tmpdbPut t.cmpfunc ⟨key, dta⟩ t.tmpdb } := by
  simp [bdbTempTablePut, bdbTempTableInsertPut, h]

/-- A put into an array table below both thresholds inserts the row at the
searched place. -/
theorem bdbTempTablePut_array_keep (h : t.tempTableType = .array)
    (hs : ¬(t.numMemEntries + 1 = t.maxMemEntries ∨ t.cachesz < t.inmemsz + (key.length + dta.length))) :
    (bdbTempTablePut t key dta).2 = { t with
      elements := t.elements.insertIdx (arrayInsertPos t key).toNat ⟨key, dta⟩
      numMemEntries := t.numMemEntries + 1
      inmemsz := t.inmemsz + (key.length + dta.length) } := by
  simp only [bdbTempTablePut, bdbTempTableInsertPut, h]
  rw [if_neg hs]
  rfl

/-- A put into an array table that reaches either threshold inserts the row,
then spills the array into the btree. -/
theorem bdbTempTablePut_array_spill (h : t.tempTableType = .array)
    (hs : t.numMemEntries + 1 = t.maxMemEntries ∨ t.cachesz < t.inmemsz + (key.length + dta.length)) :
    (bdbTempTablePut t key dta).2 = bdbArrayCopyToTempDb { t with
      elements := t.elements.insertIdx (arrayInsertPos t key).toNat ⟨key, dta⟩
      numMemEntries := t.numMemEntries + 1
      inmemsz := t.inmemsz + (key.length + dta.length) } := by
  simp only [bdbTempTablePut, bdbTempTableInsertPut, h]
  rw [if_pos hs]
  rfl

/-- A put into an array table inserts the row at the searched place, and the
table is that array or the btree it spilled into. -/
theorem bdbTempTablePut_array (h : t.tempTableType = .array) :
    let t' := { t with
      elements := t.elements.insertIdx (arrayInsertPos t key).toNat ⟨key, dta⟩
      numMemEntries := t.numMemEntries + 1
      inmemsz := t.inmemsz + (key.length + dta.length) }
    (bdbTempTablePut t key dta).2 = t' ∨ (bdbTempTablePut t key dta).2 = bdbArrayCopyToTempDb t' := by
  by_cases hs : t.numMemEntries + 1 = t.maxMemEntries ∨ t.cachesz < t.inmemsz + (key.length + dta.length)
  · exact .inr (bdbTempTablePut_array_spill key dta h hs)
  · exact .inl (bdbTempTablePut_array_keep key dta h hs)

section Hash

variable (h : t.tempTableType = .hash)
include h

/-- A put into a hash table of a new key that keeps it within `max_mem_entries`
adds the row. -/
theorem bdbTempTablePut_hash_keep (hnew : (Plhash.hashFind tempHashfns t.tempHashTbl key).1 = none)
    (hn : t.numMemEntries + 1 ≤ t.maxMemEntries) :
    (bdbTempTablePut t key dta).2 = { t with
      tempHashTbl := Plhash.hashAdd tempHashfns (Plhash.hashFind tempHashfns t.tempHashTbl key).2
        ⟨key, dta⟩
      numMemEntries := t.numMemEntries + 1 } := by
  obtain ⟨o, h'⟩ : ∃ h', Plhash.hashFind tempHashfns t.tempHashTbl key = (none, h') :=
    ⟨_, Prod.ext hnew rfl⟩
  simp only [bdbTempTablePut, bdbTempTableInsertPut, h, h']
  rw [if_neg (by omega)]
  rfl

/-- A put into a hash table of a new key that passes `max_mem_entries` adds the
row, then spills the hash table into the btree. -/
theorem bdbTempTablePut_hash_spill (hnew : (Plhash.hashFind tempHashfns t.tempHashTbl key).1 = none)
    (hn : t.maxMemEntries < t.numMemEntries + 1) :
    (bdbTempTablePut t key dta).2 = bdbHashTableCopyToTempDb { t with
      tempHashTbl := Plhash.hashAdd tempHashfns (Plhash.hashFind tempHashfns t.tempHashTbl key).2
        ⟨key, dta⟩
      numMemEntries := t.numMemEntries + 1 } := by
  obtain ⟨o, h'⟩ : ∃ h', Plhash.hashFind tempHashfns t.tempHashTbl key = (none, h') :=
    ⟨_, Prod.ext hnew rfl⟩
  simp only [bdbTempTablePut, bdbTempTableInsertPut, h, h']
  rw [if_pos hn]
  rfl

/-- A put into a hash table of a key it holds leaves the row there: only the
find's reordering of the chain stays. -/
theorem bdbTempTablePut_hash_dup {o : ArrElem}
    (hold : (Plhash.hashFind tempHashfns t.tempHashTbl key).1 = some o)
    (hn : t.numMemEntries ≤ t.maxMemEntries) :
    (bdbTempTablePut t key dta).2 = { t with
      tempHashTbl := (Plhash.hashFind tempHashfns t.tempHashTbl key).2 } := by
  obtain ⟨o, h'⟩ : ∃ h', Plhash.hashFind tempHashfns t.tempHashTbl key = (some o, h') :=
    ⟨_, Prod.ext hold rfl⟩
  simp only [bdbTempTablePut, bdbTempTableInsertPut, h, h']
  rw [if_neg (by omega)]
  rfl

/-- A put into a hash table adds the row when its key is new, and the table is
that hash table or the btree it spilled into. -/
theorem bdbTempTablePut_hash (hnew : (Plhash.hashFind tempHashfns t.tempHashTbl key).1 = none) :
    let t' := { t with
      tempHashTbl := Plhash.hashAdd tempHashfns (Plhash.hashFind tempHashfns t.tempHashTbl key).2
        ⟨key, dta⟩
      numMemEntries := t.numMemEntries + 1 }
    (bdbTempTablePut t key dta).2 = t' ∨ (bdbTempTablePut t key dta).2 = bdbHashTableCopyToTempDb t' := by
  by_cases hn : t.numMemEntries + 1 ≤ t.maxMemEntries
  · exact .inl (bdbTempTablePut_hash_keep key dta h hnew hn)
  · exact .inr (bdbTempTablePut_hash_spill key dta h hnew (by omega))

end Hash

end Puts

/-! ## The array search -/

/-- The search loop of the put is the generic upper-bound search, with the test
"the row is not above the key". -/
theorem searchLoop_eq_upper (cmpfn : TmptblCmp) (elements : List ArrElem) (key : List UInt8) :
    ∀ fuel lo hi, searchLoop cmpfn elements key fuel lo hi =
      Bsearch.upper (fun i => decide (cmpfn (elements.getD i.toNat default).key key ≠ .gt)) fuel lo hi
  | 0, _, _ => rfl
  | fuel + 1, lo, hi => by
    by_cases hle : lo ≤ hi
    · rw [searchLoop, Bsearch.upper, if_pos hle, if_pos hle]
      cases hc : cmpfn (elements.getD ((lo + hi) / 2).toNat default).key key <;>
        simp only [hc, searchLoop_eq_upper] <;> rfl
    · rw [searchLoop, Bsearch.upper, if_neg hle, if_neg hle]

/-- Over a full array whose rows not above the key come first, the put's place
is right after them. -/
theorem arrayInsertPos_eq {t : TempTable} {key : List UInt8}
    (hn : t.numMemEntries = t.elements.length)
    (hq : Bsearch.PrefixBy (fun x => decide (t.cmpfunc x.key key ≠ .gt)) t.elements) :
    arrayInsertPos t key = (t.elements.takeWhile fun x => decide (t.cmpfunc x.key key ≠ .gt)).length := by
  unfold arrayInsertPos
  by_cases h0 : (0 : ℤ) ≤ t.numMemEntries - 1
  · rw [if_pos h0, searchLoop_eq_upper, hn]
    exact Bsearch.upper_getD default hq
  · -- no rows: the place is 0
    have he : t.elements = [] := List.eq_nil_of_length_eq_zero (by omega)
    rw [if_neg h0, he]
    rfl

/-! ## Distinct keys -/

section Distinct

variable {cmp : TmptblCmp} {rows l db : List ArrElem} {e : ArrElem}

theorem lt_of_ne_gt_of_ne_eq {o : Ordering} (h₁ : o ≠ .gt) (h₂ : o ≠ .eq) : o = .lt := by
  cases o <;> simp_all

section Consistent

variable (htot : Qsort.TotalOn (keyCmp cmp) rows)
include htot

theorem gt_of_lt {a b : ArrElem} (ha : a ∈ rows) (hb : b ∈ rows) (h : cmp a.key b.key = .lt) :
    cmp b.key a.key = .gt := by
  have hs := htot.1 a ha b hb
  simp only [keyCmp] at hs
  rw [hs, h]
  rfl

theorem lt_of_gt {a b : ArrElem} (ha : a ∈ rows) (hb : b ∈ rows) (h : cmp a.key b.key = .gt) :
    cmp b.key a.key = .lt := by
  have hs := htot.1 a ha b hb
  simp only [keyCmp] at hs
  rw [hs, h]
  rfl

theorem ne_eq_symm {a b : ArrElem} (ha : a ∈ rows) (hb : b ∈ rows) (h : cmp a.key b.key ≠ .eq) :
    cmp b.key a.key ≠ .eq := by
  have hs := htot.1 a ha b hb
  simp only [keyCmp] at hs
  rw [hs]
  cases hc : cmp a.key b.key <;> simp_all

/-- Rows not above a new key, in an ascending array, come first. -/
theorem Ascending.prefixBy (hasc : Ascending cmp l) (hl : ∀ x ∈ l, x ∈ rows) (he : e ∈ rows) :
    Bsearch.PrefixBy (fun x => decide (cmp x.key e.key ≠ .gt)) l := by
  refine List.Pairwise.imp_of_mem (fun {a b} ha hb hab hbe => ?_) hasc
  simp only [decide_eq_true_eq] at hbe ⊢
  exact htot.2 a (hl a ha) b (hl b hb) e he (by simp [keyCmp, hab]) hbe

/-- Inserting a row of a new key at the searched place keeps the array ascending. -/
theorem Ascending.insert (hasc : Ascending cmp l) (hl : ∀ x ∈ l, x ∈ rows) (he : e ∈ rows)
    (hne : ∀ x ∈ l, cmp x.key e.key ≠ .eq) :
    Ascending cmp ((l.takeWhile fun x => decide (cmp x.key e.key ≠ .gt)) ++
      e :: l.dropWhile fun x => decide (cmp x.key e.key ≠ .gt)) := by
  set q := fun x : ArrElem => decide (cmp x.key e.key ≠ .gt)
  have hparts : Ascending cmp (l.takeWhile q ++ l.dropWhile q) := by
    rwa [List.takeWhile_append_dropWhile]
  rw [Ascending, List.pairwise_append] at hparts
  have hdrop : ∀ x ∈ l.dropWhile q, cmp e.key x.key = .lt := by
    intro x hx
    have hx' : x ∈ l := List.dropWhile_subset _ hx
    have hgt : cmp x.key e.key = .gt := by
      simpa [q] using Bsearch.eq_false_of_mem_dropWhile (hasc.prefixBy htot hl he) x hx
    exact lt_of_gt htot (hl x hx') he hgt
  rw [Ascending, List.pairwise_append, List.pairwise_cons]
  refine ⟨hparts.1, ⟨hdrop, hparts.2.1⟩, fun a ha b hb => ?_⟩
  have ha' : a ∈ l := List.takeWhile_subset _ ha
  rcases List.mem_cons.1 hb with rfl | hb
  · exact lt_of_ne_gt_of_ne_eq (by simpa [q] using List.mem_takeWhile_imp ha) (hne a ha')
  · exact hparts.2.2 a ha b hb

/-- An array put of a row of a new key lands after the rows not above it and
before the rows above it, so the array stays ascending. -/
theorem insertIdx_arrayInsertPos {t : TempTable} (hcmp : t.cmpfunc = cmp)
    (hn : t.numMemEntries = t.elements.length) (hasc : Ascending cmp t.elements)
    (hl : ∀ x ∈ t.elements, x ∈ rows) (he : e ∈ rows) (hne : ∀ x ∈ t.elements, cmp x.key e.key ≠ .eq) :
    Ascending cmp (t.elements.insertIdx (arrayInsertPos t e.key).toNat e) ∧
      t.elements.insertIdx (arrayInsertPos t e.key).toNat e ~ e :: t.elements := by
  have hq := hasc.prefixBy htot hl he
  rw [← hcmp] at hq
  rw [arrayInsertPos_eq hn hq, Int.toNat_natCast, Bsearch.insertIdx_takeWhile, hcmp]
  refine ⟨hasc.insert htot hl he hne, List.perm_middle.trans ?_⟩
  rw [List.takeWhile_append_dropWhile]

end Consistent

/-! ### Btree puts -/

section Btree

variable {put : BtPut} (hbt : put.Lawful)
include hbt

/-- A put of a new key gives the one ascending arrangement of the rows. -/
theorem BtPut.Lawful.put_new_eq (htot : Qsort.TotalOn (keyCmp cmp) (e :: db)) (hasc : Ascending cmp db)
    (hne : ∀ x ∈ db, cmp e.key x.key ≠ .eq) (hl : Ascending cmp l) (hp : l ~ e :: db) :
    put cmp e db = l := by
  obtain ⟨hasc', hperm⟩ := hbt.put_new htot hasc hne
  exact Qsort.eq_of_perm_of_pairwise_lt (hperm.trans hp.symm)
    (hasc'.imp fun h => by simp [h]) hl (htot.mono hp.subset).1

/-- Putting rows of distinct keys, new to an ascending btree, one by one adds
them all and keeps the btree ascending. -/
theorem BtPut.Lawful.foldl_new :
    ∀ {l db : List ArrElem}, Qsort.TotalOn (keyCmp cmp) (l ++ db) →
      l.Pairwise (fun a b => cmp b.key a.key ≠ .eq) → (∀ y ∈ l, ∀ x ∈ db, cmp y.key x.key ≠ .eq) →
      Ascending cmp db →
      Ascending cmp (l.foldl (fun db e => put cmp e db) db) ∧
        l.foldl (fun db e => put cmp e db) db ~ l ++ db
  | [], _, _, _, _, hasc => ⟨hasc, List.Perm.refl _⟩
  | e :: l, db, htot, hl, hd, hasc => by
    rw [List.pairwise_cons] at hl
    obtain ⟨hasc', hp⟩ := hbt.put_new
      (htot.mono (List.cons_subset_cons e (List.subset_append_right l db))) hasc
      (hd e List.mem_cons_self)
    -- the rest goes into the btree that now holds `e`
    have hsub : l ++ put cmp e db ⊆ e :: l ++ db := fun x hx => by
      rcases List.mem_append.1 hx with hx | hx
      · simp [hx]
      · rcases List.mem_cons.1 (hp.subset hx) with rfl | hx <;> simp [*]
    have hnew : ∀ y ∈ l, ∀ x ∈ put cmp e db, cmp y.key x.key ≠ .eq := fun y hy x hx => by
      rcases List.mem_cons.1 (hp.subset hx) with rfl | hx
      · exact hl.1 y hy
      · exact hd y (List.mem_cons_of_mem e hy) x hx
    obtain ⟨hasc'', hp'⟩ := foldl_new (htot.mono hsub) hl.2 hnew hasc'
    exact ⟨hasc'', hp'.trans ((hp.append_left l).trans List.perm_middle)⟩

/-- Putting the rows of an ascending array one by one into an empty btree
rebuilds the array. -/
theorem BtPut.Lawful.foldl_ascending (htot : Qsort.TotalOn (keyCmp cmp) l) (hasc : Ascending cmp l) :
    l.foldl (fun db e => put cmp e db) [] = l := by
  have hd : l.Pairwise fun a b => cmp b.key a.key ≠ .eq :=
    hasc.imp_of_mem fun ha hb hab => by
      rw [gt_of_lt htot ha hb hab]
      decide
  obtain ⟨hasc', hp⟩ := hbt.foldl_new (by simpa using htot) hd (by simp) List.Pairwise.nil
  rw [List.append_nil] at hp
  exact Qsort.eq_of_perm_of_pairwise_lt hp (hasc'.imp fun h => by simp [h]) hasc htot.1

end Btree

/-! ### A btree that meets the assumption -/

/-- A btree kept as a sorted list with one row per key: a put walks past the
rows below the new key and replaces the data of an equal key. -/
def btPutSorted (cmp : TmptblCmp) (e : ArrElem) : List ArrElem → List ArrElem
  | [] => [e]
  | x :: xs =>
    match cmp e.key x.key with
    | .gt => x :: btPutSorted cmp e xs
    | .eq => { x with dta := e.dta } :: xs
    | .lt => e :: x :: xs

/-- A put of a new key adds the row. -/
theorem btPutSorted_perm : ∀ {l : List ArrElem}, (∀ x ∈ l, cmp e.key x.key ≠ .eq) →
    btPutSorted cmp e l ~ e :: l
  | [], _ => List.Perm.refl _
  | x :: xs, hne => by
    cases hc : cmp e.key x.key with
    | gt =>
      simp only [btPutSorted, hc]
      exact ((btPutSorted_perm fun y hy => hne y (List.mem_cons_of_mem x hy)).cons x).trans
        (List.Perm.swap e x xs)
    | eq => exact absurd hc (hne x List.mem_cons_self)
    | lt =>
      simp only [btPutSorted, hc]
      exact List.Perm.refl _

/-- A put of a new key into an ascending btree keeps it ascending. -/
theorem ascending_btPutSorted :
    ∀ {l : List ArrElem}, Qsort.TotalOn (keyCmp cmp) (e :: l) → Ascending cmp l →
      (∀ x ∈ l, cmp e.key x.key ≠ .eq) → Ascending cmp (btPutSorted cmp e l)
  | [], _, _, _ => List.pairwise_singleton _ e
  | x :: xs, htot, hasc, hne => by
    rw [Ascending, List.pairwise_cons] at hasc
    have hne' : ∀ y ∈ xs, cmp e.key y.key ≠ .eq := fun y hy => hne y (List.mem_cons_of_mem x hy)
    cases hc : cmp e.key x.key with
    | gt =>
      -- the row goes further right: `x` stays first, below the row and the rest
      simp only [btPutSorted, hc]
      have htot' := htot.mono (List.cons_subset_cons e (List.subset_cons_self x xs))
      refine List.Pairwise.cons (fun y hy => ?_) (ascending_btPutSorted htot' hasc.2 hne')
      rcases List.mem_cons.1 ((btPutSorted_perm hne').subset hy) with rfl | hy
      · exact lt_of_gt htot List.mem_cons_self (by simp) hc
      · exact hasc.1 y hy
    | eq => exact absurd hc (hne x List.mem_cons_self)
    | lt =>
      -- the row goes first: below `x`, hence below the rest
      simp only [btPutSorted, hc]
      refine List.Pairwise.cons (fun y hy => ?_) (List.Pairwise.cons hasc.1 hasc.2)
      rcases List.mem_cons.1 hy with rfl | hy
      · exact hc
      · have hey : keyCmp cmp e y ≠ .gt :=
          htot.2 e List.mem_cons_self x (by simp) y (by simp [hy]) (by simp [keyCmp, hc])
            (by simp [keyCmp, hasc.1 y hy])
        exact lt_of_ne_gt_of_ne_eq hey (hne' y hy)

/-- A put of a key equal to a stored one replaces that row's data. -/
theorem btPutSorted_append_eq {x : ArrElem} {B : List ArrElem} (heq : cmp e.key x.key = .eq) :
    ∀ {A : List ArrElem}, Qsort.TotalOn (keyCmp cmp) (e :: (A ++ x :: B)) →
      Ascending cmp (A ++ x :: B) → btPutSorted cmp e (A ++ x :: B) = A ++ { x with dta := e.dta } :: B
  | [], _, _ => by simp [btPutSorted, heq]
  | a :: A, htot, hasc => by
    rw [Ascending, List.cons_append, List.pairwise_cons] at hasc
    -- `a` is below `x`, and the new key equals `x`'s, so it is above `a`
    have hea : cmp e.key a.key = .gt := by
      by_contra hng
      have hxe : cmp x.key e.key = .eq := by
        have hs := htot.1 e List.mem_cons_self x (by simp)
        simp only [keyCmp] at hs
        rw [hs, heq]
        rfl
      have hxa := htot.2 x (by simp) e List.mem_cons_self a (by simp) (by simp [keyCmp, hxe]) hng
      exact hxa (gt_of_lt htot (by simp) (by simp) (hasc.1 x (by simp)))
    have htot' := htot.mono (List.cons_subset_cons e (List.subset_cons_self a _))
    simp only [List.cons_append, btPutSorted, hea, btPutSorted_append_eq heq htot' hasc.2]

/-- The sorted-list btree does what the model assumes of berkdb's. -/
theorem lawful_btPutSorted : BtPut.Lawful btPutSorted where
  put_new htot hasc hne := ⟨ascending_btPutSorted htot hasc hne, btPutSorted_perm hne⟩
  put_eq htot hasc heq := btPutSorted_append_eq heq htot hasc

/-! ### A run of puts into an array table -/

/-- What a run of puts into an array table keeps, `done` being the rows put so
far: the table is an array with its row count and an empty btree, or it has
spilled into the btree; either way it scans as the rows put, ascending. -/
structure ArrayInv (cmp : TmptblCmp) (t : TempTable) (done : List ArrElem) : Prop where
  cmpfunc : t.cmpfunc = cmp
  lawful : t.tmpdbPut.Lawful
  mode : (t.tempTableType = .array ∧ t.numMemEntries = t.elements.length ∧ t.tmpdb = []) ∨
    t.tempTableType = .btree
  perm : scan t ~ done
  asc : Ascending cmp (scan t)

section ArrayRun

variable (htot : Qsort.TotalOn (keyCmp cmp) rows)
include htot

/-- One put of a row of a new key keeps the invariant, spill or not. -/
theorem ArrayInv.put {t : TempTable} {done : List ArrElem} (hI : ArrayInv cmp t done)
    (hdone : ∀ x ∈ done, x ∈ rows) (he : e ∈ rows) (hne : ∀ x ∈ done, cmp x.key e.key ≠ .eq) :
    ArrayInv cmp (bdbTempTablePut t e.key e.dta).2 (done ++ [e]) := by
  have hl : ∀ x ∈ scan t, x ∈ rows := fun x hx => hdone x (hI.perm.subset hx)
  have hne' : ∀ x ∈ scan t, cmp x.key e.key ≠ .eq := fun x hx => hne x (hI.perm.subset hx)
  have hdone' : e :: scan t ~ done ++ [e] :=
    (hI.perm.cons e).trans (List.perm_append_singleton e done).symm
  rcases hI.mode with ⟨harr, hn, hdb⟩ | hbt
  · -- an array: the row goes in at the searched place
    have hscan : scan t = t.elements := by simp [scan, harr, hn]
    have hasc0 := hI.asc
    rw [hscan] at hl hne' hdone' hasc0
    obtain ⟨hasc, hperm⟩ := insertIdx_arrayInsertPos htot hI.cmpfunc hn hasc0 hl he hne'
    have hlen : (t.elements.insertIdx (arrayInsertPos t e.key).toNat e).length =
        t.numMemEntries + 1 := by
      rw [hperm.length_eq, hn, List.length_cons]
    rcases bdbTempTablePut_array e.key e.dta harr with h | h <;> rw [h]
    · -- no spill
      refine ⟨hI.cmpfunc, hI.lawful, .inl ⟨harr, hlen.symm, hdb⟩, ?_, ?_⟩ <;>
        simp only [scan, harr, ← hlen, List.take_length]
      · exact hperm.trans hdone'
      · exact hasc
    · -- the spill copies the array into the empty btree
      have hcopy := hI.lawful.foldl_ascending
        (htot.mono fun x hx => List.forall_mem_cons.2 ⟨he, hl⟩ x (hperm.subset hx)) hasc
      refine ⟨hI.cmpfunc, hI.lawful, .inr rfl, ?_, ?_⟩ <;>
        simp only [scan, bdbArrayCopyToTempDb, hdb, hI.cmpfunc] <;> rw [hcopy]
      · exact hperm.trans hdone'
      · exact hasc
  · -- a btree: the row goes to the btree
    have hscan : scan t = t.tmpdb := by simp [scan, hbt]
    have hasc0 := hI.asc
    rw [hscan] at hl hne' hdone' hasc0
    have hnew : ∀ x ∈ t.tmpdb, cmp e.key x.key ≠ .eq := fun x hx =>
      ne_eq_symm htot (hl x hx) he (hne' x hx)
    obtain ⟨hasc, hperm⟩ :=
      hI.lawful.put_new (htot.mono (List.cons_subset.2 ⟨he, fun x hx => hl x hx⟩)) hasc0 hnew
    rw [bdbTempTablePut_btree e.key e.dta hbt]
    refine ⟨hI.cmpfunc, hI.lawful, .inr hbt, ?_, ?_⟩ <;> simp only [scan, hbt, hI.cmpfunc]
    · exact hperm.trans hdone'
    · exact hasc

/-- A run of puts of rows of distinct keys keeps the invariant. -/
theorem ArrayInv.putAll (hd : rows.Pairwise fun a b => cmp a.key b.key ≠ .eq) :
    ∀ (rest : List ArrElem) {t : TempTable} {done : List ArrElem}, done ++ rest = rows →
      ArrayInv cmp t done → ArrayInv cmp (putAll t rest) rows
  | [], t, done, hrows, hI => by
    rw [List.append_nil] at hrows
    exact hrows ▸ hI
  | e :: rest, t, done, hrows, hI => by
    have hmem : ∀ x ∈ done ++ e :: rest, x ∈ rows := fun x hx => hrows ▸ hx
    have hne : ∀ x ∈ done, cmp x.key e.key ≠ .eq := by
      rw [← hrows] at hd
      exact fun x hx => (List.pairwise_append.1 hd).2.2 x hx e List.mem_cons_self
    exact ArrayInv.putAll hd rest (by simpa using hrows)
      (hI.put htot (fun x hx => hmem x (List.mem_append_left _ hx)) (hmem e (by simp)) hne)

variable {put : BtPut} (hbt : put.Lawful)
include hbt

/-- Rows of distinct keys, put into an array table whose comparator is
consistent on them, scan as exactly those rows in ascending key order. -/
theorem scan_putAll_array (temptableMemThreshold temptableCachesz : ℕ)
    (hd : rows.Pairwise fun a b => cmp a.key b.key ≠ .eq) :
    scan (putAll (bdbTempTableSetCmpFunc
        (bdbTempArrayCreate put temptableMemThreshold temptableCachesz) (some cmp)) rows) ~ rows ∧
      Ascending cmp (scan (putAll (bdbTempTableSetCmpFunc
        (bdbTempArrayCreate put temptableMemThreshold temptableCachesz) (some cmp)) rows)) := by
  have h0 : ArrayInv cmp (bdbTempTableSetCmpFunc
      (bdbTempArrayCreate put temptableMemThreshold temptableCachesz) (some cmp)) [] :=
    ⟨rfl, hbt, .inl ⟨rfl, rfl, rfl⟩, List.Perm.refl _, List.Pairwise.nil⟩
  have hI := ArrayInv.putAll htot hd rows (List.nil_append rows) h0
  exact ⟨hI.perm, hI.asc⟩

/-- So with distinct keys the thresholds, hence the spill, do not change what a
scan of an array table returns. -/
theorem scan_putAll_array_eq (temptableMemThreshold₁ temptableCachesz₁ temptableMemThreshold₂
      temptableCachesz₂ : ℕ) (hd : rows.Pairwise fun a b => cmp a.key b.key ≠ .eq) :
    scan (putAll (bdbTempTableSetCmpFunc
        (bdbTempArrayCreate put temptableMemThreshold₁ temptableCachesz₁) (some cmp)) rows) =
      scan (putAll (bdbTempTableSetCmpFunc
        (bdbTempArrayCreate put temptableMemThreshold₂ temptableCachesz₂) (some cmp)) rows) := by
  obtain ⟨hp₁, ha₁⟩ := scan_putAll_array htot hbt temptableMemThreshold₁ temptableCachesz₁ hd
  obtain ⟨hp₂, ha₂⟩ := scan_putAll_array htot hbt temptableMemThreshold₂ temptableCachesz₂ hd
  refine @Qsort.eq_of_perm_of_pairwise_lt _ (keyCmp cmp) _ _ (hp₁.trans hp₂.symm)
    (ha₁.imp fun h => by simp [keyCmp, h]) ha₂ fun a ha b hb => ?_
  exact htot.1 a (hp₂.subset ha) b (hp₂.subset hb)

end ArrayRun

theorem scan_putAll_array_eq_twoKeys :
    Qsort.TotalOn (keyCmp keyMemcmp) [⟨[2], [0xc]⟩, ⟨[1], [0xa]⟩] ∧ BtPut.Lawful btPutSorted ∧
      [(⟨[2], [0xc]⟩ : ArrElem), ⟨[1], [0xa]⟩].Pairwise (fun a b => keyMemcmp a.key b.key ≠ .eq) ∧
      scan (putAll (bdbTempTableSetCmpFunc (bdbTempArrayCreate btPutSorted 1 0) (some keyMemcmp))
          [⟨[2], [0xc]⟩, ⟨[1], [0xa]⟩]) =
        scan (putAll (bdbTempTableSetCmpFunc (bdbTempArrayCreate btPutSorted 5 0) (some keyMemcmp))
          [⟨[2], [0xc]⟩, ⟨[1], [0xa]⟩]) :=
  ⟨totalOn_keyMemcmp _, lawful_btPutSorted, by decide,
    scan_putAll_array_eq (totalOn_keyMemcmp _) lawful_btPutSorted 1 0 5 0 (by decide)⟩

/-! ### A run of puts into a hash table -/

/-- What a run of puts of distinct keys into a hash table keeps, `done` being the
rows put so far: a well-formed hash table and an empty btree, or the btree it
spilled into, ascending; either way it holds the rows put. -/
structure HashInv (t : TempTable) (done : List ArrElem) : Prop where
  cmpfunc : t.cmpfunc = keyMemcmp
  lawful : t.tmpdbPut.Lawful
  mode : (t.tempTableType = .hash ∧ t.tempHashTbl.WF tempHashfns ∧ t.tmpdb = []) ∨
    t.tempTableType = .btree
  asc : Ascending keyMemcmp t.tmpdb
  perm : scan t ~ done

/-- One put of a row of a new key keeps the invariant, spill or not. -/
theorem HashInv.put {t : TempTable} {done : List ArrElem} (hI : HashInv t done)
    (hu : Plhash.UniqueKeys tempHashfns (done ++ [e])) :
    HashInv (bdbTempTablePut t e.key e.dta).2 (done ++ [e]) := by
  have hne : ∀ x ∈ scan t, x.key ≠ e.key := fun x hx =>
    (List.pairwise_append.1 hu).2.2 x (hI.perm.subset hx) e (List.mem_singleton_self e)
  have hdone : e :: scan t ~ done ++ [e] :=
    (hI.perm.cons e).trans (List.perm_append_singleton e done).symm
  rcases hI.mode with ⟨hh, hw, hdb⟩ | hbt
  · -- a hash table: the find misses, and the row is added
    have hscan : scan t = t.tempHashTbl.objs := by simp [scan, hh]
    rw [hscan] at hne hdone
    have hmiss := Plhash.hashFind_fst_eq_none hw tempHashfns_lawful hne
    obtain ⟨hw', hadd⟩ := Plhash.hashAdd_spec (hw.hashFind e.key) e
    have hperm := hadd.trans (((Plhash.hashFind_snd_objs _ _ _).cons e).trans hdone)
    rcases bdbTempTablePut_hash e.key e.dta hh hmiss with h | h <;> rw [h]
    · exact ⟨hI.cmpfunc, hI.lawful, .inl ⟨hh, hw', hdb⟩, hI.asc, by simpa [scan, hh] using hperm⟩
    · -- the spill copies the rows of the hash table into the empty btree
      have hd := (hu.perm hperm.symm fun h => Ne.symm h).imp fun {a b} hab => by
        show keyMemcmp b.key a.key ≠ .eq
        rw [Ne, keyMemcmp_eq_eq_iff]
        exact Ne.symm hab
      obtain ⟨hasc, hcopy⟩ := hI.lawful.foldl_new (totalOn_keyMemcmp _) hd (by simp) List.Pairwise.nil
      refine ⟨hI.cmpfunc, hI.lawful, .inr rfl, ?_, ?_⟩ <;>
        simp only [scan, bdbHashTableCopyToTempDb, hdb, hI.cmpfunc]
      · exact hasc
      · exact hcopy.trans (by simpa using hperm)
  · -- a btree: the row goes to the btree
    have hscan : scan t = t.tmpdb := by simp [scan, hbt]
    rw [hscan] at hne hdone
    have hnew : ∀ x ∈ t.tmpdb, keyMemcmp e.key x.key ≠ .eq := fun x hx => by
      rw [Ne, keyMemcmp_eq_eq_iff]
      exact (hne x hx).symm
    obtain ⟨hasc, hperm⟩ := hI.lawful.put_new (totalOn_keyMemcmp _) hI.asc hnew
    rw [bdbTempTablePut_btree e.key e.dta hbt]
    refine ⟨hI.cmpfunc, hI.lawful, .inr hbt, ?_, ?_⟩ <;> simp only [scan, hbt, hI.cmpfunc]
    · exact hasc
    · exact hperm.trans hdone

/-- A run of puts of rows of distinct keys keeps the invariant. -/
theorem HashInv.putAll (hu : Plhash.UniqueKeys tempHashfns rows) :
    ∀ (rest : List ArrElem) {t : TempTable} {done : List ArrElem}, done ++ rest = rows →
      HashInv t done → HashInv (putAll t rest) rows
  | [], t, done, hrows, hI => by
    rw [List.append_nil] at hrows
    exact hrows ▸ hI
  | e :: rest, t, done, hrows, hI => by
    have hsub : done ++ [e] <+ rows :=
      hrows ▸ List.Sublist.append_left (List.singleton_sublist.2 List.mem_cons_self) done
    exact HashInv.putAll hu rest (by simpa using hrows) (hI.put (hu.sublist hsub))

/-- Rows of distinct keys put into a hash table are all in it, whether it
spilled or not: the scan returns each of them once. -/
theorem scan_putAll_hash {put : BtPut} (hbt : put.Lawful) (temptableMemThreshold temptableCachesz : ℕ)
    (hu : Plhash.UniqueKeys tempHashfns rows) :
    scan (putAll (bdbTempHashtableCreate put temptableMemThreshold temptableCachesz) rows) ~ rows := by
  have h0 : HashInv (bdbTempHashtableCreate put temptableMemThreshold temptableCachesz) [] :=
    ⟨rfl, hbt, .inl ⟨rfl, Plhash.hashInit_wf tempHashfns, rfl⟩, List.Pairwise.nil, List.Perm.refl _⟩
  exact (HashInv.putAll hu rows (List.nil_append rows) h0).perm

theorem scan_putAll_hash_twoKeys :
    BtPut.Lawful btPutSorted ∧ Plhash.UniqueKeys tempHashfns [⟨[2], [0xc]⟩, ⟨[1], [0xa]⟩] ∧
      scan (putAll (bdbTempHashtableCreate btPutSorted 1 0) [⟨[2], [0xc]⟩, ⟨[1], [0xa]⟩]) ~
        [⟨[2], [0xc]⟩, ⟨[1], [0xa]⟩] :=
  ⟨lawful_btPutSorted, by decide, scan_putAll_hash lawful_btPutSorted 1 0 (by decide)⟩

end Distinct

/-! ## What a spill changes -/

/-- Two rows of key `[1]`. -/
def oneKeyTwice : List ArrElem := [⟨[1], [0xa]⟩, ⟨[1], [0xb]⟩]

/-- Two keys, then the first key again. -/
def firstKeyAgain : List ArrElem := [⟨[1], [0xa]⟩, ⟨[2], [0xc]⟩, ⟨[1], [0xb]⟩]

/-- The array runs of `oneKeyTwice`: with `max_mem_entries` 2 the second row
fills the array, and the copy puts both rows into the btree; with 3 nothing
spills. -/
theorem scan_putAll_oneKeyTwice (put : BtPut) :
    scan (putAll (bdbTempArrayCreate put 2 0) oneKeyTwice) =
        put keyMemcmp ⟨[1], [0xb]⟩ (put keyMemcmp ⟨[1], [0xa]⟩ []) ∧
      scan (putAll (bdbTempArrayCreate put 3 0) oneKeyTwice) = oneKeyTwice := by
  have hk : keyMemcmp [1] [1] = .eq := by decide
  constructor <;>
    simp [putAll, oneKeyTwice, bdbTempTablePut_array_keep, bdbTempTablePut_array_spill,
      bdbTempArrayCreate, bdbTempTableCreateType, scan, bdbArrayCopyToTempDb, arrayInsertPos, searchLoop, hk]

/-- The hash runs of `firstKeyAgain`: with `max_mem_entries` 1 the second row
spills the hash table, the copy puts its rows into the btree in bucket order,
and the third row goes to the btree too; with 3 the third put finds its key
and is dropped. -/
theorem scan_putAll_firstKeyAgain (put : BtPut) :
    scan (putAll (bdbTempHashtableCreate put 1 0) firstKeyAgain) =
        put keyMemcmp ⟨[1], [0xb]⟩ (put keyMemcmp ⟨[2], [0xc]⟩ (put keyMemcmp ⟨[1], [0xa]⟩ [])) ∧
      scan (putAll (bdbTempHashtableCreate put 3 0) firstKeyAgain) = [⟨[1], [0xa]⟩, ⟨[2], [0xc]⟩] := by
  -- the hash table after the first two rows, and a find of `[1]` in it
  have hf₁ : (Plhash.hashFind tempHashfns Plhash.hashInit [1]).1 = none := by decide +kernel
  have hf₂ : (Plhash.hashFind tempHashfns (Plhash.hashAdd tempHashfns
      (Plhash.hashFind tempHashfns Plhash.hashInit [1]).2 ⟨[1], [0xa]⟩) [2]).1 = none := by
    decide +kernel
  have ho₂ : (Plhash.hashAdd tempHashfns (Plhash.hashFind tempHashfns (Plhash.hashAdd tempHashfns
      (Plhash.hashFind tempHashfns Plhash.hashInit [1]).2 ⟨[1], [0xa]⟩) [2]).2 ⟨[2], [0xc]⟩).objs =
      [⟨[1], [0xa]⟩, ⟨[2], [0xc]⟩] := by
    decide +kernel
  have hf₃ : (Plhash.hashFind tempHashfns (Plhash.hashAdd tempHashfns (Plhash.hashFind tempHashfns
      (Plhash.hashAdd tempHashfns (Plhash.hashFind tempHashfns Plhash.hashInit [1]).2 ⟨[1], [0xa]⟩) [2]).2
      ⟨[2], [0xc]⟩) [1]).1 = some ⟨[1], [0xa]⟩ := by
    decide +kernel
  have ho₃ : (Plhash.hashFind tempHashfns (Plhash.hashAdd tempHashfns (Plhash.hashFind tempHashfns
      (Plhash.hashAdd tempHashfns (Plhash.hashFind tempHashfns Plhash.hashInit [1]).2 ⟨[1], [0xa]⟩) [2]).2
      ⟨[2], [0xc]⟩) [1]).2.objs = [⟨[1], [0xa]⟩, ⟨[2], [0xc]⟩] := by
    decide +kernel
  constructor
  · simp [putAll, firstKeyAgain, bdbTempTablePut_hash_keep, bdbTempTablePut_hash_spill,
      bdbTempTablePut_btree, bdbHashTableCopyToTempDb, bdbTempHashtableCreate, bdbTempTableCreateType,
      scan, hf₁, hf₂, ho₂]
  · simp [putAll, firstKeyAgain, bdbTempTablePut_hash_keep, bdbTempTablePut_hash_dup,
      bdbTempHashtableCreate, bdbTempTableCreateType, scan, hf₁, hf₂, hf₃, ho₃]

theorem tempTable_spill_changes_rows {put : BtPut} (hbt : put.Lawful) :
    scan (putAll (bdbTempArrayCreate put 2 0) oneKeyTwice) = [⟨[1], [0xb]⟩] ∧
      scan (putAll (bdbTempArrayCreate put 3 0) oneKeyTwice) = oneKeyTwice ∧
      scan (putAll (bdbTempHashtableCreate put 1 0) firstKeyAgain) = [⟨[1], [0xb]⟩, ⟨[2], [0xc]⟩] ∧
      scan (putAll (bdbTempHashtableCreate put 3 0) firstKeyAgain) = [⟨[1], [0xa]⟩, ⟨[2], [0xc]⟩] := by
  obtain ⟨harr₂, harr₃⟩ := scan_putAll_oneKeyTwice put
  obtain ⟨hhash₁, hhash₃⟩ := scan_putAll_firstKeyAgain put
  -- what the btree makes of the puts the spills hand it
  have hfirst : put keyMemcmp ⟨[1], [0xa]⟩ [] = [⟨[1], [0xa]⟩] :=
    hbt.put_new_eq (totalOn_keyMemcmp _) List.Pairwise.nil (by simp) (by decide) (List.Perm.refl _)
  have hsecond : put keyMemcmp ⟨[2], [0xc]⟩ [⟨[1], [0xa]⟩] = [⟨[1], [0xa]⟩, ⟨[2], [0xc]⟩] :=
    hbt.put_new_eq (totalOn_keyMemcmp _) (by decide) (by decide) (by decide) (List.Perm.swap _ _ _)
  have hreplace (B : List ArrElem) (hasc : Ascending keyMemcmp (⟨[1], [0xa]⟩ :: B)) :
      put keyMemcmp ⟨[1], [0xb]⟩ (⟨[1], [0xa]⟩ :: B) = ⟨[1], [0xb]⟩ :: B :=
    hbt.put_eq (A := []) (totalOn_keyMemcmp _) hasc (by decide)
  refine ⟨?_, harr₃, ?_, hhash₃⟩
  · rw [harr₂, hfirst, hreplace [] (by decide)]
  · rw [hhash₁, hfirst, hsecond, hreplace _ (by decide)]

theorem tempTable_spill_changes_rows_sorted :
    BtPut.Lawful btPutSorted ∧
      scan (putAll (bdbTempArrayCreate btPutSorted 2 0) oneKeyTwice) = [⟨[1], [0xb]⟩] ∧
      scan (putAll (bdbTempArrayCreate btPutSorted 3 0) oneKeyTwice) = oneKeyTwice ∧
      scan (putAll (bdbTempHashtableCreate btPutSorted 1 0) firstKeyAgain) =
        [⟨[1], [0xb]⟩, ⟨[2], [0xc]⟩] ∧
      scan (putAll (bdbTempHashtableCreate btPutSorted 3 0) firstKeyAgain) =
        [⟨[1], [0xa]⟩, ⟨[2], [0xc]⟩] :=
  ⟨lawful_btPutSorted, tempTable_spill_changes_rows lawful_btPutSorted⟩

end Temptable
