import Comdb2.Db.Osqlblockproc
import Comdb2.Lib.Chunks
import Comdb2.Lib.Qsort

/-!
# Replaying the reordered bplog

With reordering on, the block processor replays a transaction by scanning the
two temp tables of its bplog in key order.  The non-reorder protocol sends the
dependent requests of a record before the record itself; reordering has to
give the replay the same grouping although the shadow tables send each record
first.  This module proves that it does, for the streams of
`process_local_shadtbl_add` and `process_local_shadtbl_upd` (`Produced`).

*Keys by their fields.*  A key's rank is its group, the key without its
arrival number, then that number (`OplogKey.rankBy_eq`); equal groups have
equal fields (`OplogKey.groupBy_inj`).  A stored genid is fixed by its stripe
and what `bdb_cmp_genids` reads of it (`eq_of_stripeOf_eq`), so in the main
table the group of a row names the table and the genid of its record.

*Tags.*  Every row the stream leaves is an `OSQL_USEDB` row or is keyed under
the tag, table and genid, of one record (`Intended.Extends`).  The tags of the
updates are the stream's `updatedRows`; those of the inserts are the counters
`1, 2, ...` (`Intended.Counted`).  Each request leaves one row with its arrival
number (`entries_intendedRows`).

*Blocks.*  A record request and the dependent requests after it are one block
of one segment (`exists_block_of_split`).  In the table of the block, its
dependents' rows are all the rows of their group and its record's row all the
rows of the next group, so the scan has them side by side (`scan_block`).

`saveOps_reorder_groups` puts these together: every request of a produced
stream is saved, each once with its arrival number, and the replay meets each
record's dependents, in arrival order, right before the record.
-/

namespace Osql

open Temptable Bdb

/-! ## Keys by their fields -/

section Keys

variable {gk : Genid → ℕ} {w : ℕ}

/-- The stripe of a genid as a number: the low nibble of a stored genid, and
`-1` or `-2` cut to a byte for a synthetic one. -/
theorem stripeOf_toNat (g : Genid) :
    (stripeOf g).toNat = if isGenidAdd g then 255 else if isGenidUpd g then 254 else g.toNat % 16 := by
  unfold stripeOf getDtafileFromGenid
  split_ifs
  · decide
  · decide
  · have hmask : (g &&& genidStripeMask).toNat = g.toNat % 2 ^ 4 := by
      simpa [genidStripeMask, UInt64.toNat_and] using Nat.and_two_pow_sub_one_eq_mod g.toNat 4
    have hint : (((g.toNat % 2 ^ 4 : ℕ) : ℤ) % 2 ^ 8).toNat = g.toNat % 16 := by omega
    rw [hmask, UInt8.ofInt, hint, UInt8.toNat_ofNat']
    omega

/-- A stored genid is fixed by its stripe and by what `bdb_cmp_genids` reads. -/
theorem eq_of_stripeOf_eq {g g' : Genid} (hadd : isGenidAdd g = false) (hupd : isGenidUpd g = false)
    (hs : stripeOf g = stripeOf g') (hk : genidKey g = genidKey g') : g = g' := by
  have h := congrArg UInt8.toNat hs
  have hlt : g.toNat % 16 < 16 := Nat.mod_lt _ (by norm_num)
  rw [stripeOf_toNat, stripeOf_toNat] at h
  simp only [hadd, hupd, Bool.false_eq_true, if_false] at h
  unfold genidKey at hk
  -- a synthetic genid's stripe is no stripe of a stored one
  split_ifs at h
  · omega
  · omega
  · exact UInt64.toNat_inj.1 (by omega)

/-- A key without its arrival number, as one number. -/
def OplogKey.groupBy (gk : Genid → ℕ) (w : ℕ) (k : OplogKey) : ℕ :=
  ((k.tblIdx.toNat * 2 ^ 8 + k.stripe.toNat) * 2 ^ w + gk k.genid) * 2 ^ 8 + k.isRec.toNat

theorem OplogKey.rankBy_eq (k : OplogKey) : k.rankBy gk w = k.groupBy gk w * 2 ^ 32 + k.seq.toNat :=
  rfl

/-- Keys of one group agree on every field but the arrival number. -/
theorem OplogKey.groupBy_inj (hgk : ∀ g, gk g < 2 ^ w) {k k' : OplogKey}
    (h : k.groupBy gk w = k'.groupBy gk w) :
    k.tblIdx = k'.tblIdx ∧ k.stripe = k'.stripe ∧ gk k.genid = gk k'.genid ∧ k.isRec = k'.isRec := by
  have hc : compare (k.groupBy gk w) (k'.groupBy gk w) = .eq := compare_eq_iff_eq.2 h
  rw [OplogKey.groupBy, OplogKey.groupBy, Bytes.compare_mul_add k.isRec.toNat_lt k'.isRec.toNat_lt,
    Bytes.compare_mul_add (hgk _) (hgk _), Bytes.compare_mul_add k.stripe.toNat_lt k'.stripe.toNat_lt] at hc
  simp only [Ordering.then_eq_eq, compare_eq_iff_eq] at hc
  obtain ⟨⟨⟨ht, hs⟩, hg⟩, hi⟩ := hc
  exact ⟨UInt16.toNat_inj.1 ht, UInt8.toNat_inj.1 hs, hg, UInt8.toNat_inj.1 hi⟩

/-- The record's key is in the group right above its dependents'. -/
theorem groupBy_blockKey_one (t : UInt16) (g : Genid) (j j' : ℕ) :
    (blockKey t g 1 j).groupBy gk w = (blockKey t g 0 j').groupBy gk w + 1 := by
  simp [OplogKey.groupBy, blockKey]

end Keys

/-! ## The scan of one table -/

section Scan

variable {cmp : TmptblCmp} {gk : Genid → ℕ} {w : ℕ}

theorem seq_eq_of_rankBy_eq {k k' : OplogKey} (h : k.rankBy gk w = k'.rankBy gk w) : k.seq = k'.seq := by
  have hs := k.seq.toNat_lt
  have hs' := k'.seq.toNat_lt
  rw [OplogKey.rankBy_eq, OplogKey.rankBy_eq] at h
  exact UInt32.toNat_inj.1 (by omega)

variable (hcmp : ∀ k1 k2, cmp k1 k2 =
  compare ((OplogKey.ofBytes k1).rankBy gk w) ((OplogKey.ofBytes k2).rankBy gk w))
  {put : BtPut} (hbt : put.Lawful)
include hcmp hbt

/-- An array table whose comparator orders keys by `rankBy gk w`, given rows of
distinct arrival numbers, scans as those rows in ascending rank. -/
theorem scan_putAll_of_seq (temptableMemThreshold temptableCachesz : ℕ) {rows : List ArrElem}
    (hseq : rows.Pairwise fun a b => (OplogKey.ofBytes a.key).seq ≠ (OplogKey.ofBytes b.key).seq) :
    (scan (putAll (bdbTempTableSetCmpFunc
      (bdbTempArrayCreate put temptableMemThreshold temptableCachesz) (some cmp)) rows)).Perm rows ∧
    (scan (putAll (bdbTempTableSetCmpFunc
      (bdbTempArrayCreate put temptableMemThreshold temptableCachesz) (some cmp)) rows)).Pairwise fun a b =>
        (OplogKey.ofBytes a.key).rankBy gk w < (OplogKey.ofBytes b.key).rankBy gk w := by
  have hkc : keyCmp cmp = fun a b =>
      compare ((OplogKey.ofBytes a.key).rankBy gk w) ((OplogKey.ofBytes b.key).rankBy gk w) := by
    funext a b
    exact hcmp a.key b.key
  have htot : Qsort.TotalOn (keyCmp cmp) rows := hkc ▸ Qsort.totalOn_compare _ rows
  -- distinct arrival numbers make distinct keys
  have hdist : rows.Pairwise fun a b => cmp a.key b.key ≠ .eq :=
    hseq.imp fun hne heq => hne (seq_eq_of_rankBy_eq (compare_eq_iff_eq.1 ((hcmp _ _).symm.trans heq)))
  obtain ⟨hperm, hasc⟩ := scan_putAll_array htot hbt temptableMemThreshold temptableCachesz hdist
  refine ⟨hperm, hasc.imp fun h => ?_⟩
  rw [hcmp, compare_lt_iff_lt] at h
  exact h

/-- Moreover a run `Drows` of one group stands right before the row `r` of the
next group, when `Drows` is all of its group among the rows and `r` all of the
next. -/
theorem scan_block (temptableMemThreshold temptableCachesz : ℕ) {rows Drows : List ArrElem} {r : ArrElem}
    {G0 : ℕ}
    (hseq : rows.Pairwise fun a b => (OplogKey.ofBytes a.key).seq ≠ (OplogKey.ofBytes b.key).seq)
    (hD : Drows.Pairwise fun a b => (OplogKey.ofBytes a.key).seq.toNat < (OplogKey.ofBytes b.key).seq.toNat)
    (hDrows : ∀ d ∈ Drows, d ∈ rows) (hDG : ∀ d ∈ Drows, (OplogKey.ofBytes d.key).groupBy gk w = G0)
    (hr : r ∈ rows) (hrG : (OplogKey.ofBytes r.key).groupBy gk w = G0 + 1)
    (hclass : ∀ x ∈ rows, (OplogKey.ofBytes x.key).groupBy gk w = G0 → x ∈ Drows)
    (hclass' : ∀ x ∈ rows, (OplogKey.ofBytes x.key).groupBy gk w = G0 + 1 → x = r) :
    ∃ pre post, scan (putAll (bdbTempTableSetCmpFunc
      (bdbTempArrayCreate put temptableMemThreshold temptableCachesz) (some cmp)) rows) = pre ++ Drows ++ r :: post := by
  obtain ⟨hperm, hasc⟩ := scan_putAll_of_seq hcmp hbt temptableMemThreshold temptableCachesz hseq
  have hmem : ∀ x, x ∈ scan (putAll (bdbTempTableSetCmpFunc
      (bdbTempArrayCreate put temptableMemThreshold temptableCachesz) (some cmp)) rows) ↔ x ∈ rows :=
    fun x => hperm.mem_iff
  -- a rank is the group, then the arrival number below `2 ^ 32`
  exact @Qsort.exists_eq_append_block_of_class ArrElem (fun x => (OplogKey.ofBytes x.key).groupBy gk w)
    (fun x => (OplogKey.ofBytes x.key).seq.toNat) (2 ^ 32) G0 _ Drows r (fun x _ => UInt32.toNat_lt _)
    hasc hD (fun d hd => (hmem d).2 (hDrows d hd)) hDG ((hmem r).2 hr) hrG
    (fun x hx => hclass x ((hmem x).1 hx)) (fun x hx => hclass' x ((hmem x).1 hx))

end Scan

/-! ## The rows a stream leaves, by tag -/

section Tags

variable {env : Env}

/-- A row of the main table: an `OSQL_USEDB`'s, or one keyed under the table
and genid of a record among `tags`. -/
def MainRow (tags : List (UInt16 × Genid)) (x : ArrElem) : Prop :=
  (∃ t j, x.key = (usedbKey t j).bytes) ∨ ∃ p ∈ tags, ∃ i j, x.key = (blockKey p.1 p.2 i j).bytes

/-- A row of the insert table: one keyed under the table and insert counter of
an insert among `tags`. -/
def InsRow (tags : List (UInt16 × ℕ)) (x : ArrElem) : Prop :=
  ∃ p ∈ tags, ∃ i j, x.key = (blockKey p.1 (UInt64.ofNat p.2) i j).bytes

theorem MainRow.mono {tags tags' : List (UInt16 × Genid)} {x : ArrElem} (h : ∀ p ∈ tags, p ∈ tags') :
    MainRow tags x → MainRow tags' x
  | .inl hu => .inl hu
  | .inr ⟨p, hp, hk⟩ => .inr ⟨p, h p hp, hk⟩

theorem InsRow.mono {tags tags' : List (UInt16 × ℕ)} {x : ArrElem} (h : ∀ p ∈ tags, p ∈ tags') :
    InsRow tags x → InsRow tags' x
  | ⟨p, hp, hk⟩ => ⟨p, h p hp, hk⟩

/-- `I'` follows `I`: each table and each list of tags only grew, and every
row added is keyed under a tag added. -/
structure Intended.Extends (I I' : Intended) : Prop where
  main : ∃ X Y, I'.main = I.main ++ X ∧ I'.mainTags = I.mainTags ++ Y ∧ ∀ x ∈ X, MainRow Y x
  ins : ∃ X Y, I'.ins = I.ins ++ X ∧ I'.insTags = I.insTags ++ Y ∧ ∀ x ∈ X, InsRow Y x

theorem Intended.Extends.refl (I : Intended) : I.Extends I :=
  ⟨⟨[], [], by simp, by simp, by simp⟩, ⟨[], [], by simp, by simp, by simp⟩⟩

theorem Intended.Extends.trans {I₁ I₂ I₃ : Intended} (h₁ : I₁.Extends I₂) (h₂ : I₂.Extends I₃) :
    I₁.Extends I₃ := by
  obtain ⟨⟨X₁, Y₁, hm₁, ht₁, hx₁⟩, ⟨Z₁, W₁, hi₁, hu₁, hz₁⟩⟩ := h₁
  obtain ⟨⟨X₂, Y₂, hm₂, ht₂, hx₂⟩, ⟨Z₂, W₂, hi₂, hu₂, hz₂⟩⟩ := h₂
  refine ⟨⟨X₁ ++ X₂, Y₁ ++ Y₂, by simp [hm₂, hm₁], by simp [ht₂, ht₁], ?_⟩,
    ⟨Z₁ ++ Z₂, W₁ ++ W₂, by simp [hi₂, hi₁], by simp [hu₂, hu₁], ?_⟩⟩
  · intro x hx
    rcases List.mem_append.1 hx with h | h
    · exact (hx₁ x h).mono fun p hp => List.mem_append_left _ hp
    · exact (hx₂ x h).mono fun p hp => List.mem_append_right _ hp
  · intro x hx
    rcases List.mem_append.1 hx with h | h
    · exact (hz₁ x h).mono fun p hp => List.mem_append_left _ hp
    · exact (hz₂ x h).mono fun p hp => List.mem_append_right _ hp

/-- A fold of steps each of which extends extends. -/
theorem Intended.Extends.foldl {β : Type*} {f : Intended → β → Intended}
    (hf : ∀ (I : Intended) b, I.Extends (f I b)) :
    ∀ (l : List β) (I : Intended), I.Extends (l.foldl f I)
  | [], I => Extends.refl I
  | b :: l, I => (hf I b).trans (Extends.foldl hf l (f I b))

theorem mem_depRows {t : UInt16} {g : Genid} {x : ArrElem} :
    ∀ {j : ℕ} {ds : List Op}, x ∈ depRows t g j ds → ∃ j', x.key = (blockKey t g 0 j').bytes
  | _, [], h => by simp [depRows] at h
  | j, d :: ds, h => by
    rcases List.mem_cons.1 h with rfl | h
    · exact ⟨j, rfl⟩
    · exact mem_depRows h

theorem mem_rows {b : Block} {t : UInt16} {n j : ℕ} {x : ArrElem} (h : x ∈ b.rows t n j) :
    ∃ i j', x.key = (blockKey t (b.genid n) i j').bytes := by
  rcases List.mem_cons.1 h with rfl | h
  · exact ⟨1, j, rfl⟩
  · obtain ⟨j', hj'⟩ := mem_depRows h
    exact ⟨0, j', hj'⟩

/-- A block's rows are keyed under its tag: the next insert counter for an
insert, the genid its record carries for an update. -/
theorem Intended.extends_block (t : UInt16) (I : Intended) (b : Block) : I.Extends (I.block t b) := by
  unfold Intended.block
  split_ifs with h
  · refine ⟨⟨[], [], by simp, by simp, by simp⟩, ⟨b.rows t I.insSeq I.seq, [(t, I.insSeq + 1)], rfl, rfl, ?_⟩⟩
    intro x hx
    obtain ⟨i, j, hk⟩ := mem_rows hx
    exact ⟨(t, I.insSeq + 1), List.mem_singleton_self _, i, j, by simpa [Block.genid, h] using hk⟩
  · refine ⟨⟨b.rows t I.insSeq I.seq, [(t, genidFromRpl b.record.rpl)], rfl, rfl, ?_⟩,
      ⟨[], [], by simp, by simp, by simp⟩⟩
    intro x hx
    obtain ⟨i, j, hk⟩ := mem_rows hx
    exact .inr ⟨_, List.mem_singleton_self _, i, j, by simpa [Block.genid, h] using hk⟩

theorem Intended.extends_useTable (I : Intended) (s : Segment) : I.Extends (I.useTable env s) :=
  ⟨⟨_, [], rfl, by simp [Intended.useTable], by simp [MainRow]; exact ⟨_, _, rfl⟩⟩,
    ⟨[], [], by simp [Intended.useTable], by simp [Intended.useTable], by simp⟩⟩

theorem Intended.extends_segment (I : Intended) (s : Segment) : I.Extends (I.segment env s) :=
  (I.extends_useTable s).trans (Extends.foldl (Intended.extends_block _) _ _)

end Tags

/-! ## Counting: arrival numbers, update tags, insert counters -/

section Counting

variable {env : Env}

theorem Intended.seq_block (t : UInt16) (I : Intended) (b : Block) :
    (I.block t b).seq = I.seq + b.ops.length := by
  unfold Intended.block
  split_ifs <;> rfl

theorem Intended.seq_foldl_block (t : UInt16) :
    ∀ (bs : List Block) (I : Intended), (bs.foldl (Intended.block t) I).seq = I.seq + (bs.flatMap Block.ops).length
  | [], I => rfl
  | b :: bs, I => by
    rw [List.foldl_cons, Intended.seq_foldl_block t bs, Intended.seq_block, List.flatMap_cons,
      List.length_append, Nat.add_assoc]

theorem Intended.seq_foldl_segment :
    ∀ (segs : List Segment) (I : Intended), (segs.foldl (Intended.segment env) I).seq = I.seq + (stream segs).length
  | [], I => rfl
  | s :: segs, I => by
    rw [List.foldl_cons, Intended.seq_foldl_segment segs, Intended.segment, Intended.seq_foldl_block]
    simp only [Intended.useTable, stream, List.flatMap_cons, Segment.ops, List.length_append,
      List.length_cons]
    omega

/-- Under `Block.Shape`, a block that is not an insert is an update. -/
theorem Block.Shape.not_insrec {b : Block} (hb : b.Shape) : b.record.type ≠ .insrec ↔ b.record.type = .updrec := by
  rcases hb.record with h | h <;> simp [h]

theorem Intended.mainTags_foldl_block (t : UInt16) :
    ∀ {bs : List Block} (I : Intended), (∀ b ∈ bs, b.Shape) →
      (bs.foldl (Intended.block t) I).mainTags =
        I.mainTags ++ (bs.filter fun b => b.record.type = .updrec).map fun b => (t, genidFromRpl b.record.rpl)
  | [], I, _ => by simp
  | b :: bs, I, hb => by
    have hb₀ := hb b List.mem_cons_self
    rw [List.foldl_cons, Intended.mainTags_foldl_block t _ fun b' h => hb b' (List.mem_cons_of_mem b h)]
    unfold Intended.block
    by_cases h : b.record.type = .insrec
    · simp [h]
    · simp [hb₀.not_insrec.1 h]

/-- The tags of the main table are the rows the stream updates. -/
theorem Intended.mainTags_foldl_segment :
    ∀ {segs : List Segment} (I : Intended), (∀ s ∈ segs, s.Shape env) →
      (segs.foldl (Intended.segment env) I).mainTags = I.mainTags ++ updatedRows env segs
  | [], I, _ => by simp [updatedRows]
  | s :: segs, I, hs => by
    rw [List.foldl_cons, Intended.mainTags_foldl_segment _ fun s' h => hs s' (List.mem_cons_of_mem s h),
      Intended.segment, Intended.mainTags_foldl_block _ _ (hs s List.mem_cons_self).blocks]
    simp [updatedRows, Intended.useTable]

/-- The inserts so far are counted: their counters are `1, ..., insSeq`, and
there are no more of them than requests. -/
structure Intended.Counted (I : Intended) : Prop where
  tags : I.insTags.map Prod.snd = List.range' 1 I.insSeq
  le : I.insSeq ≤ I.seq

theorem Intended.Counted.block (t : UInt16) {I : Intended} (hI : I.Counted) (b : Block) :
    (I.block t b).Counted := by
  unfold Intended.block
  split_ifs
  · refine ⟨?_, ?_⟩
    · simp [hI.tags, List.range'_1_concat, Nat.add_comm 1]
    · have := hI.le
      simp [Block.ops]
      omega
  · exact ⟨hI.tags, by have := hI.le; simp; omega⟩

theorem Intended.Counted.foldl_block (t : UInt16) :
    ∀ (bs : List Block) {I : Intended}, I.Counted → (bs.foldl (Intended.block t) I).Counted
  | [], _, hI => hI
  | b :: bs, _, hI => Counted.foldl_block t bs (hI.block t b)

theorem Intended.Counted.foldl_segment :
    ∀ (segs : List Segment) {I : Intended}, I.Counted → (segs.foldl (Intended.segment env) I).Counted
  | [], _, hI => hI
  | s :: segs, I, hI => by
    have huse : (I.useTable env s).Counted :=
      ⟨hI.tags, by have := hI.le; simp only [Intended.useTable]; omega⟩
    exact Counted.foldl_segment segs (Counted.foldl_block _ s.blocks huse)

end Counting

/-! ## Every request leaves one row -/

section Entries

variable {env : Env}

/-- What a replay reads of a row: its arrival number and its payload. -/
def rowEntry (x : ArrElem) : ℕ × List UInt8 := ((OplogKey.ofBytes x.key).seq.toNat, x.dta)

/-- The entries the requests should leave from arrival number `j` on, the
number cut to the key's 32 bits. -/
def opEntries (ops : List Op) (j : ℕ) : List (ℕ × List UInt8) :=
  (ops.zipIdx j).map fun p => (p.2 % 2 ^ 32, p.1.rpl)

/-- The entries of the rows `I` says. -/
def Intended.entries (I : Intended) : List (ℕ × List UInt8) := (I.main ++ I.ins).map rowEntry

@[simp] theorem rowEntry_mk (k : OplogKey) (rpl : List UInt8) :
    rowEntry ⟨k.bytes, rpl⟩ = (k.seq.toNat, rpl) := by
  simp [rowEntry]

theorem opEntries_append (l₁ l₂ : List Op) (j : ℕ) :
    opEntries (l₁ ++ l₂) j = opEntries l₁ j ++ opEntries l₂ (j + l₁.length) := by
  simp [opEntries, List.zipIdx_append]

theorem map_rowEntry_depRows (t : UInt16) (g : Genid) :
    ∀ (j : ℕ) (ds : List Op), (depRows t g j ds).map rowEntry = opEntries ds j
  | _, [] => rfl
  | j, d :: ds => by
    rw [depRows, List.map_cons, map_rowEntry_depRows t g (j + 1) ds]
    simp [opEntries, blockKey, UInt32.toNat_ofNat']

theorem map_rowEntry_rows (b : Block) (t : UInt16) (n j : ℕ) :
    (b.rows t n j).map rowEntry = opEntries b.ops j := by
  rw [Block.rows, List.map_cons, map_rowEntry_depRows]
  simp [opEntries, Block.ops, blockKey, UInt32.toNat_ofNat']

/-- A block leaves the entries of its requests, in whichever table. -/
theorem Intended.entries_block (t : UInt16) (I : Intended) (b : Block) :
    (I.block t b).entries.Perm (I.entries ++ opEntries b.ops I.seq) := by
  unfold Intended.block Intended.entries
  split_ifs
  · simp [map_rowEntry_rows]
  · simp only [List.map_append, map_rowEntry_rows, List.append_assoc]
    exact List.perm_append_comm.append_left _

theorem Intended.entries_foldl_block (t : UInt16) :
    ∀ (bs : List Block) (I : Intended),
      (bs.foldl (Intended.block t) I).entries.Perm (I.entries ++ opEntries (bs.flatMap Block.ops) I.seq)
  | [], I => by simp [opEntries]
  | b :: bs, I => by
    rw [List.foldl_cons, List.flatMap_cons, opEntries_append, ← List.append_assoc, ← Intended.seq_block]
    exact (Intended.entries_foldl_block t bs _).trans ((Intended.entries_block t I b).append_right _)

/-- A stream leaves the entries of its requests. -/
theorem Intended.entries_foldl_segment :
    ∀ (segs : List Segment) (I : Intended),
      (segs.foldl (Intended.segment env) I).entries.Perm (I.entries ++ opEntries (stream segs) I.seq)
  | [], I => by simp [opEntries, stream]
  | s :: segs, I => by
    have huse : (I.useTable env s).entries.Perm (I.entries ++ opEntries [s.usedb] I.seq) := by
      simp only [Intended.useTable, Intended.entries, List.map_append]
      simp only [List.append_assoc]
      refine List.perm_append_comm.append_left _ |>.trans ?_
      simp [opEntries, usedbKey, UInt32.toNat_ofNat']
    have hseg := (Intended.entries_foldl_block (s.tblIdx env) s.blocks (I.useTable env s)).trans
      (huse.append_right _)
    have hseq : (I.useTable env s).seq = I.seq + 1 := rfl
    -- the stream of the segments is the `OSQL_USEDB`, the blocks, then the rest
    have hlist : opEntries (stream (s :: segs)) I.seq = opEntries [s.usedb] I.seq ++
        opEntries (s.blocks.flatMap Block.ops) (I.seq + 1) ++
        opEntries (stream segs) (I.seq + 1 + (s.blocks.flatMap Block.ops).length) := by
      rw [show stream (s :: segs) = [s.usedb] ++ s.blocks.flatMap Block.ops ++ stream segs by
        simp [stream, Segment.ops], opEntries_append, opEntries_append]
      simp only [List.length_append, List.length_singleton, Nat.add_assoc]
    rw [hseq] at hseg
    rw [List.foldl_cons]
    refine (Intended.entries_foldl_segment segs _).trans ?_
    rw [Intended.segment, Intended.seq_foldl_block, hseq, hlist]
    simpa only [List.append_assoc] using hseg.append_right _

end Entries

/-! ## A record request and its dependents are one block -/

section Split

variable {env : Env}

theorem isDependent_of_record {op : Op} (h : op.type = .insrec ∨ op.type = .updrec) :
    isDependent op.type = false := by
  rcases h with h | h <;> simp [h, isDependent]

/-- What follows a block in a stream starts with a record or an `OSQL_USEDB`,
or is empty. -/
theorem head_not_dependent {bs : List Block} {segs : List Segment} (hb : ∀ b ∈ bs, b.Shape)
    (hs : ∀ s ∈ segs, s.Shape env) :
    ∀ op ∈ (bs.flatMap Block.ops ++ stream segs).head?, isDependent op.type = false := by
  intro op hop
  cases bs with
  | cons b bs =>
    simp only [List.flatMap_cons, Block.ops, List.cons_append, List.head?_cons, Option.mem_def,
      Option.some.injEq] at hop
    exact hop ▸ isDependent_of_record (hb b List.mem_cons_self).record
  | nil =>
    cases segs with
    | nil => simp [stream] at hop
    | cons s segs =>
      simp only [List.flatMap_nil, List.nil_append, stream, List.flatMap_cons, Segment.ops,
        List.cons_append, List.head?_cons, Option.mem_def, Option.some.injEq] at hop
      rw [← hop, (hs s List.mem_cons_self).usedb]
      rfl

/-- A record request followed by the longest run of dependent requests is a
whole block of one segment, and what comes before it is the segments before,
the `OSQL_USEDB` and the blocks before. -/
theorem exists_block_of_split {segs : List Segment} (hs : ∀ s ∈ segs, s.Shape env)
    {pre D post : List Op} {R : Op} (h : stream segs = pre ++ R :: D ++ post)
    (hR : R.type = .insrec ∨ R.type = .updrec) (hD : ∀ d ∈ D, isDependent d.type = true)
    (hpost : ∀ op ∈ post.head?, isDependent op.type = false) :
    ∃ (segsA : List Segment) (s : Segment) (segsB : List Segment) (bsA bsB : List Block),
      segs = segsA ++ s :: segsB ∧ s.blocks = bsA ++ ⟨R, D⟩ :: bsB ∧
      pre = stream segsA ++ s.usedb :: bsA.flatMap Block.ops := by
  have h' : segs.flatMap Segment.ops = pre ++ R :: (D ++ post) := by simpa [stream] using h
  obtain ⟨segsA, s, segsB, u, v, rfl, hsu, rfl, hv⟩ := Chunks.flatMap_eq_append_cons Segment.ops h'
  have hsh := hs s (by simp)
  cases u with
  | nil =>
    -- the record is not the `OSQL_USEDB`
    simp only [Segment.ops, List.nil_append, List.cons.injEq] at hsu
    have := hsh.usedb
    rw [hsu.1] at this
    rcases hR with h | h <;> rw [h] at this <;> cases this
  | cons u₀ u =>
    simp only [Segment.ops, List.cons_append, List.cons.injEq] at hsu
    obtain ⟨rfl, hblocks⟩ := hsu
    obtain ⟨bsA, b, bsB, w, v', hbs, hb, rfl, rfl⟩ := Chunks.flatMap_eq_append_cons Block.ops hblocks
    have hbsh := hsh.blocks b (by simp [hbs])
    cases w with
    | cons w₀ w =>
      -- nor a dependent request of a block
      simp only [Block.ops, List.cons_append, List.cons.injEq] at hb
      have := hbsh.deps R (by simp [hb.2])
      rw [isDependent_of_record hR] at this
      cases this
    | nil =>
      simp only [Block.ops, List.nil_append, List.cons.injEq] at hb
      obtain ⟨hrec, hdeps⟩ := hb
      -- the run of dependents after the record stops where the block does
      have hnext : ∀ op ∈ (bsB.flatMap Block.ops ++ stream segsB).head?, isDependent op.type = false :=
        head_not_dependent (fun b' h => hsh.blocks b' (by simp [hbs, h])) (fun s' h => hs s' (by simp [h]))
      have hDeq : D = b.deps := by
        refine Chunks.eq_of_append_of_maximal hD hbsh.deps hpost hnext ?_
        rw [hv, hdeps, List.append_assoc]
        rfl
      refine ⟨segsA, s, segsB, bsA, bsB, rfl, ?_, by simp [stream]⟩
      rw [hbs, hDeq, ← hrec]

end Split

/-! ## The block in its table -/

section Block

variable {cmp : TmptblCmp} {gk : Genid → ℕ} {w : ℕ}

theorem groupBy_blockKey (t : UInt16) (g : Genid) (i : UInt8) (j j' : ℕ) :
    (blockKey t g i j).groupBy gk w = (blockKey t g i j').groupBy gk w := by
  simp [OplogKey.groupBy, blockKey]

/-- Below `2 ^ 32` the arrival numbers of dependents' rows are their own. -/
theorem opEntries_eq_zipIdx {ds : List Op} {j : ℕ} (h : j + ds.length ≤ 2 ^ 32) :
    opEntries ds j = (ds.zipIdx j).map fun q => (q.2, q.1.rpl) := by
  refine List.map_congr_left fun q hq => ?_
  have := List.snd_lt_of_mem_zipIdx hq
  rw [Nat.mod_eq_of_lt (by omega)]

theorem seqs_depRows {t : UInt16} {g : Genid} {j : ℕ} {ds : List Op} (h : j + ds.length ≤ 2 ^ 32) :
    (depRows t g j ds).map (fun x => (OplogKey.ofBytes x.key).seq.toNat) = List.range' j ds.length := by
  have hfst := congrArg (List.map Prod.fst) (map_rowEntry_depRows t g j ds)
  rw [opEntries_eq_zipIdx h, List.map_map, List.map_map] at hfst
  simpa [rowEntry, Function.comp_def, List.zipIdx_map_snd] using hfst

variable (hcmp : ∀ k1 k2, cmp k1 k2 =
  compare ((OplogKey.ofBytes k1).rankBy gk w) ((OplogKey.ofBytes k2).rankBy gk w))
  {put : BtPut} (hbt : put.Lawful)
include hcmp hbt

/-- A block whose rows are the only ones of their two groups in a table scans
as its dependents' entries in arrival order, then its record's. -/
theorem scan_eq_block (temptableMemThreshold temptableCachesz : ℕ) {A X : List ArrElem} {t : UInt16}
    {g : Genid} {rpl : List UInt8} {D : List Op} {p : ℕ}
    (hseq : (A ++ (⟨(blockKey t g 1 p).bytes, rpl⟩ :: depRows t g (p + 1) D) ++ X).Pairwise fun a b =>
      (OplogKey.ofBytes a.key).seq ≠ (OplogKey.ofBytes b.key).seq)
    (hbound : p + 1 + D.length ≤ 2 ^ 32)
    (hother : ∀ x ∈ A ++ X, ∀ i j, (OplogKey.ofBytes x.key).groupBy gk w ≠ (blockKey t g i j).groupBy gk w) :
    ∃ pre post, (scan (putAll (bdbTempTableSetCmpFunc
      (bdbTempArrayCreate put temptableMemThreshold temptableCachesz) (some cmp))
        (A ++ (⟨(blockKey t g 1 p).bytes, rpl⟩ :: depRows t g (p + 1) D) ++ X))).map rowEntry =
      pre ++ (D.zipIdx (p + 1)).map (fun q => (q.2, q.1.rpl)) ++ (p, rpl) :: post := by
  obtain ⟨G0, hG0⟩ : ∃ G0, (blockKey t g 0 0).groupBy gk w = G0 := ⟨_, rfl⟩
  have hDG : ∀ d ∈ depRows t g (p + 1) D, (OplogKey.ofBytes d.key).groupBy gk w = G0 := by
    intro d hd
    obtain ⟨j', hj'⟩ := mem_depRows hd
    rw [hj', OplogKey.ofBytes_bytes, groupBy_blockKey t g 0 j' 0, hG0]
  have hrG : (OplogKey.ofBytes (⟨(blockKey t g 1 p).bytes, rpl⟩ : ArrElem).key).groupBy gk w = G0 + 1 := by
    rw [OplogKey.ofBytes_bytes, groupBy_blockKey_one t g p 0, hG0]
  have hD : (depRows t g (p + 1) D).Pairwise fun a b =>
      (OplogKey.ofBytes a.key).seq.toNat < (OplogKey.ofBytes b.key).seq.toNat := by
    have h := List.pairwise_lt_range' (s := p + 1) (n := D.length)
    rw [← seqs_depRows (by omega), List.pairwise_map] at h
    exact h
  have hclass : ∀ x ∈ A ++ (⟨(blockKey t g 1 p).bytes, rpl⟩ :: depRows t g (p + 1) D) ++ X,
      (OplogKey.ofBytes x.key).groupBy gk w = G0 → x ∈ depRows t g (p + 1) D := by
    -- the dependents' group holds only the dependents
    intro x hx hxG
    rw [← hG0] at hxG
    rcases List.mem_append.1 hx with hx | hx
    · rcases List.mem_append.1 hx with hx | hx
      · exact absurd hxG (hother x (by simp [hx]) 0 0)
      · rcases List.mem_cons.1 hx with rfl | hx
        · rw [hrG, hG0] at hxG
          omega
        · exact hx
    · exact absurd hxG (hother x (by simp [hx]) 0 0)
  have hclass' : ∀ x ∈ A ++ (⟨(blockKey t g 1 p).bytes, rpl⟩ :: depRows t g (p + 1) D) ++ X,
      (OplogKey.ofBytes x.key).groupBy gk w = G0 + 1 → x = ⟨(blockKey t g 1 p).bytes, rpl⟩ := by
    -- the next group holds only the record
    intro x hx hxG
    rw [← hG0, ← groupBy_blockKey_one t g p 0] at hxG
    rcases List.mem_append.1 hx with hx | hx
    · rcases List.mem_append.1 hx with hx | hx
      · exact absurd hxG (hother x (by simp [hx]) 1 p)
      · rcases List.mem_cons.1 hx with rfl | hx
        · rfl
        · rw [hDG x hx, groupBy_blockKey_one t g p 0, hG0] at hxG
          omega
    · exact absurd hxG (hother x (by simp [hx]) 1 p)
  obtain ⟨pre, post, hscan⟩ := scan_block hcmp hbt temptableMemThreshold temptableCachesz hseq hD
    (fun d hd => by simp [hd]) hDG (by simp) hrG hclass hclass'
  have hp : p < 4294967296 := by omega
  refine ⟨pre.map rowEntry, post.map rowEntry, ?_⟩
  rw [hscan]
  simp [map_rowEntry_depRows, opEntries_eq_zipIdx hbound, blockKey, UInt32.toNat_ofNat', Nat.mod_eq_of_lt hp]

end Block

/-! ## Other rows stay out of a block's groups -/

section Others

/-- A main-table row not keyed under the tag `(t, g)` of a stored genid other
than 0 is in neither group of that tag's block. -/
theorem MainRow.groupBy_ne {tags : List (UInt16 × Genid)} {x : ArrElem} {t : UInt16} {g : Genid}
    (hx : MainRow tags x) (hadd : isGenidAdd g = false) (hupd : isGenidUpd g = false) (hg0 : g ≠ 0)
    (hnot : (t, g) ∉ tags) (i : UInt8) (j : ℕ) :
    (OplogKey.ofBytes x.key).groupBy genidKey 60 ≠ (blockKey t g i j).groupBy genidKey 60 := by
  intro h
  obtain ⟨ht, hs, hk, -⟩ := OplogKey.groupBy_inj genidKey_lt h
  rcases hx with ⟨t', j', hx⟩ | ⟨q, hq, i', j', hx⟩
  · -- an `OSQL_USEDB` row has stripe and genid 0
    rw [hx, OplogKey.ofBytes_bytes] at hs hk
    have hs0 : stripeOf g = stripeOf 0 := by
      simp only [usedbKey, blockKey] at hs
      rw [← hs]
      decide
    exact hg0 (eq_of_stripeOf_eq hadd hupd hs0 hk.symm)
  · rw [hx, OplogKey.ofBytes_bytes] at ht hs hk
    simp only [blockKey] at ht hs hk
    have hq' : q = (t, g) := by
      rw [eq_of_stripeOf_eq hadd hupd hs.symm hk.symm, ← ht]
    exact hnot (hq' ▸ hq)

/-- An insert-table row keyed under a counter other than `n` is in neither
group of the block of counter `n`, the counters below `2 ^ 64`. -/
theorem InsRow.groupBy_ne {tags : List (UInt16 × ℕ)} {x : ArrElem} {t : UInt16} {n : ℕ}
    (hx : InsRow tags x) (hn : n < 2 ^ 64) (htags : ∀ q ∈ tags, q.2 < 2 ^ 64 ∧ q.2 ≠ n) (i : UInt8) (j : ℕ) :
    (OplogKey.ofBytes x.key).groupBy UInt64.toNat 64 ≠
      (blockKey t (UInt64.ofNat n) i j).groupBy UInt64.toNat 64 := by
  intro h
  obtain ⟨-, -, hk, -⟩ := OplogKey.groupBy_inj UInt64.toNat_lt h
  obtain ⟨q, hq, i', j', hx⟩ := hx
  rw [hx, OplogKey.ofBytes_bytes] at hk
  simp only [blockKey, UInt64.toNat_ofNat', Nat.mod_eq_of_lt (htags q hq).1, Nat.mod_eq_of_lt hn] at hk
  exact (htags q hq).2 hk

end Others

/-! ## The replay -/

section Replay

variable {env : Env} {segs : List Segment}

/-- Nothing saved yet. -/
def Intended.empty : Intended := ⟨[], [], 0, 0, [], []⟩

/-- At a record request and its run of dependents: the rows before are those
of what came before, `I`, and the rows after extend those of the block. -/
theorem exists_intended_at_split (hs : ∀ s ∈ segs, s.Shape env) {pre D post : List Op} {R : Op}
    (h : stream segs = pre ++ R :: D ++ post) (hR : R.type = .insrec ∨ R.type = .updrec)
    (hD : ∀ d ∈ D, isDependent d.type = true) (hpost : ∀ op ∈ post.head?, isDependent op.type = false) :
    ∃ t I, Intended.empty.Extends I ∧ I.seq = pre.length ∧
      (I.block t ⟨R, D⟩).Extends (intendedRows env segs) := by
  obtain ⟨segsA, s, segsB, bsA, bsB, rfl, hbs, rfl⟩ := exists_block_of_split hs h hR hD hpost
  set t := s.tblIdx env
  set I := bsA.foldl (Intended.block t) ((segsA.foldl (Intended.segment env) Intended.empty).useTable env s)
  have hrows : intendedRows env (segsA ++ s :: segsB) =
      segsB.foldl (Intended.segment env) (bsB.foldl (Intended.block t) (I.block t ⟨R, D⟩)) := by
    simp only [intendedRows, List.foldl_append, List.foldl_cons, Intended.segment, hbs]
    rfl
  refine ⟨t, I, ?_, ?_, ?_⟩
  · exact (Intended.Extends.foldl Intended.extends_segment segsA _).trans
      ((Intended.extends_useTable _ s).trans (Intended.Extends.foldl (Intended.extends_block t) bsA _))
  · simp only [I, Intended.seq_foldl_block, Intended.useTable, Intended.seq_foldl_segment]
    simp only [Intended.empty, List.length_append, List.length_cons, List.length_flatMap]
    omega
  · rw [hrows]
    exact (Intended.Extends.foldl (Intended.extends_block t) bsB _).trans
      (Intended.Extends.foldl Intended.extends_segment segsB _)

/-- The entries a stream leaves are its requests, each with its arrival number. -/
theorem entries_intendedRows (h : (stream segs).length ≤ 2 ^ 32) :
    (intendedRows env segs).entries.Perm ((stream segs).zipIdx.map fun q => (q.2, q.1.rpl)) := by
  have h0 : (intendedRows env segs).entries.Perm (Intended.empty.entries ++ opEntries (stream segs) 0) :=
    Intended.entries_foldl_segment segs _
  rw [opEntries_eq_zipIdx (by simpa using h)] at h0
  simpa [Intended.entries, Intended.empty] using h0

/-- So no two rows of a stream share an arrival number. -/
theorem seq_pairwise_ne (h : (stream segs).length ≤ 2 ^ 32) :
    ((intendedRows env segs).main ++ (intendedRows env segs).ins).Pairwise fun a b =>
      (OplogKey.ofBytes a.key).seq ≠ (OplogKey.ofBytes b.key).seq := by
  have hent : (intendedRows env segs).entries.Perm _ := entries_intendedRows h
  have hfst := hent.map Prod.fst
  have hrange : ((stream segs).zipIdx.map fun q => (q.2, q.1.rpl)).map Prod.fst =
      List.range' 0 (stream segs).length := by
    rw [List.map_map]
    exact List.zipIdx_map_snd 0 _
  rw [hrange, Intended.entries, List.map_map] at hfst
  have hnd := hfst.nodup_iff.2 List.nodup_range'
  rw [List.Nodup, List.pairwise_map] at hnd
  exact hnd.imp fun hne heq => hne (by simp [rowEntry, heq])

/-- The insert table around an insert block: before it the rows of earlier
inserts, after it those of later ones, none keyed under its counter. -/
theorem ins_around_block {I IF : Intended} {t : UInt16} {b : Block} (hins : b.record.type = .insrec)
    (h₀ : Intended.empty.Extends I) (hF : (I.block t b).Extends IF) (hc : IF.Counted)
    (hbound : IF.seq < 2 ^ 64) :
    ∃ A X, IF.ins = A ++ b.rows t I.insSeq I.seq ++ X ∧
      ∀ x ∈ A ++ X, ∀ i j, (OplogKey.ofBytes x.key).groupBy UInt64.toNat 64 ≠
        (blockKey t (UInt64.ofNat (I.insSeq + 1)) i j).groupBy UInt64.toNat 64 := by
  obtain ⟨X₀, Y₀, hins₀, htags₀, hx₀⟩ := h₀.ins
  obtain ⟨X, Y, hinsF, htagsF, hxF⟩ := hF.ins
  simp only [Intended.block, hins, if_true] at hinsF htagsF
  simp only [Intended.empty, List.nil_append] at hins₀ htags₀
  subst hins₀ htags₀
  -- the counters are `1, ..., IF.insSeq`, each once
  have hnd : (IF.insTags.map Prod.snd).Nodup := hc.tags ▸ List.nodup_range'
  have hlt : ∀ q ∈ IF.insTags, q.2 < 2 ^ 64 := by
    intro q hq
    have hmem : q.2 ∈ IF.insTags.map Prod.snd := List.mem_map_of_mem hq
    rw [hc.tags, List.mem_range'_1] at hmem
    have := hc.le
    omega
  rw [htagsF, List.map_append, List.map_append] at hnd
  obtain ⟨hnA, hnY⟩ : I.insSeq + 1 ∉ I.insTags.map Prod.snd ∧ I.insSeq + 1 ∉ Y.map Prod.snd :=
    Chunks.not_mem_of_nodup_middle hnd
  have hn : I.insSeq + 1 < 2 ^ 64 := hlt (t, I.insSeq + 1) (by simp [htagsF])
  refine ⟨I.ins, X, by rw [hinsF], ?_⟩
  intro x hx i j
  rcases List.mem_append.1 hx with hx | hx
  · refine (hx₀ x hx).groupBy_ne hn (fun q hq => ⟨hlt q (by simp [htagsF, hq]), fun he => hnA ?_⟩) i j
    rw [← he]
    exact List.mem_map_of_mem hq
  · refine (hxF x hx).groupBy_ne hn (fun q hq => ⟨hlt q (by simp [htagsF, hq]), fun he => hnY ?_⟩) i j
    rw [← he]
    exact List.mem_map_of_mem hq

/-- The main table around an update block: before it the rows of the
`OSQL_USEDB`s and of earlier updates, after it those of later ones, none keyed
under its table and genid. -/
theorem main_around_block {I IF : Intended} {t : UInt16} {b : Block} (hupd : b.record.type ≠ .insrec)
    (h₀ : Intended.empty.Extends I) (hF : (I.block t b).Extends IF) (hnd : IF.mainTags.Nodup)
    (hadd : isGenidAdd (genidFromRpl b.record.rpl) = false)
    (hupd' : isGenidUpd (genidFromRpl b.record.rpl) = false) (hg0 : genidFromRpl b.record.rpl ≠ 0) :
    ∃ A X, IF.main = A ++ b.rows t I.insSeq I.seq ++ X ∧
      ∀ x ∈ A ++ X, ∀ i j, (OplogKey.ofBytes x.key).groupBy genidKey 60 ≠
        (blockKey t (genidFromRpl b.record.rpl) i j).groupBy genidKey 60 := by
  obtain ⟨X₀, Y₀, hmain₀, htags₀, hx₀⟩ := h₀.main
  obtain ⟨X, Y, hmainF, htagsF, hxF⟩ := hF.main
  simp only [Intended.block, hupd, if_false] at hmainF htagsF
  simp only [Intended.empty, List.nil_append] at hmain₀ htags₀
  subst hmain₀ htags₀
  rw [htagsF] at hnd
  obtain ⟨hnA, hnY⟩ := Chunks.not_mem_of_nodup_middle hnd
  refine ⟨I.main, X, by rw [hmainF], ?_⟩
  intro x hx i j
  rcases List.mem_append.1 hx with hx | hx
  · exact (hx₀ x hx).groupBy_ne hadd hupd' hg0 hnA i j
  · exact (hxF x hx).groupBy_ne hadd hupd' hg0 hnY i j

/-- A transaction's stream from the shadow tables, saved with reordering on:
every request is saved; the two tables hold each request once, with its
arrival number; and in the table of a record request, the dependent requests
sent after it, up to the next request that is not one, stand right before it
in arrival order. -/
theorem saveOps_reorder_groups {env : Env} {segs : List Segment} (hp : Produced env segs)
    {put : BtPut} (hbt : put.Lawful) (temptableMemThreshold temptableCachesz : ℕ) (isSelectvWlUpd : Bool) :
    ∃ tran tIns,
      saveOps env (osqlBplogCreate put temptableMemThreshold temptableCachesz true isSelectvWlUpd)
          (stream segs) = (0, tran) ∧ tran.dbIns = some tIns ∧
        ((scan tran.db ++ scan tIns).map rowEntry).Perm
          ((stream segs).zipIdx.map fun q => (q.2, q.1.rpl)) ∧
        ∀ (pre : List Op) (R : Op) (D post : List Op), stream segs = pre ++ R :: D ++ post →
          (R.type = .insrec ∨ R.type = .updrec) →
          (∀ d ∈ D, isDependent d.type = true) → (∀ op ∈ post.head?, isDependent op.type = false) →
          ∃ A B, (scan (if R.type = .insrec then tIns else tran.db)).map rowEntry =
            A ++ (D.zipIdx (pre.length + 1)).map (fun q => (q.2, q.1.rpl)) ++ (pre.length, R.rpl) :: B := by
  obtain ⟨tran, hrun, hI⟩ := saveOps_stream put temptableMemThreshold temptableCachesz isSelectvWlUpd hp.shape
  have hshort := hp.short
  have hL : (stream segs).length ≤ 2 ^ 32 := by omega
  have hseq : ((intendedRows env segs).main ++ (intendedRows env segs).ins).Pairwise fun a b =>
      (OplogKey.ofBytes a.key).seq ≠ (OplogKey.ofBytes b.key).seq := seq_pairwise_ne hL
  refine ⟨tran, _, hrun, hI.dbIns, ?_, ?_⟩
  · -- each table scans as its rows, and together the rows are the requests
    rw [hI.db]
    obtain ⟨hpm, -⟩ := scan_putAll_of_seq osqlBplogKeyCmp_eq hbt temptableMemThreshold temptableCachesz
      (hseq.sublist (List.sublist_append_left _ _))
    obtain ⟨hpi, -⟩ := scan_putAll_of_seq osqlBplogInstblKeyCmp_eq hbt temptableMemThreshold temptableCachesz
      (hseq.sublist (List.sublist_append_right _ _))
    exact ((hpm.append hpi).map rowEntry).trans (entries_intendedRows hL)
  · intro pre R D post hsplit hR hD hpost
    obtain ⟨t, I, h₀, hIseq, hF⟩ := exists_intended_at_split hp.shape hsplit hR hD hpost
    have hlen : pre.length + 1 + D.length ≤ 2 ^ 32 := by
      have h := congrArg List.length hsplit
      simp only [List.length_append, List.length_cons] at h
      omega
    by_cases hins : R.type = .insrec
    · -- an insert: its block in `db_ins`, under its insert counter
      rw [if_pos hins]
      have hc : (intendedRows env segs).Counted :=
        Intended.Counted.foldl_segment segs (I := Intended.empty) ⟨rfl, le_refl _⟩
      have hFseq : (intendedRows env segs).seq < 2 ^ 64 := by
        have h : (intendedRows env segs).seq = Intended.empty.seq + (stream segs).length :=
          Intended.seq_foldl_segment segs Intended.empty
        simp only [Intended.empty] at h
        omega
      obtain ⟨A, X, hIF, hother⟩ := ins_around_block (b := ⟨R, D⟩) hins h₀ hF hc hFseq
      have hg : Block.genid ⟨R, D⟩ I.insSeq = UInt64.ofNat (I.insSeq + 1) := by simp [Block.genid, hins]
      rw [Block.rows, hg, hIseq] at hIF
      have hseqI := hseq.sublist (List.sublist_append_right _ _)
      rw [hIF] at hseqI ⊢
      exact scan_eq_block osqlBplogInstblKeyCmp_eq hbt temptableMemThreshold temptableCachesz hseqI hlen hother
    · -- an update: its block in the main table, under the genid it carries
      rw [if_neg hins, hI.db]
      have htags : (intendedRows env segs).mainTags = updatedRows env segs := by
        have h : (intendedRows env segs).mainTags = Intended.empty.mainTags ++ updatedRows env segs :=
          Intended.mainTags_foldl_segment Intended.empty hp.shape
        simpa [Intended.empty] using h
      have hin : (t, genidFromRpl R.rpl) ∈ updatedRows env segs := by
        obtain ⟨X, Y, -, htagsF, -⟩ := hF.main
        simp only [Intended.block, hins, if_false] at htagsF
        rw [← htags, htagsF]
        simp
      obtain ⟨hg0, hadd, hupd⟩ := hp.stored _ hin
      obtain ⟨A, X, hIF, hother⟩ :=
        main_around_block (b := ⟨R, D⟩) hins h₀ hF (htags ▸ hp.once) hadd hupd hg0
      have hg : Block.genid ⟨R, D⟩ I.insSeq = genidFromRpl R.rpl := by simp [Block.genid, hins]
      rw [Block.rows, hg, hIseq] at hIF
      have hseqM := hseq.sublist (List.sublist_append_left _ _)
      rw [hIF] at hseqM ⊢
      exact scan_eq_block osqlBplogKeyCmp_eq hbt temptableMemThreshold temptableCachesz hseqM hlen hother

/-- One table, `t1` at index 0, that every `OSQL_USEDB` names; every payload
reads as a schema change. -/
def exampleEnv : Env := ⟨fun _ => "t1", fun _ => 0, fun _ => true⟩

/-- An update of the stored row of genid `0x100000021` with two index
requests, then an insert with one. -/
def exampleSegs : List Segment :=
  [⟨⟨.usedb, []⟩,
    [⟨⟨.updrec, List.replicate 24 0 ++ [0, 0, 0, 1, 0, 0, 0, 0x21]⟩, [⟨.delidx, [1]⟩, ⟨.insidx, [2]⟩]⟩,
     ⟨⟨.insrec, [3]⟩, [⟨.insidx, [4]⟩]⟩]⟩]

/-- The example is a stream the shadow tables send. -/
theorem exampleSegs_produced : Produced exampleEnv exampleSegs where
  shape := by
    intro s hs
    simp only [exampleSegs, List.mem_singleton] at hs
    subst hs
    refine ⟨rfl, by decide, by decide, ?_⟩
    intro b hb
    simp only [List.mem_cons, List.not_mem_nil, or_false] at hb
    rcases hb with rfl | rfl
    · exact ⟨.inr rfl, by decide⟩
    · exact ⟨.inl rfl, by decide⟩
  stored := by
    rw [show updatedRows exampleEnv exampleSegs = [(1, 0x100000021)] by decide]
    intro p hp
    simp only [List.mem_singleton] at hp
    subst hp
    exact ⟨by decide, rfl, rfl⟩
  once := by
    rw [show updatedRows exampleEnv exampleSegs = [(1, 0x100000021)] by decide]
    simp
  short := by decide

theorem saveOps_reorder_groups_example : Produced exampleEnv exampleSegs ∧ BtPut.Lawful btPutSorted ∧
    ∃ tran tIns,
      saveOps exampleEnv (osqlBplogCreate btPutSorted 0 0 true false) (stream exampleSegs) = (0, tran) ∧
        tran.dbIns = some tIns ∧
        ((scan tran.db ++ scan tIns).map rowEntry).Perm
          ((stream exampleSegs).zipIdx.map fun q => (q.2, q.1.rpl)) ∧
        ∀ (pre : List Op) (R : Op) (D post : List Op), stream exampleSegs = pre ++ R :: D ++ post →
          (R.type = .insrec ∨ R.type = .updrec) →
          (∀ d ∈ D, isDependent d.type = true) → (∀ op ∈ post.head?, isDependent op.type = false) →
          ∃ A B, (scan (if R.type = .insrec then tIns else tran.db)).map rowEntry =
            A ++ (D.zipIdx (pre.length + 1)).map (fun q => (q.2, q.1.rpl)) ++ (pre.length, R.rpl) :: B :=
  ⟨exampleSegs_produced, lawful_btPutSorted, saveOps_reorder_groups exampleSegs_produced lawful_btPutSorted 0 0 false⟩

end Replay

end Osql
