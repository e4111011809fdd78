import Comdb2.Bdb.Temptable
import Comdb2.Bdb.Genid

/-!
# The block processor's log, reordered

The master keeps the requests of an offloaded transaction in a temp table, the
bplog, keyed by an `oplog_key_t`, and applies them in key order
(`osqlblockproc.c`).  With reordering on (`is_reorder_on`),
`osql_bplog_saveop` keys each request by `setup_reorder_key`: the table index
an `OSQL_USEDB` set, the stripe and genid of the row, whether it is the record
request itself (`is_rec`), and its arrival number `seq`.  A record request
(`OSQL_INSREC`, `OSQL_UPDREC`, ...) remembers its genid in `last_genid`; the
dependent requests sent after it (`OSQL_INSIDX`, `OSQL_DELIDX`, `OSQL_QBLOB`,
`OSQL_UPDCOLS`) take that genid with `is_rec` 0, so they sort before their
record.  An insert has no genid yet: it takes the next value of the counter
`ins_seq`, and the insert and its dependents go to a second table `db_ins`
ordered by `osql_bplog_instbl_key_cmp`.

The temp tables are those of `Temptable`; a key is stored as the 24 bytes of
the C structure on a big-endian host (`OplogKey.bytes`), the host on which the
`Genid` model reads a genid as the number it is.  Both comparators order keys
as one number, the key's fields read as digits (`OplogKey.rankMain`,
`osqlBplogKeyCmp_eq`), the main one with the genid's stripe nibble dropped,
as `bdb_cmp_genids` drops it.

A transaction's run (`saveOps`) saves its requests one after another.  For the
streams that `process_local_shadtbl_add` and `process_local_shadtbl_upd` send,
each saved request lands in its table as the row `intendedRows` says
(`saveOps_stream`).
-/

namespace Osql

open Temptable Bdb

/-! ## Requests -/

/-- The osql request types `osql_bplog_saveop` tells apart, with `OSQL_DONE`,
which ends a transaction's stream; `other` is any other type. -/
inductive OsqlType
  | usedb
  | recgenid
  | update
  | delete
  | updrec
  | delrec
  | insert
  | insrec
  | qblob
  | delidx
  | insidx
  | updcols
  | serial
  | selectv
  | schemachange
  | done
  | other
  deriving DecidableEq, Repr

/-- A request as `osql_bplog_saveop` receives it: its type and payload `rpl`. -/
structure Op where
  type : OsqlType
  rpl : List UInt8
  deriving DecidableEq, Repr

/-- What the save asks of the rest of the server: the table an `OSQL_USEDB`
payload names (`get_tablename_from_rpl`), a table's index
(`get_dbtable_idx_by_name`, -1 for no table), and whether
`osqlcomm_get_schemachange` reads a schema change from a payload. -/
structure Env where
  tablenameFromRpl : List UInt8 → String
  dbtableIdxByName : String → ℤ
  getSchemachange : List UInt8 → Bool

/-- `Q_TAG`, the prefix of a queue's name. -/
def qTag : String := "__q"

/-- `is_tablename_queue`: `strncmp(name, Q_TAG, 3) == 0`. -/
def isTablenameQueue (name : String) : Bool := name.startsWith qTag

/-- `OSQLCOMM_UUID_RPL_TYPE_LEN`: the header of a request with a uuid. -/
def osqlcommUuidRplTypeLen : ℕ := 4 + 4 + 16

/-- The genid a record request carries right after its header, copied as it
stands (`buf_no_net_get`). -/
def genidFromRpl (rpl : List UInt8) : Genid :=
  UInt64.ofNat (Bytes.ofBE ((rpl.drop osqlcommUuidRplTypeLen).take 8))

/-- `USHRT_MAX`: the table index of a transaction before its first
`OSQL_USEDB`. -/
def ushrtMax : UInt16 := 65535

/-! ## Keys -/

/-- `oplog_key_t`. -/
structure OplogKey where
  tblIdx : UInt16
  stripe : UInt8
  genid : Genid
  isRec : UInt8
  seq : UInt32
  deriving DecidableEq, Repr

/-- `oplog_key_t key = {0}`. -/
def OplogKey.zero : OplogKey := ⟨0, 0, 0, 0, 0⟩

/-- The 24 bytes of a key on a big-endian host: each field in network order,
and the zeroed padding after `stripe` and after `is_rec`. -/
def OplogKey.bytes (k : OplogKey) : List UInt8 :=
  Bytes.toBE 2 k.tblIdx.toNat ++ Bytes.toBE 1 k.stripe.toNat ++ List.replicate 5 0 ++
    Bytes.toBE 8 k.genid.toNat ++ Bytes.toBE 1 k.isRec.toNat ++ List.replicate 3 0 ++
    Bytes.toBE 4 k.seq.toNat

/-- The fields a comparator reads from the bytes of a key. -/
def OplogKey.ofBytes (b : List UInt8) : OplogKey where
  tblIdx := UInt16.ofNat (Bytes.ofBE (b.take 2))
  stripe := UInt8.ofNat (Bytes.ofBE ((b.drop 2).take 1))
  genid := UInt64.ofNat (Bytes.ofBE ((b.drop 8).take 8))
  isRec := UInt8.ofNat (Bytes.ofBE ((b.drop 16).take 1))
  seq := UInt32.ofNat (Bytes.ofBE ((b.drop 20).take 4))

/-- The comparators of the bplog, from how they order two genids:
`CMP_KEY_MEMBER` on `tbl_idx` and `stripe`, the genids, then `CMP_KEY_MEMBER`
on `is_rec` and `seq`. -/
def bplogKeyCmpBy (genidCmp : Genid → Genid → Ordering) (k1 k2 : OplogKey) : Ordering :=
  (compare k1.tblIdx.toNat k2.tblIdx.toNat).then <|
    (compare k1.stripe.toNat k2.stripe.toNat).then <|
      (genidCmp k1.genid k2.genid).then <|
        (compare k1.isRec.toNat k2.isRec.toNat).then (compare k1.seq.toNat k2.seq.toNat)

/-- `osql_bplog_key_cmp`: the genids by the sign of `bdb_cmp_genids`. -/
def osqlBplogKeyCmp : TmptblCmp := fun key1 key2 =>
  bplogKeyCmpBy (fun g1 g2 => compare (bdbCmpGenids g1 g2) 0) (OplogKey.ofBytes key1)
    (OplogKey.ofBytes key2)

/-- `osql_bplog_instbl_key_cmp`: the genids, insert counters there, as numbers. -/
def osqlBplogInstblKeyCmp : TmptblCmp := fun key1 key2 =>
  bplogKeyCmpBy (fun g1 g2 => compare g1.toNat g2.toNat) (OplogKey.ofBytes key1)
    (OplogKey.ofBytes key2)

/-! ## The log of a transaction -/

/-- A `blocksql_tran_t` with the fields the save reads and writes, and the
session's `tran_rows`. -/
structure Tran where
  db : TempTable
  dbIns : Option TempTable
  seq : ℕ
  isSelectvWlUpd : Bool
  isReorderOn : Bool
  tablename : Option String
  tblIdx : UInt16
  lastGenid : Genid
  insSeq : Genid
  lastIsIns : Bool
  tranRows : ℕ

/-- `osql_bplog_create(is_uuid, is_reorder)` with berkdb's temp btree put, the
temp tables' thresholds and `gbl_selectv_writelock_on_update`; the failed
allocations are not modelled. -/
def osqlBplogCreate (tmpdbPut : BtPut) (temptableMemThreshold temptableCachesz : ℕ)
    (isReorder isSelectvWlUpd : Bool) : Tran where
  db := bdbTempTableSetCmpFunc (bdbTempArrayCreate tmpdbPut temptableMemThreshold temptableCachesz)
    (some osqlBplogKeyCmp)
  dbIns := if isReorder then
      some (bdbTempTableSetCmpFunc (bdbTempArrayCreate tmpdbPut temptableMemThreshold temptableCachesz)
        (some osqlBplogInstblKeyCmp))
    else none
  seq := 0
  isSelectvWlUpd := isSelectvWlUpd
  isReorderOn := isReorder
  tablename := none
  -- uninitialized until `OSQL_USEDB`
  tblIdx := ushrtMax
  lastGenid := 0
  insSeq := 0
  lastIsIns := false
  tranRows := 0

/-- The row requests a selectv cache checks for a table name. -/
def isSelectvRowOp : OsqlType → Bool
  | .update | .delete | .updrec | .delrec | .recgenid => true
  | _ => false

/-- The part of `_pre_process_saveop` this log reads: an `OSQL_SCHEMACHANGE` is
saved to the session by `osql_sess_save_sc`, whose -1 for a payload that
`osqlcomm_get_schemachange` cannot read is the answer of the whole call; an
`OSQL_USEDB` remembers its table when reordering or selectv caching is on; and
with the selectv cache a row request before any table fails first.  The list of
schema changes, the cache itself, the views lock of `OSQL_BPFUNC` and what
`OSQL_PREPARE`, `OSQL_DIST_TXNID` and `OSQL_PARTICIPANT` record in the session
for distributed transactions are not modelled: none of them makes the save
fail. -/
def preProcessSaveop (env : Env) (tran : Tran) (op : Op) : Option Tran :=
  let rc : ℤ := if op.type = .schemachange ∧ env.getSchemachange op.rpl = false then -1 else 0
  let tran :=
    if op.type = .usedb ∧ (tran.isSelectvWlUpd ∨ tran.isReorderOn) then
      { tran with tablename := some (env.tablenameFromRpl op.rpl) }
    else tran
  if tran.isSelectvWlUpd ∧ isSelectvRowOp op.type ∧ tran.tablename = none then none
  else if rc = 0 then some tran else none

/-- The requests `setup_reorder_key` refuses before an `OSQL_USEDB`. -/
def isRowOp : OsqlType → Bool
  | .recgenid | .update | .delete | .updrec | .delrec | .insert | .insrec
  | .qblob | .delidx | .insidx | .updcols => true
  | _ => false

/-- The stripe of a key: `get_dtafile_from_genid`, stored in a `uint8_t`. -/
def stripeOf (g : Genid) : UInt8 := UInt8.ofInt (getDtafileFromGenid g)

/-- The key of a dependent request, and the tail a record request falls
through to: the current table, the remembered genid and its stripe. -/
def dependentKey (tran : Tran) (key : OplogKey) : OplogKey :=
  { key with tblIdx := tran.tblIdx, genid := tran.lastGenid, stripe := stripeOf tran.lastGenid }

/-- The first `switch` of `setup_reorder_key`, on a key whose table is already
`USHRT_MAX`. -/
def reorderKeySwitch (env : Env) (tran : Tran) (rpl : List UInt8) (key : OplogKey) :
    OsqlType → Tran × OplogKey
  | .usedb =>
    match tran.tablename with
    | some name =>
      if isTablenameQueue name then (tran, key)
      else
        let tblIdx := UInt16.ofInt (env.dbtableIdxByName name + 1)
        ({ tran with tblIdx := tblIdx }, { key with tblIdx := tblIdx })
    | none => (tran, key)
  | .insert | .insrec =>
    -- an insert has no genid yet: the next value of the insert counter
    let tran := { tran with insSeq := tran.insSeq + 1, lastGenid := tran.insSeq + 1 }
    (tran, dependentKey tran { key with isRec := 1 })
  | .recgenid | .update | .delete | .updrec | .delrec =>
    let tran := { tran with lastGenid := genidFromRpl rpl }
    (tran, dependentKey tran { key with isRec := 1 })
  | .qblob | .delidx | .insidx | .updcols => (tran, dependentKey tran key)
  -- processed first: these touch no btree
  | .serial | .selectv => (tran, { key with tblIdx := 0, genid := 0, stripe := 0, isRec := 0 })
  | .schemachange | .done | .other => (tran, key)

/-- The second `switch` of `setup_reorder_key`: whether the request is part of
an insert, and the session's row count. -/
def lastIsInsSwitch (tran : Tran) : OsqlType → Tran
  -- keep `last_is_ins` as is
  | .qblob | .delidx | .insidx | .updcols => tran
  | .update | .delete | .updrec | .delrec =>
    { tran with lastIsIns := false, tranRows := tran.tranRows + 1 }
  | .insert | .insrec => { tran with lastIsIns := true, tranRows := tran.tranRows + 1 }
  | _ => { tran with lastIsIns := false }

/-- `setup_reorder_key(tran, type, sess, rqid, rpl, key)`: `none` for the -1 of
a row request before any `OSQL_USEDB`. -/
def setupReorderKey (env : Env) (tran : Tran) (type : OsqlType) (rpl : List UInt8)
    (key : OplogKey) : Option (Tran × OplogKey) :=
  if isRowOp type ∧ tran.tblIdx = ushrtMax then none
  else
    let r := reorderKeySwitch env tran rpl { key with tblIdx := ushrtMax } type
    some (lastIsInsSwitch r.1 type, r.2)

/-- The put of `osql_bplog_saveop`, into `db_ins` when `toIns` and there is one,
else into `db`; `seq` moves on when the put succeeds. -/
def putOp (tran : Tran) (key : OplogKey) (rpl : List UInt8) (toIns : Bool) : ℤ × Tran :=
  match toIns, tran.dbIns with
  | true, some dbIns =>
    let r := bdbTempTablePut dbIns key.bytes rpl
    (r.1, { tran with dbIns := some r.2, seq := if r.1 = 0 then tran.seq + 1 else tran.seq })
  | _, _ =>
    let r := bdbTempTablePut tran.db key.bytes rpl
    (r.1, { tran with db := r.2, seq := if r.1 = 0 then tran.seq + 1 else tran.seq })

/-- `osql_bplog_saveop(sess, tran, rpl, rplen, type)`. -/
def osqlBplogSaveop (env : Env) (tran : Tran) (op : Op) : ℤ × Tran :=
  match preProcessSaveop env tran op with
  | none => (-1, tran)
  | some tran =>
    let key := { OplogKey.zero with seq := UInt32.ofNat tran.seq }
    if tran.isReorderOn then
      match setupReorderKey env tran op.type op.rpl key with
      | none => (-1, tran)
      | some (tran, key) => putOp tran key op.rpl (tran.lastIsIns && tran.dbIns.isSome)
    else putOp tran key op.rpl false

/-- A transaction's requests, saved one after another as they arrive, until a
save fails. -/
def saveOps (env : Env) : Tran → List Op → ℤ × Tran
  | tran, [] => (0, tran)
  | tran, op :: ops =>
    match osqlBplogSaveop env tran op with
    | (0, tran) => saveOps env tran ops
    | r => r

/-! ## Keys as numbers -/

section Keys

/-- A key as one number, its fields the digits: `gk` is the genid as a
comparator reads it, below `2 ^ w`. -/
def OplogKey.rankBy (gk : Genid → ℕ) (w : ℕ) (k : OplogKey) : ℕ :=
  (((k.tblIdx.toNat * 2 ^ 8 + k.stripe.toNat) * 2 ^ w + gk k.genid) * 2 ^ 8 + k.isRec.toNat) * 2 ^ 32 +
    k.seq.toNat

/-- The number `osql_bplog_key_cmp` orders keys by: the genid without its stripe. -/
def OplogKey.rankMain (k : OplogKey) : ℕ := k.rankBy genidKey 60

/-- The number `osql_bplog_instbl_key_cmp` orders keys by: the whole genid. -/
def OplogKey.rankIns (k : OplogKey) : ℕ := k.rankBy UInt64.toNat 64

@[simp] theorem OplogKey.ofBytes_bytes (k : OplogKey) : OplogKey.ofBytes k.bytes = k := by
  have h₁ := k.tblIdx.toNat_lt
  have h₂ := k.stripe.toNat_lt
  have h₃ := k.genid.toNat_lt
  have h₄ := k.isRec.toNat_lt
  have h₅ := k.seq.toNat_lt
  simp [OplogKey.ofBytes, OplogKey.bytes, List.drop_append, Bytes.ofBE_toBE, List.drop_eq_nil_of_le,
    List.take_of_length_le]

/-- Comparing field by field is comparing the numbers the fields spell. -/
theorem bplogKeyCmpBy_eq_compare {gk : Genid → ℕ} {w : ℕ} (hgk : ∀ g, gk g < 2 ^ w)
    (k1 k2 : OplogKey) :
    bplogKeyCmpBy (fun a b => compare (gk a) (gk b)) k1 k2 =
      compare (k1.rankBy gk w) (k2.rankBy gk w) := by
  simp only [OplogKey.rankBy, bplogKeyCmpBy]
  rw [Bytes.compare_mul_add k1.seq.toNat_lt k2.seq.toNat_lt,
    Bytes.compare_mul_add k1.isRec.toNat_lt k2.isRec.toNat_lt, Bytes.compare_mul_add (hgk _) (hgk _),
    Bytes.compare_mul_add k1.stripe.toNat_lt k2.stripe.toNat_lt]
  simp only [Ordering.then_assoc]

/-- The sign of `bdb_cmp_genids` orders genids by their `genidKey`. -/
theorem compare_bdbCmpGenids (a b : Genid) :
    compare (bdbCmpGenids a b) 0 = compare (genidKey a) (genidKey b) := by
  rcases lt_trichotomy (genidKey a) (genidKey b) with h | h | h
  · rw [compare_lt_iff_lt.2 (bdbCmpGenids_lt_zero_iff.2 h), compare_lt_iff_lt.2 h]
  · rw [compare_eq_iff_eq.2 (bdbCmpGenids_eq_zero_iff.2 h), compare_eq_iff_eq.2 h]
  · rw [compare_gt_iff_gt.2 (bdbCmpGenids_pos_iff.2 h), compare_gt_iff_gt.2 h]

theorem genidKey_lt (g : Genid) : genidKey g < 2 ^ 60 := by
  have := g.toNat_lt
  unfold genidKey
  omega

/-- `osql_bplog_key_cmp` orders any two keys by `rankMain`. -/
theorem osqlBplogKeyCmp_eq (key1 key2 : List UInt8) :
    osqlBplogKeyCmp key1 key2 =
      compare (OplogKey.ofBytes key1).rankMain (OplogKey.ofBytes key2).rankMain := by
  simp only [osqlBplogKeyCmp, compare_bdbCmpGenids]
  exact bplogKeyCmpBy_eq_compare genidKey_lt _ _

/-- `osql_bplog_instbl_key_cmp` orders any two keys by `rankIns`. -/
theorem osqlBplogInstblKeyCmp_eq (key1 key2 : List UInt8) :
    osqlBplogInstblKeyCmp key1 key2 =
      compare (OplogKey.ofBytes key1).rankIns (OplogKey.ofBytes key2).rankIns := by
  simp only [osqlBplogInstblKeyCmp]
  exact bplogKeyCmpBy_eq_compare UInt64.toNat_lt _ _

end Keys

/-! ## The streams of the shadow tables -/

/-- The requests sent after a record request that belong to it. -/
def isDependent : OsqlType → Bool
  | .qblob | .delidx | .insidx | .updcols => true
  | _ => false

/-- A record request and the requests sent after it that belong to it. -/
structure Block where
  record : Op
  deps : List Op

/-- An `OSQL_USEDB` and the blocks of its table. -/
structure Segment where
  usedb : Op
  blocks : List Block

def Block.ops (b : Block) : List Op := b.record :: b.deps

def Segment.ops (s : Segment) : List Op := s.usedb :: s.blocks.flatMap Block.ops

/-- A transaction's requests: its segments one after another. -/
def stream (segs : List Segment) : List Op := segs.flatMap Segment.ops

/-- The table index the `OSQL_USEDB` of a segment sets. -/
def Segment.tblIdx (env : Env) (s : Segment) : UInt16 :=
  UInt16.ofInt (env.dbtableIdxByName (env.tablenameFromRpl s.usedb.rpl) + 1)

/-- An `OSQL_INSREC` or `OSQL_UPDREC` followed by its `OSQL_INSIDX`,
`OSQL_DELIDX`, `OSQL_QBLOB` and `OSQL_UPDCOLS`. -/
structure Block.Shape (b : Block) : Prop where
  record : b.record.type = .insrec ∨ b.record.type = .updrec
  deps : ∀ d ∈ b.deps, isDependent d.type = true

/-- An `OSQL_USEDB` of a table, not a queue, with an index below `USHRT_MAX`,
followed by blocks. -/
structure Segment.Shape (env : Env) (s : Segment) : Prop where
  usedb : s.usedb.type = .usedb
  notQueue : isTablenameQueue (env.tablenameFromRpl s.usedb.rpl) = false
  tblIdx : s.tblIdx env ≠ ushrtMax
  blocks : ∀ b ∈ s.blocks, b.Shape

/-- The rows a stream updates: the table and the genid of each `OSQL_UPDREC`. -/
def updatedRows (env : Env) (segs : List Segment) : List (UInt16 × Genid) :=
  segs.flatMap fun s =>
    (s.blocks.filter fun b => b.record.type = .updrec).map fun b => (s.tblIdx env, genidFromRpl b.record.rpl)

/-- The streams `process_local_shadtbl_add` and `process_local_shadtbl_upd`
send with reordering on.  Each updated row is a stored row, so its genid is
neither 0 nor synthetic, and each is updated once; and there are fewer
requests than the `int` counter `seq` can number.  With the
`osql_send_fingerprint` tunable on, off by default, the shadow tables also
send an `OSQL_FINGERPRINT` ahead of a row request
(`process_local_shadtbl_fingerprint`); those streams are left out. -/
structure Produced (env : Env) (segs : List Segment) : Prop where
  shape : ∀ s ∈ segs, s.Shape env
  stored : ∀ p ∈ updatedRows env segs, p.2 ≠ 0 ∧ isGenidAdd p.2 = false ∧ isGenidUpd p.2 = false
  once : (updatedRows env segs).Nodup
  short : (stream segs).length < 2 ^ 31

/-! ## The rows a stream should leave -/

/-- The key of a request of a block: the table, the block's genid and its
stripe, whether it is the record request, and the arrival number. -/
def blockKey (t : UInt16) (g : Genid) (isRec : UInt8) (j : ℕ) : OplogKey :=
  ⟨t, stripeOf g, g, isRec, UInt32.ofNat j⟩

/-- The key of an `OSQL_USEDB`. -/
def usedbKey (t : UInt16) (j : ℕ) : OplogKey := ⟨t, 0, 0, 0, UInt32.ofNat j⟩

/-- The rows of dependent requests from arrival number `j` on. -/
def depRows (t : UInt16) (g : Genid) : ℕ → List Op → List ArrElem
  | _, [] => []
  | j, d :: ds => ⟨(blockKey t g 0 j).bytes, d.rpl⟩ :: depRows t g (j + 1) ds

/-- The genid of a block: the next value of the insert counter, `insSeq`
inserts so far, for an insert; else the genid its record carries. -/
def Block.genid (b : Block) (insSeq : ℕ) : Genid :=
  if b.record.type = .insrec then UInt64.ofNat (insSeq + 1) else genidFromRpl b.record.rpl

/-- The rows of a block from arrival number `j` on: the record's, then its
dependents'. -/
def Block.rows (b : Block) (t : UInt16) (insSeq : ℕ) (j : ℕ) : List ArrElem :=
  ⟨(blockKey t (b.genid insSeq) 1 j).bytes, b.record.rpl⟩ :: depRows t (b.genid insSeq) (j + 1) b.deps

/-- The rows the two tables should hold after part of a stream, with the
arrival number and the number of inserts reached, and the table and genid
(insert counter for an insert) each record's rows are keyed under. -/
structure Intended where
  main : List ArrElem
  ins : List ArrElem
  seq : ℕ
  insSeq : ℕ
  mainTags : List (UInt16 × Genid)
  insTags : List (UInt16 × ℕ)

/-- A block adds its rows to the insert table if it is an insert, else to the
main table. -/
def Intended.block (t : UInt16) (I : Intended) (b : Block) : Intended :=
  if b.record.type = .insrec then
    { I with
      ins := I.ins ++ b.rows t I.insSeq I.seq
      seq := I.seq + b.ops.length
      insSeq := I.insSeq + 1
      insTags := I.insTags ++ [(t, I.insSeq + 1)] }
  else
    { I with
      main := I.main ++ b.rows t I.insSeq I.seq
      seq := I.seq + b.ops.length
      mainTags := I.mainTags ++ [(t, genidFromRpl b.record.rpl)] }

/-- The row of a segment's `OSQL_USEDB`. -/
def Intended.useTable (env : Env) (I : Intended) (s : Segment) : Intended :=
  { I with main := I.main ++ [⟨(usedbKey (s.tblIdx env) I.seq).bytes, s.usedb.rpl⟩], seq := I.seq + 1 }

/-- A segment adds the row of its `OSQL_USEDB`, then its blocks. -/
def Intended.segment (env : Env) (I : Intended) (s : Segment) : Intended :=
  s.blocks.foldl (Intended.block (s.tblIdx env)) (I.useTable env s)

/-- The rows a whole stream should leave. -/
def intendedRows (env : Env) (segs : List Segment) : Intended :=
  segs.foldl (Intended.segment env) ⟨[], [], 0, 0, [], []⟩

/-! ## One request at a time -/

section Steps

variable {env : Env} {tran : Tran} {op : Op}

theorem bdbTempTablePut_fst (t : TempTable) (key dta : List UInt8) :
    (bdbTempTablePut t key dta).1 = 0 := by
  unfold bdbTempTablePut bdbTempTableInsertPut
  cases t.tempTableType <;> simp <;> split_ifs <;> simp

/-- An `OSQL_USEDB` of a table sets the table index, and is saved in the main
table under it. -/
theorem osqlBplogSaveop_usedb (hre : tran.isReorderOn = true) (ht : op.type = .usedb)
    (hq : isTablenameQueue (env.tablenameFromRpl op.rpl) = false) :
    osqlBplogSaveop env tran op =
      (0, { tran with
        tablename := some (env.tablenameFromRpl op.rpl)
        tblIdx := UInt16.ofInt (env.dbtableIdxByName (env.tablenameFromRpl op.rpl) + 1)
        lastIsIns := false
        db := (bdbTempTablePut tran.db
          (usedbKey (UInt16.ofInt (env.dbtableIdxByName (env.tablenameFromRpl op.rpl) + 1)) tran.seq).bytes
          op.rpl).2
        seq := tran.seq + 1 }) := by
  simp [osqlBplogSaveop, preProcessSaveop, ht, hre, setupReorderKey, isRowOp, reorderKeySwitch, hq,
    lastIsInsSwitch, putOp, bdbTempTablePut_fst, isSelectvRowOp, usedbKey, OplogKey.zero]

/-- An `OSQL_INSREC` takes the next insert counter as its genid and is saved in
`db_ins`. -/
theorem osqlBplogSaveop_insrec {ti : TempTable} (hre : tran.isReorderOn = true)
    (ht : op.type = .insrec) (hidx : tran.tblIdx ≠ ushrtMax) (hins : tran.dbIns = some ti) :
    osqlBplogSaveop env tran op =
      (0, { tran with
        insSeq := tran.insSeq + 1
        lastGenid := tran.insSeq + 1
        lastIsIns := true
        tranRows := tran.tranRows + 1
        dbIns := some (bdbTempTablePut ti (blockKey tran.tblIdx (tran.insSeq + 1) 1 tran.seq).bytes op.rpl).2
        seq := tran.seq + 1 }) := by
  simp [osqlBplogSaveop, preProcessSaveop, ht, hre, setupReorderKey, isRowOp, hidx, reorderKeySwitch,
    lastIsInsSwitch, putOp, hins, bdbTempTablePut_fst, isSelectvRowOp, dependentKey, blockKey]

/-- An `OSQL_UPDREC` of a table remembers the genid it carries and is saved in
the main table. -/
theorem osqlBplogSaveop_updrec (hre : tran.isReorderOn = true) (ht : op.type = .updrec)
    (hidx : tran.tblIdx ≠ ushrtMax) (hname : tran.tablename.isSome = true) :
    osqlBplogSaveop env tran op =
      (0, { tran with
        lastGenid := genidFromRpl op.rpl
        lastIsIns := false
        tranRows := tran.tranRows + 1
        db := (bdbTempTablePut tran.db (blockKey tran.tblIdx (genidFromRpl op.rpl) 1 tran.seq).bytes
          op.rpl).2
        seq := tran.seq + 1 }) := by
  have hname' : tran.tablename ≠ none := by simpa [Option.isSome_iff_ne_none] using hname
  simp [osqlBplogSaveop, preProcessSaveop, ht, hre, setupReorderKey, isRowOp, hidx, reorderKeySwitch,
    lastIsInsSwitch, putOp, hname', bdbTempTablePut_fst, isSelectvRowOp, dependentKey, blockKey]

/-- A dependent request takes the remembered genid and goes to the table of its
record. -/
theorem osqlBplogSaveop_dependent {ti : TempTable} (hre : tran.isReorderOn = true)
    (ht : isDependent op.type = true) (hidx : tran.tblIdx ≠ ushrtMax) (hins : tran.dbIns = some ti) :
    osqlBplogSaveop env tran op =
      (0, if tran.lastIsIns then
          { tran with
            dbIns := some (bdbTempTablePut ti (blockKey tran.tblIdx tran.lastGenid 0 tran.seq).bytes op.rpl).2
            seq := tran.seq + 1 }
        else
          { tran with
            db := (bdbTempTablePut tran.db (blockKey tran.tblIdx tran.lastGenid 0 tran.seq).bytes op.rpl).2
            seq := tran.seq + 1 }) := by
  -- the four dependent requests take the same branches of both switches
  have hcases : op.type = .qblob ∨ op.type = .delidx ∨ op.type = .insidx ∨ op.type = .updcols := by
    cases h : op.type <;> simp_all [isDependent]
  rcases hcases with h | h | h | h <;> cases hl : tran.lastIsIns <;>
    simp [osqlBplogSaveop, preProcessSaveop, h, hre, setupReorderKey, isRowOp, hidx, reorderKeySwitch,
      lastIsInsSwitch, putOp, hins, hl, bdbTempTablePut_fst, isSelectvRowOp, dependentKey, blockKey,
      OplogKey.zero]

end Steps

/-! ## A whole stream -/

section Runs

variable {env : Env}

theorem saveOps_cons_of_ok {tran tran' : Tran} {op : Op} (ops : List Op)
    (h : osqlBplogSaveop env tran op = (0, tran')) : saveOps env tran (op :: ops) = saveOps env tran' ops := by
  simp [saveOps, h]

/-- A run over a concatenation goes on from where the first part left off,
when that part saved everything. -/
theorem saveOps_append {tran tran' : Tran} (l₂ : List Op) :
    ∀ {l₁ : List Op}, saveOps env tran l₁ = (0, tran') → saveOps env tran (l₁ ++ l₂) = saveOps env tran' l₂
  | [], h => by
    simp only [saveOps, Prod.mk.injEq, true_and] at h
    rw [List.nil_append, h]
  | op :: ops, h => by
    rcases hs : osqlBplogSaveop env tran op with ⟨rc, t⟩
    by_cases hrc : rc = 0
    · subst hrc
      rw [List.cons_append, saveOps_cons_of_ok _ hs]
      rw [saveOps_cons_of_ok _ hs] at h
      exact saveOps_append l₂ h
    · -- a failed save ends the run with its code, which is not 0
      simp [saveOps, hs, hrc] at h

theorem putAll_nil (t : TempTable) : putAll t [] = t := rfl

theorem putAll_cons (t : TempTable) (e : ArrElem) (rows : List ArrElem) :
    putAll t (e :: rows) = putAll (bdbTempTablePut t e.key e.dta).2 rows := rfl

theorem putAll_append (t : TempTable) (rows₁ rows₂ : List ArrElem) :
    putAll t (rows₁ ++ rows₂) = putAll (putAll t rows₁) rows₂ := List.foldl_append

/-- The dependent requests after a record go, one row each, to the table of the
record, under its genid. -/
theorem saveOps_deps :
    ∀ {tran : Tran} {ti : TempTable} {ds : List Op}, tran.isReorderOn = true → tran.tblIdx ≠ ushrtMax →
      tran.dbIns = some ti → (∀ d ∈ ds, isDependent d.type = true) →
      saveOps env tran ds =
        (0, if tran.lastIsIns then
            { tran with
              dbIns := some (putAll ti (depRows tran.tblIdx tran.lastGenid tran.seq ds))
              seq := tran.seq + ds.length }
          else
            { tran with
              db := putAll tran.db (depRows tran.tblIdx tran.lastGenid tran.seq ds)
              seq := tran.seq + ds.length })
  | tran, ti, [], _, _, hins, _ => by
    cases tran
    cases hl : ‹Bool›
    all_goals simp_all [saveOps, depRows, putAll]
  | tran, ti, d :: ds, hre, hidx, hins, hd => by
    have hds : ∀ d ∈ ds, isDependent d.type = true := fun d' h => hd d' (List.mem_cons_of_mem d h)
    rw [saveOps_cons_of_ok _ (osqlBplogSaveop_dependent hre (hd d List.mem_cons_self) hidx hins)]
    -- the request's row, then the rest from the next arrival number on
    cases hl : tran.lastIsIns
    · simp only [Bool.false_eq_true, if_false]
      refine (@saveOps_deps _ ti ds ?_ ?_ ?_ hds).trans ?_
      · exact hre
      · exact hidx
      · exact hins
      · simp [depRows, putAll_cons, Nat.add_assoc, Nat.add_comm 1]
    · simp only [if_true]
      refine (@saveOps_deps _ _ ds ?_ ?_ rfl hds).trans ?_
      · exact hre
      · exact hidx
      · simp [depRows, putAll_cons, Nat.add_assoc, Nat.add_comm 1]

/-- The log holds the rows `I` says, put into the tables `db₀` and `ins₀` it was
created with, and the counters `I` reached. -/
structure Tran.Holds (db₀ ins₀ : TempTable) (I : Intended) (tran : Tran) : Prop where
  reorder : tran.isReorderOn = true
  db : tran.db = putAll db₀ I.main
  dbIns : tran.dbIns = some (putAll ins₀ I.ins)
  seq : tran.seq = I.seq
  insSeq : tran.insSeq = UInt64.ofNat I.insSeq

variable {db₀ ins₀ : TempTable}

/-- A block saves its record's row, then its dependents' rows, all under the
block's genid and in the table of the record. -/
theorem saveOps_block {tran : Tran} {I : Intended} {b : Block} (hI : tran.Holds db₀ ins₀ I)
    (hidx : tran.tblIdx ≠ ushrtMax) (hname : tran.tablename.isSome = true) (hb : b.Shape) :
    ∃ tran', saveOps env tran b.ops = (0, tran') ∧ tran'.Holds db₀ ins₀ (I.block tran.tblIdx b) ∧
      tran'.tblIdx = tran.tblIdx ∧ tran'.tablename = tran.tablename := by
  rcases hb.record with h | h
  · -- an insert: the next insert counter, and `db_ins`
    rw [Block.ops, saveOps_cons_of_ok _ (osqlBplogSaveop_insrec hI.reorder h hidx hI.dbIns)]
    refine ⟨_, saveOps_deps ?_ ?_ rfl hb.deps, ⟨?_, ?_, ?_, ?_, ?_⟩, rfl, rfl⟩
    · exact hI.reorder
    · exact hidx
    all_goals
      simp [Intended.block, h, Block.rows, Block.genid, Block.ops, putAll_append, putAll_cons, hI.reorder,
        hI.db, hI.seq, hI.insSeq, Nat.add_assoc, Nat.add_comm 1]
  · -- an update: the genid it carries, and the main table
    have hne : b.record.type ≠ .insrec := by simp [h]
    rw [Block.ops, saveOps_cons_of_ok _ (osqlBplogSaveop_updrec hI.reorder h hidx hname)]
    refine ⟨_, saveOps_deps ?_ ?_ hI.dbIns hb.deps, ⟨?_, ?_, ?_, ?_, ?_⟩, rfl, rfl⟩
    · exact hI.reorder
    · exact hidx
    all_goals
      simp [Intended.block, hne, Block.rows, Block.genid, Block.ops, putAll_append, putAll_cons, hI.reorder,
        hI.db, hI.dbIns, hI.seq, hI.insSeq, Nat.add_assoc, Nat.add_comm 1]

/-- The blocks of a segment, one after another, under the segment's table. -/
theorem saveOps_blocks {t : UInt16} (ht : t ≠ ushrtMax) :
    ∀ {tran : Tran} {I : Intended} {bs : List Block}, tran.Holds db₀ ins₀ I → tran.tblIdx = t →
      tran.tablename.isSome = true → (∀ b ∈ bs, b.Shape) →
      ∃ tran', saveOps env tran (bs.flatMap Block.ops) = (0, tran') ∧
        tran'.Holds db₀ ins₀ (bs.foldl (Intended.block t) I)
  | tran, _, [], hI, _, _, _ => ⟨tran, rfl, hI⟩
  | tran, I, b :: bs, hI, hidx, hname, hb => by
    obtain ⟨tran₁, hrun₁, hI₁, hidx₁, hname₁⟩ :=
      saveOps_block hI (hidx ▸ ht) hname (hb b List.mem_cons_self)
    rw [hidx] at hI₁
    obtain ⟨tran₂, hrun₂, hI₂⟩ := saveOps_blocks ht hI₁ (hidx₁.trans hidx) (hname₁ ▸ hname)
      fun b' h => hb b' (List.mem_cons_of_mem b h)
    exact ⟨tran₂, by rw [List.flatMap_cons, saveOps_append _ hrun₁, hrun₂], hI₂⟩

/-- A segment saves its `OSQL_USEDB`, then its blocks under the table it names. -/
theorem saveOps_segment {tran : Tran} {I : Intended} {s : Segment} (hI : tran.Holds db₀ ins₀ I)
    (hs : s.Shape env) :
    ∃ tran', saveOps env tran s.ops = (0, tran') ∧ tran'.Holds db₀ ins₀ (I.segment env s) := by
  rw [Segment.ops, saveOps_cons_of_ok _ (osqlBplogSaveop_usedb hI.reorder hs.usedb hs.notQueue),
    Intended.segment, Intended.useTable]
  refine saveOps_blocks hs.tblIdx ⟨?_, ?_, ?_, ?_, ?_⟩ ?_ ?_ hs.blocks
  all_goals simp [putAll_append, putAll_cons, putAll_nil, hI.reorder, hI.db, hI.dbIns, hI.seq, hI.insSeq,
    Segment.tblIdx]

/-- The segments of a stream, one after another. -/
theorem saveOps_segments :
    ∀ {tran : Tran} {I : Intended} {segs : List Segment}, tran.Holds db₀ ins₀ I →
      (∀ s ∈ segs, s.Shape env) →
      ∃ tran', saveOps env tran (stream segs) = (0, tran') ∧
        tran'.Holds db₀ ins₀ (segs.foldl (Intended.segment env) I)
  | tran, _, [], hI, _ => ⟨tran, rfl, hI⟩
  | _, _, s :: segs, hI, hs => by
    obtain ⟨tran₁, hrun₁, hI₁⟩ := saveOps_segment hI (hs s List.mem_cons_self)
    obtain ⟨tran₂, hrun₂, hI₂⟩ := saveOps_segments hI₁ fun s' h => hs s' (List.mem_cons_of_mem s h)
    exact ⟨tran₂, by rw [stream, List.flatMap_cons, saveOps_append _ hrun₁, ← stream, hrun₂], hI₂⟩

/-- A stream of well-formed segments, saved into a log created with reordering
on: every request is saved, and the two tables hold the rows `intendedRows`
says. -/
theorem saveOps_stream (put : BtPut) (temptableMemThreshold temptableCachesz : ℕ) (isSelectvWlUpd : Bool)
    {segs : List Segment} (hs : ∀ s ∈ segs, s.Shape env) :
    ∃ tran, saveOps env (osqlBplogCreate put temptableMemThreshold temptableCachesz true isSelectvWlUpd)
        (stream segs) = (0, tran) ∧
      tran.Holds
        (bdbTempTableSetCmpFunc (bdbTempArrayCreate put temptableMemThreshold temptableCachesz)
          (some osqlBplogKeyCmp))
        (bdbTempTableSetCmpFunc (bdbTempArrayCreate put temptableMemThreshold temptableCachesz)
          (some osqlBplogInstblKeyCmp))
        (intendedRows env segs) :=
  saveOps_segments ⟨rfl, rfl, rfl, rfl, rfl⟩ hs

end Runs

end Osql
