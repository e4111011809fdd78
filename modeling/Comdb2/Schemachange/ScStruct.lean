import Comdb2.Db.Serial

/-!
# Persisting a schema change: the legacy encoding

A schema change is saved in the low level meta table so that a new master can
resume it (`pack_schema_change_type`, `schemachange/sc_struct.c`).  With
`gbl_sc_protobuf` off the packer first computes the size of the buffer
(`schemachange_packed_size`), writes the descriptor into a buffer of exactly
that size (`buf_put_schemachange`), and fails unless the writer ended exactly at
the end of the buffer.

The size and the writer agree on every field but one.  `dests_field_packed_size`
counts the `int` count of the destinations and, for each, an `int` and its
bytes, which is what `buf_put_dests` writes (`fieldsLength_destsFields`).  A
timed retroactive partition (`PARTITION_ADD_TIMED_RETRO`) is counted by
`_partition_packed_size` with its period, retention and start, but the
writer's `switch` writes only its type.  So the writer writes the fields in
order and nothing else (`putFields_eq`), and it ends exactly at the computed
size but for those sixteen bytes (`length_bufPutSchemachange`): the legacy
packer fails on every retroactive partition (`packSchemaChangeType_legacy`)
and packs every other descriptor into a buffer of the computed size
(`packSchemaChangeType_legacy_ok`).

The writer is modelled as the list of the fields it puts, in order, each with
the call that puts it (`buf_put` swaps a field of 2, 4 or 8 bytes to network
order, `buf_no_net_put` copies it); `putFields` runs the calls against the end
of the buffer as `buf_put` does.  The protobuf packer is a parameter, and the
readers (`buf_get_schemachange_v2` and the protobuf decoder) are not modelled.
-/
namespace ScStruct

open Bytes Serial

/-! ## The descriptor -/

/-- `MAXTABLELEN`, the length of `tablename`, `newtable` and (as `MAX_SPNAME`)
`spname`. -/
def maxtablelen : ℕ := 32

/-- A `char` array of `n` bytes. -/
abbrev CharArray (n : ℕ) := List.Vector UInt8 n

/-- `enum comdb2_partition_type`, with the payload of the types the size
function knows. -/
inductive Partition
  | none
  | remove
  | merge (tablename : CharArray maxtablelen) (version : ℤ)
  | addTimed (period retention : ℕ) (start : ℕ)
  | addManual (period retention : ℕ) (start : ℕ)
  | addGenshard (tablename : CharArray maxtablelen) (dbnames columns shardnames : List (List UInt8))
  | remGenshard
  | addTimedRetro (period retention : ℕ) (start : ℕ)

/-- The value of `enum comdb2_partition_type`. -/
def Partition.type : Partition → ℤ
  | .none => 0
  | .remove => 1
  | .merge .. => 2
  | .addTimed .. => 20
  | .addManual .. => 21
  | .addGenshard .. => 71
  | .remGenshard => 73
  | .addTimedRetro .. => 74

/-- The persistent members of `struct schema_change_type` that
`buf_put_schemachange` writes.  A string field is its string without the NUL
(`tablename`, `fname`, `aname`, `spname`, `newcsc2`); `uuid`, `newtable` and
`source_node` are written whole, as arrays.  `dests` are the strings of the
destination list. -/
structure SchemaChangeType where
  kind : ℤ
  rqid : ℕ
  uuid : CharArray 16
  tablename : List UInt8
  fname : List UInt8
  aname : List UInt8
  avgitemsz : ℤ
  newdtastripe : ℤ
  blobstripe : ℤ
  live : ℤ
  newcsc2 : Option (List UInt8)
  scanmode : ℤ
  delayCommit : ℤ
  forceRebuild : ℤ
  forceDtaRebuild : ℤ
  forceBlobRebuild : ℤ
  force : ℤ
  headers : ℤ
  headerChange : ℤ
  compress : ℤ
  compressBlobs : ℤ
  persistentSeq : ℤ
  ipUpdates : ℤ
  instantSc : ℤ
  preempted : ℤ
  usePlan : ℤ
  commitSleep : ℤ
  convertSleep : ℤ
  sameSchema : ℤ
  dbnum : ℤ
  flg : ℕ
  rebuildIndex : UInt8
  indexToRebuild : UInt8
  sourceNode : CharArray 256
  dests : List (List UInt8)
  spname : List UInt8
  luaFuncFlags : ℤ
  newtable : CharArray maxtablelen
  usedbtablevers : ℤ
  qdbFileVer : ℕ
  partition : Partition
  preserveOplogCount : ℤ

/-! ## Sizes -/

/-- The `w` bytes of an integer in amd64 memory, least significant first. -/
def memBytes (w : ℕ) (x : ℤ) : List UInt8 := (toBE w (x % 2 ^ (8 * w)).toNat).reverse

@[simp] theorem length_memBytes (w : ℕ) (x : ℤ) : (memBytes w x).length = w := by
  simp [memBytes]

/-- `strlen(s) + 1`, what the packer stores in `tablename_len` and its kin. -/
def strLen (s : List UInt8) : ℕ := s.length + 1

/-- `dests_field_packed_size`: the `int` count, and an `int` and the bytes of
each destination. -/
def destsFieldPackedSize (s : SchemaChangeType) : ℕ :=
  4 + (s.dests.map fun d => 4 + d.length).sum

/-- `_partition_packed_size`. -/
def partitionPackedSize : Partition → ℕ
  | .none | .remove | .remGenshard => 4
  | .addTimed .. | .addTimedRetro .. | .addManual .. => 4 + 4 + 4 + 8
  | .merge .. => 4 + maxtablelen + 4
  | .addGenshard _ dbnames columns shardnames =>
    4 + maxtablelen + 4 + (dbnames.map strLen).sum + 4 + (columns.map strLen).sum +
      (shardnames.map strLen).sum

/-- `schemachange_packed_size`: `size_t` lengths are 8 bytes, `int` and enum
fields 4, `uuid_t` 16, `source_node` 256. -/
def schemachangePackedSize (s : SchemaChangeType) : ℕ :=
  4 + 8 + 16 + 8 + strLen s.tablename + 8 + strLen s.fname + 8 + strLen s.aname +
    4 + 4 + 4 + 4 + 8 + (s.newcsc2.map strLen).getD 0 +
    4 + 4 + 4 + 4 + 4 + 4 + 4 + 4 + 4 + 4 + 4 + 4 + 4 + 4 + 4 + 4 + 4 + 4 + 4 + 4 +
    1 + 1 + 256 + destsFieldPackedSize s + 8 + strLen s.spname + 4 + maxtablelen + 4 + 8 +
    partitionPackedSize s.partition + 4

/-! ## The writer -/

/-- One call of `buf_put` (`net`) or `buf_no_net_put` against a buffer of `cap`
bytes: the bytes written so far, or `none` once a call has returned NULL. -/
def putAt (cap : ℕ) (acc : Option (List UInt8)) (field : Bool × List UInt8) :
    Option (List UInt8) :=
  match acc with
  | none => none
  | some out =>
    if field.2.length ≤ cap - out.length then
      some (out ++ if field.1 then bswapField field.2 else field.2)
    else none

/-- A run of calls, each on the pointer the last returned. -/
def putFields (cap : ℕ) (fields : List (Bool × List UInt8)) : Option (List UInt8) :=
  fields.foldl (putAt cap) (some [])

/-- `buf_put` of an integer field of `w` bytes. -/
def net (w : ℕ) (x : ℤ) : Bool × List UInt8 := (true, memBytes w x)

/-- `buf_no_net_put` of bytes. -/
def raw (b : List UInt8) : Bool × List UInt8 := (false, b)

/-- The calls of the partition `switch`: the type, then the payload of the
types it names.  `PARTITION_ADD_TIMED_RETRO` is not among them. -/
def partitionFields : Partition → List (Bool × List UInt8)
  | p@(.addTimed period retention start) | p@(.addManual period retention start) =>
    [net 4 p.type, net 4 period, net 4 retention, net 8 start]
  | p@(.merge tablename version) =>
    [net 4 p.type, raw tablename.toList, net 4 version]
  | p@(.addGenshard tablename dbnames columns shardnames) =>
    [net 4 p.type, raw tablename.toList, net 4 dbnames.length] ++ dbnames.map (fun d => raw (d ++ [0])) ++
      [net 4 columns.length] ++ columns.map (fun c => raw (c ++ [0])) ++
      shardnames.map (fun d => raw (d ++ [0]))
  | p => [net 4 p.type]

/-- The calls of `buf_put_dests`: the `int` count, then for each destination
its `int` length and, unless it is empty, its bytes. -/
def destsFields (dests : List (List UInt8)) : List (Bool × List UInt8) :=
  net 4 dests.length :: dests.flatMap fun d => net 4 d.length :: if d.length ≠ 0 then [raw d] else []

/-- The calls of `buf_put_schemachange`, in order. -/
def schemachangeFields (s : SchemaChangeType) : List (Bool × List UInt8) :=
  [net 4 s.kind, net 8 s.rqid, raw s.uuid.toList,
    net 8 (strLen s.tablename), raw (s.tablename ++ [0]),
    net 8 (strLen s.fname), raw (s.fname ++ [0]),
    net 8 (strLen s.aname), raw (s.aname ++ [0]),
    net 4 s.avgitemsz, net 4 s.newdtastripe, net 4 s.blobstripe, net 4 s.live,
    net 8 ((s.newcsc2.map strLen).getD 0)] ++
  (match s.newcsc2 with
    | some c => [raw (c ++ [0])]
    | none => []) ++
  [net 4 s.scanmode, net 4 s.delayCommit, net 4 s.forceRebuild, net 4 s.forceDtaRebuild,
    net 4 s.forceBlobRebuild, net 4 s.force, net 4 s.headers, net 4 s.headerChange,
    net 4 s.compress, net 4 s.compressBlobs, net 4 s.persistentSeq, net 4 s.ipUpdates,
    net 4 s.instantSc, net 4 s.preempted, net 4 s.usePlan, net 4 s.commitSleep,
    net 4 s.convertSleep, net 4 s.sameSchema, net 4 s.dbnum, net 4 s.flg,
    net 1 s.rebuildIndex.toNat, net 1 s.indexToRebuild.toNat, raw s.sourceNode.toList] ++
  destsFields s.dests ++
  [net 8 (strLen s.spname), raw (s.spname ++ [0]), net 4 s.luaFuncFlags,
    raw s.newtable.toList, net 4 s.usedbtablevers, net 8 s.qdbFileVer] ++
  partitionFields s.partition ++ [net 4 s.preserveOplogCount]

/-- `buf_put_schemachange(s, p_buf, p_buf + cap)`: the bytes written, or `none`
for a NULL result. -/
def bufPutSchemachange (s : SchemaChangeType) (cap : ℕ) : Option (List UInt8) :=
  if cap = 0 then none else putFields cap (schemachangeFields s)

/-- `pack_schema_change_type`: the return code and the packed buffer.  With
`gbl_sc_protobuf` on it is `packProtobuf`, the protobuf packer. -/
def packSchemaChangeType (gblScProtobuf : Bool)
    (packProtobuf : SchemaChangeType → ℤ × Option (List UInt8)) (s : SchemaChangeType) :
    ℤ × Option (List UInt8) :=
  if gblScProtobuf then packProtobuf s
  else
    let packedLen := schemachangePackedSize s
    match bufPutSchemachange s packedLen with
    | some out => if out.length = packedLen then (0, some out) else (-1, none)
    | none => (-1, none)

/-! ## What the writer writes -/

/-- The bytes a call puts: a `buf_put` field swapped to network order, a
`buf_no_net_put` one as it is. -/
def fieldBytes (field : Bool × List UInt8) : List UInt8 :=
  if field.1 then bswapField field.2 else field.2

/-- The bytes a run of calls writes when none fails. -/
def fieldsLength (fields : List (Bool × List UInt8)) : ℕ := (fields.map fun f => f.2.length).sum

@[simp] theorem fieldsLength_nil : fieldsLength [] = 0 := rfl

@[simp] theorem fieldsLength_cons (f : Bool × List UInt8) (fs : List (Bool × List UInt8)) :
    fieldsLength (f :: fs) = f.2.length + fieldsLength fs := by
  simp [fieldsLength]

@[simp] theorem fieldsLength_append (fs gs : List (Bool × List UInt8)) :
    fieldsLength (fs ++ gs) = fieldsLength fs + fieldsLength gs := by
  simp [fieldsLength]

@[simp] theorem length_net (w : ℕ) (x : ℤ) : (net w x).2.length = w := by simp [net]

@[simp] theorem length_raw (b : List UInt8) : (raw b).2.length = b.length := rfl

@[simp] theorem length_fieldBytes (f : Bool × List UInt8) : (fieldBytes f).length = f.2.length := by
  obtain ⟨net, b⟩ := f
  cases net <;> simp [fieldBytes]

/-- A call that succeeds was given a live pointer and moves it by the field. -/
theorem putAt_eq_some {cap : ℕ} {acc : Option (List UInt8)} {f : Bool × List UInt8}
    {a : List UInt8} (h : putAt cap acc f = some a) :
    ∃ a₀, acc = some a₀ ∧ a.length = a₀.length + f.2.length := by
  obtain ⟨net, b⟩ := f
  cases acc with
  | none => simp [putAt] at h
  | some out =>
    by_cases hc : b.length ≤ cap - out.length
    · rw [putAt, if_pos hc] at h
      cases h
      exact ⟨out, rfl, by cases net <;> simp⟩
    · rw [putAt, if_neg hc] at h
      cases h

theorem foldl_putAt_length (cap : ℕ) : ∀ (fields : List (Bool × List UInt8))
    {acc : Option (List UInt8)} {out : List UInt8}, fields.foldl (putAt cap) acc = some out →
      ∃ a, acc = some a ∧ out.length = a.length + fieldsLength fields
  | [], acc, out, h => ⟨out, h, by simp⟩
  | f :: fs, acc, out, h => by
    obtain ⟨a, ha, hlen⟩ := foldl_putAt_length cap fs h
    obtain ⟨a₀, rfl, ha₀⟩ := putAt_eq_some ha
    exact ⟨a₀, rfl, by simp only [fieldsLength_cons]; omega⟩

/-- A run that succeeds writes every field. -/
theorem length_putFields {cap : ℕ} {fields : List (Bool × List UInt8)} {out : List UInt8}
    (h : putFields cap fields = some out) : out.length = fieldsLength fields := by
  obtain ⟨a, ha, hlen⟩ := foldl_putAt_length cap fields h
  cases ha
  simpa using hlen

/-- Calls with room for all their fields append them all. -/
theorem foldl_putAt_eq (cap : ℕ) : ∀ (fields : List (Bool × List UInt8)) (acc : List UInt8),
    acc.length + fieldsLength fields ≤ cap →
      fields.foldl (putAt cap) (some acc) = some (acc ++ fields.flatMap fieldBytes)
  | [], acc, _ => by simp
  | f :: fs, acc, h => by
    simp only [fieldsLength_cons] at h
    have hroom : f.2.length ≤ cap - acc.length := by omega
    rw [List.foldl_cons, putAt, if_pos hroom, ← fieldBytes,
      foldl_putAt_eq cap fs _ (by simp only [List.length_append, length_fieldBytes]; omega)]
    simp

/-- Against a buffer with room for them, the calls write the fields in order
and nothing else. -/
theorem putFields_eq {cap : ℕ} {fields : List (Bool × List UInt8)} (h : fieldsLength fields ≤ cap) :
    putFields cap fields = some (fields.flatMap fieldBytes) := by
  rw [putFields]
  simpa using foldl_putAt_eq cap fields [] (by simpa using h)

/-! ## The size and the writer -/

/-- What the size counts for a partition and the `switch` does not write: the
payload of a timed retroactive one. -/
def retroPayload : Partition → ℕ
  | .addTimedRetro .. => 4 + 4 + 8
  | _ => 0

theorem sum_map_strLen (l : List (List UInt8)) :
    (l.map strLen).sum = (l.map List.length).sum + l.length := by
  induction l with
  | nil => rfl
  | cons d l ih => simp [strLen, ih]; omega

theorem fieldsLength_partitionFields (p : Partition) :
    fieldsLength (partitionFields p) + retroPayload p = partitionPackedSize p := by
  cases p <;> simp [partitionFields, retroPayload, partitionPackedSize, fieldsLength,
    sum_map_strLen, Function.comp_def] <;> omega

/-- `buf_put_dests` writes what `dests_field_packed_size` counts. -/
theorem fieldsLength_destsFields (dests : List (List UInt8)) :
    fieldsLength (destsFields dests) = 4 + (dests.map fun d => 4 + d.length).sum := by
  rw [destsFields, fieldsLength_cons, length_net]
  congr 1
  induction dests with
  | nil => rfl
  | cons d dests ih =>
    rw [List.flatMap_cons, fieldsLength_append, ih, List.map_cons, List.sum_cons, fieldsLength_cons,
      length_net]
    -- an empty destination puts its length and no bytes
    by_cases hd : d.length = 0 <;> simp [hd]

/-- The calls write every counted byte but a retroactive partition's payload. -/
theorem fieldsLength_schemachangeFields (s : SchemaChangeType) :
    fieldsLength (schemachangeFields s) + retroPayload s.partition = schemachangePackedSize s := by
  have hp := fieldsLength_partitionFields s.partition
  have hd := fieldsLength_destsFields s.dests
  cases hc : s.newcsc2 <;>
    simp only [schemachangeFields, schemachangePackedSize, destsFieldPackedSize, hc, strLen,
      fieldsLength_append, fieldsLength_cons, fieldsLength_nil, length_net, length_raw,
      List.Vector.toList_length, List.length_append, List.length_singleton, Option.map_some,
      Option.map_none, Option.getD_some, Option.getD_none] <;>
      omega

/-- What `buf_put_schemachange` writes, when it does not fail. -/
theorem length_bufPutSchemachange {s : SchemaChangeType} {cap : ℕ} {out : List UInt8}
    (h : bufPutSchemachange s cap = some out) :
    out.length + retroPayload s.partition = schemachangePackedSize s := by
  unfold bufPutSchemachange at h
  split_ifs at h
  rw [length_putFields h, fieldsLength_schemachangeFields]

/-! ## The legacy packer -/

/-- With `gbl_sc_protobuf` off, `pack_schema_change_type` fails on every
descriptor of a timed retroactive partition: the writer ends sixteen bytes
before the end of the buffer. -/
theorem packSchemaChangeType_legacy
    (packProtobuf : SchemaChangeType → ℤ × Option (List UInt8)) (s : SchemaChangeType)
    (period retention start : ℕ) :
    packSchemaChangeType false packProtobuf { s with partition := .addTimedRetro period retention start } =
      (-1, none) := by
  unfold packSchemaChangeType
  rw [if_neg Bool.false_ne_true]
  dsimp only
  split
  · rename_i out hout
    have := length_bufPutSchemachange hout
    simp only [retroPayload] at this
    rw [if_neg (by omega)]
  · rfl

/-- ... and packs every other descriptor into a buffer of the computed size,
holding the fields in order. -/
theorem packSchemaChangeType_legacy_ok
    (packProtobuf : SchemaChangeType → ℤ × Option (List UInt8)) {s : SchemaChangeType}
    (h : retroPayload s.partition = 0) :
    packSchemaChangeType false packProtobuf s = (0, some ((schemachangeFields s).flatMap fieldBytes)) := by
  have hlen := fieldsLength_schemachangeFields s
  rw [h, add_zero] at hlen
  have hpos : schemachangePackedSize s ≠ 0 := by
    simp [schemachangePackedSize]
  have hput : bufPutSchemachange s (schemachangePackedSize s) =
      some ((schemachangeFields s).flatMap fieldBytes) := by
    rw [bufPutSchemachange, if_neg hpos, putFields_eq hlen.le]
  have hout : ((schemachangeFields s).flatMap fieldBytes).length = schemachangePackedSize s := by
    rw [← hlen, fieldsLength]
    simp
  unfold packSchemaChangeType
  rw [if_neg Bool.false_ne_true]
  dsimp only
  rw [hput]
  simp only [hout]
  rfl

end ScStruct
