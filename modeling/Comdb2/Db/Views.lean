import Mathlib

/-!
# Time partitions: naming the next shard

A time partition (`struct timepart_view`, `db/views.c`) keeps its shards newest
first.  A rollout creates the next shard (`_views_rollout_phase1`), puts it in
front (`_views_rollout_phase2`), and once the partition is full drops the
oldest (`_views_rollout_phase3`).  The next shard's name comes from a number
and a base name (`_generate_new_shard_name`): `"$<n>_<crc>"`.  The number
(`_generate_new_shard_name_wrapper`) is `nshards` while the oldest shard is
the original table, and otherwise the newest shard's number plus one, modulo
`retention + 1`, or 0 when that number is past the retention.  Phase 1 refuses
a name that is already a table (`_next_shard_exists`).

The numbers of a full partition are `retention` consecutive numbers modulo
`retention + 1`, so the next one is free.  `timepart_update_retention` can
raise the retention, which changes the modulus, and tries to allow it only
when the shards are numbered from 0 or 1 up.  It tests the first digit of the
oldest shard's number (`tblname[1]`), so a partition of retention 12 whose
oldest shard is `$10` passes the test.  The numbers then run on past 9 to 10,
and the second rollout after the change names the oldest shard, which is still
live (`nextShardName_live`).

Names are lists of characters.  The `%X` of the crc32c of `"<n><base>"` is
replaced by that string itself, which makes a generated name a function of the
number and the base, as if crc32c were injective; the code reads only the `$`,
the digits and the `_` of a name.  Scheduling, rollout times and the llmeta
writes are left out, and the schema changes that add and drop shards are taken
to succeed.
-/

namespace Views

/-- A table name. -/
abbrev Name := List Char

/-- `enum view_partition_period`. -/
inductive Period
  | invalid
  | daily
  | weekly
  | monthly
  | yearly
  | test2min
  | manual
deriving DecidableEq, Repr

/-- `VIEW_ERR_PURGE`, `VIEW_ERR_EXIST` and `VIEW_ERR_GENERIC`. -/
def viewErrPurge : ℤ := -9

def viewErrExist : ℤ := -3

def viewErrGeneric : ℤ := -1

/-- `struct timepart_view`, as far as naming reads it; `nshards` is the length
of `shards`. -/
structure TimepartView where
  period : Period
  retention : ℕ
  shards : List Name
  shard0name : Name
deriving DecidableEq, Repr

/-- A partition and the tables of the database. -/
structure PartState where
  view : TimepartView
  tables : List Name
deriving DecidableEq, Repr

/-! ## Names -/

/-- The decimal digits of a number, as `%u` prints them. -/
def digits (n : ℕ) : Name := Nat.toDigits 10 n

/-- `atoi` of a string of digits: the number its leading digits spell. -/
def atoi (s : Name) : ℕ :=
  (s.takeWhile Char.isDigit).foldl (fun n c => 10 * n + (c.toNat - '0'.toNat)) 0

/-- `strcasecmp(a, b) == 0`. -/
def caseEq (a b : Name) : Bool := a.map Char.toLower == b.map Char.toLower

/-- `_shard_suffix_str_len`: the digits of `maxshards + 1`. -/
def shardSuffixStrLen (maxshards : ℕ) : ℕ :=
  if maxshards + 1 < 10 then 1 else if maxshards + 1 < 100 then 2 else 3

/-- `_generate_new_shard_name`.  In testing mode the old name and the number
padded with zeros; otherwise `$`, the number, `_`, and for the crc of
`"<n><oldname>"` that string.  A name that does not fit `MAXTABLELEN + 1`
bytes with its NUL is an error; a generated `"$<n>_%X"` always fits. -/
def generateNewShardName (oldname : Name) (nextnum maxshards : ℕ) (testing : Bool) :
    Option Name :=
  if testing then
    let suffix := List.replicate (shardSuffixStrLen maxshards - (digits nextnum).length) '0' ++
      digits nextnum
    if 33 ≤ (oldname ++ suffix).length then none else some (oldname ++ suffix)
  else some (['$'] ++ digits nextnum ++ ['_'] ++ (digits nextnum ++ oldname))

/-- `_extract_shardname_index`: 0 for the original table, else the number after
the `$` (in testing mode, after the original name). -/
def extractShardnameIndex (tblName originalName : Name) (testing : Bool) : ℕ :=
  if caseEq tblName originalName then 0
  else if testing then atoi (tblName.drop originalName.length)
  else atoi (tblName.drop 1)

/-- The newest and the oldest shard, `shards[0]` and `shards[nshards - 1]`. -/
def TimepartView.newest (v : TimepartView) : Name := v.shards.headD []

def TimepartView.oldest (v : TimepartView) : Name := v.shards.getLastD []

/-- `_generate_new_shard_name_wrapper(view, ..., retention)`: the number of the
next shard, and its name. -/
def nextShardNum (v : TimepartView) (retention : ℕ) : ℕ :=
  if v.oldest.head? = some '$' ∨ (v.period = .test2min ∧ v.retention = v.shards.length) then
    let nextNum := extractShardnameIndex v.newest v.shard0name (v.period = .test2min)
    if nextNum > retention then 0 else (nextNum + 1) % (retention + 1)
  else v.shards.length

def generateNewShardNameWrapper (v : TimepartView) (retention : ℕ) : Option Name :=
  generateNewShardName v.shard0name (nextShardNum v retention) retention (v.period = .test2min)

/-! ## Rollouts -/

/-- `_views_rollout_phase1`: refuse while the evicted shard is not dropped, or
when the next name is a table (`_next_shard_exists`); else create the table. -/
def viewsRolloutPhase1 (s : PartState) : Except ℤ (PartState × Name) :=
  if s.view.shards.length = s.view.retention + 1 then .error viewErrPurge
  else
    match generateNewShardNameWrapper s.view s.view.retention with
    | none => .error viewErrGeneric
    | some newShardName =>
      if newShardName ∈ s.tables then .error viewErrExist
      else .ok ({ s with tables := newShardName :: s.tables }, newShardName)

/-- `_views_rollout_phase2`: the new shard goes in front; a full partition
gives up its oldest shard. -/
def viewsRolloutPhase2 (v : TimepartView) (newShardName : Name) : TimepartView × Option Name :=
  if v.shards.length = v.retention then
    ({ v with shards := newShardName :: v.shards.dropLast }, some v.oldest)
  else ({ v with shards := newShardName :: v.shards }, none)

/-- `_views_rollout_phase3`: the evicted shard's table is dropped. -/
def viewsRolloutPhase3 (tables : List Name) (oldestShardName : Name) : List Name :=
  tables.erase oldestShardName

/-- A whole rollout: the three phases, the drop before the next rollout. -/
def rollout (s : PartState) : Except ℤ PartState := do
  let (s, newShardName) ← viewsRolloutPhase1 s
  let (v, evicted) := viewsRolloutPhase2 s.view newShardName
  match evicted with
  | some oldest => pure { view := v, tables := viewsRolloutPhase3 s.tables oldest }
  | none => pure { s with view := v }

/-! ## Changing the retention -/

/-- The test `timepart_update_retention` makes before raising the retention: a
full partition whose oldest shard is generated and does not have `0` or `1`
after its `$`. -/
def raiseRefused (v : TimepartView) : Bool :=
  v.shards.length = v.retention && !caseEq v.shard0name v.oldest &&
    v.oldest.head? == some '$' && (v.oldest.drop 1).head? != some '0' &&
    (v.oldest.drop 1).head? != some '1'

/-- `timepart_update_retention(name, retention)`: a raise unless refused; a
cut drops the oldest shards past the new retention. -/
def timepartUpdateRetention (s : PartState) (retention : ℕ) : Except ℤ PartState :=
  if s.view.retention < retention then
    if raiseRefused s.view then .error viewErrExist
    else .ok { s with view := { s.view with retention := retention } }
  else if retention < s.view.retention then
    let extraShards := s.view.shards.drop retention
    .ok { view := { s.view with retention := retention, shards := s.view.shards.take retention }
          tables := s.tables.filter (· ∉ extraShards) }
  else .ok s

/-- What happens to a partition: a rollout or a retention change. -/
inductive Op
  | rollout
  | updateRetention (retention : ℕ)
deriving DecidableEq, Repr

def Op.apply (s : PartState) : Op → Except ℤ PartState
  | .rollout => Views.rollout s
  | .updateRetention r => timepartUpdateRetention s r

/-- A run of operations, each of which must succeed. -/
def runOps (s : PartState) (ops : List Op) : Except ℤ PartState :=
  ops.foldlM Op.apply s

/-! ## Initial partitions -/

/-- A partition made from an existing table: it is its only shard and names
the others. -/
def legacyPartition (period : Period) (retention : ℕ) (table : Name) : PartState :=
  { view := { period, retention, shards := [table], shard0name := table }
    tables := [table] }

/-- The names `timepart_populate_shards` gives, from shard `i` on: shard `i`
takes number `i` and the name of shard `i - 1` (the view's name for shard 0) as
its base. -/
def populatedNames (testing : Bool) (retention : ℕ) : Name → ℕ → ℕ → Option (List Name)
  | _, _, 0 => some []
  | oldName, i, k + 1 =>
    match generateNewShardName oldName i retention testing with
    | none => none
    | some newName => (populatedNames testing retention newName (i + 1) k).map (newName :: ·)

/-- A partition made by `timepart_populate_shards` for the view `name`: all its
shards at once, none of them a table already, and `"<none>"` as `shard0name`. -/
def populatedPartition (period : Period) (retention : ℕ) (name : Name) (tables : List Name) :
    Option PartState :=
  match populatedNames (period = .test2min) retention name 0 retention with
  | none => none
  | some shards =>
    if shards.any (· ∈ tables) then none
    else some { view := { period, retention, shards, shard0name := "<none>".toList }
                tables := shards ++ tables }

/-! ## A raise that the test lets through -/

/-- A daily partition made from table `t` with retention 12: 21 rollouts bring
its oldest shard to `$10`, the retention is raised to 13, and one more rollout
is made. -/
def raiseRun : List Op := List.replicate 21 .rollout ++ [.updateRetention 13, .rollout]

/-- Every step of `raiseRun` succeeds, and then the next shard's name is the
oldest shard's, `$10`: the next rollout fails with `VIEW_ERR_EXIST`. -/
theorem nextShardName_live :
    (∃ s, runOps (legacyPartition .daily 12 ['t']) raiseRun = .ok s ∧
      ∃ n ∈ s.view.shards, generateNewShardNameWrapper s.view s.view.retention = some n) ∧
    runOps (legacyPartition .daily 12 ['t']) (raiseRun ++ [.rollout]) = .error viewErrExist :=
  ⟨⟨_, rfl, ['$', '1', '0', '_', '1', '0', 't'], by decide, by decide⟩, by decide⟩

end Views
