import Comdb2.Lib.Bytes
import Comdb2.Lib.Qsort

/-!
# Serializable read sets

A serializable transaction records the key range each of its cursors read
(`CurRange`, `db/comdb2.h`).  Before commit the client coalesces them
(`currangearr_coalesce`, `db/sqlglue.c`): it sorts the ranges with `qsort` and
`currange_cmp`, folds each range into the kept range before it when the two
overlap (`currangearr_merge_neighbor`), and does both steps twice.  The ranges
travel to the master in an `OSQL_SERIAL` message (`serial_readset_put` and
`serial_readset_get`, `db/osqlcomm.c`), which indexes them by table and index
(`currangearr_build_hash`).  Every write of a concurrent transaction is tested
against them (`serial_check_callback`, `db/glue.c`), and a hit fails the commit.

`covers r t i k` is the test `serial_check_callback` applies to one range.  A
locked range covers every write to its table.  Any other range covers a keyed
write to its index whose key lies between its bounds.  Bounds are compared with
`memcmp` over the shorter of two lengths, so a key ties with every bound it is a
prefix of, and the other way round.

What is proved.
* The wire format round-trips.  Reading back what `serial_readset_put` wrote
  gives every range in its transferred form (`serialReadsetGet_put`), and that
  form covers what the range covered (`covers_transferred`).
* Folding a range into the kept one never narrows the kept one
  (`mergeInto_covers`).  When the folded range's right key is above the kept
  one's, the C code swaps the two key pointers and keeps the kept range's
  length, so its right key is read from the folded range's buffer.  A buffer
  shorter than that length is read past its end; what memory holds there is
  the parameter `beyond` of the merge, and every statement here holds for all
  of it.
* The hash finds every range.  A write covered by an unlocked range of the array
  is caught by `serial_check_callback` (`serialCheckCallback_of_covers`).
* A conflict can still be lost.  When the kept range's right key is longer than
  the folded range's, and the two agree on the shorter length, the merge keeps
  the longer key, which can be the smaller bound.  Take the ranges `["0", "aa"]`
  and `["a", "a"]` of one index.  The write of key `"ab"` is covered by the
  second, but the coalesced set misses it, for every `qsort` that keeps the C
  standard's promise (`serialCheck_misses_prefix_conflict`).

The sort is the parameter `qsort`, constrained by `Qsort.IsQsort`.  The byte
order on the wire is the one `buf_put` and `buf_get` give on amd64.
-/

namespace Serial

open Bytes Qsort

/-! ## Ranges and their order -/

/-- A recorded cursor range (`CurRange`).  A key is `none` for a NULL pointer and
its bytes otherwise, whose length is the C length field.  A recorded range always
names its table, so the NULL name of a fresh range is left out. -/
structure CurRange where
  tbname : List UInt8
  idxnum : Int
  lkey : Option (List UInt8)
  rkey : Option (List UInt8)
  lflag : Bool
  rflag : Bool
  islocked : Bool
  deriving DecidableEq, Repr

/-- `memcmp(a, b, min(alen, blen))`, the form every key comparison here takes.  A
NULL key has length 0. -/
def keyCmp (a b : Option (List UInt8)) : Ordering :=
  memcmp (a.getD []) (b.getD []) (min (a.getD []).length (b.getD []).length)

theorem keyCmp_eq (a b : Option (List UInt8)) :
    keyCmp a b = Lex.prefixCmp (a.getD []) (b.getD []) :=
  memcmp_min _ _

/-- `currange_cmp`: by table name, locked ranges first, then by index, an open
left end first, and last by left key, the shorter key first on a tie. -/
def currangeCmp (l r : CurRange) : Ordering :=
  (Lex.cmp l.tbname r.tbname).then <|
    if l.islocked || r.islocked then compare r.islocked.toNat l.islocked.toNat
    else if l.idxnum ≠ r.idxnum then compare l.idxnum r.idxnum
    else if l.lflag then .lt
    else if r.lflag then .gt
    else match l.lkey, r.lkey with
      | some a, some b => (keyCmp (some a) (some b)).then (compare a.length b.length)
      | _, _ => .eq

/-- An unlocked range open at its left end compares below itself. -/
theorem currangeCmp_self_of_lflag {r : CurRange} (hl : r.lflag = true) (hu : r.islocked = false) :
    currangeCmp r r = .lt := by
  simp [currangeCmp, hl, hu]

/-- So `currange_cmp` is consistent on no array holding such a range, and the C
standard then promises nothing of `qsort` for it. -/
theorem not_totalOn_of_lflag {arr : List CurRange} {r : CurRange} (hr : r ∈ arr)
    (hl : r.lflag = true) (hu : r.islocked = false) : ¬ TotalOn currangeCmp arr := by
  intro htot
  have hswap := htot.1 r hr r hr
  rw [currangeCmp_self_of_lflag hl hu] at hswap
  cases hswap

/-- The bounds test of `serial_check_callback` for one range and a key. -/
def keyInRange (r : CurRange) (key : List UInt8) : Bool :=
  (r.lflag || keyCmp r.lkey (some key) ≠ .gt) && (r.rflag || keyCmp (some key) r.rkey ≠ .gt)

/-- The writes a range stands for.  A locked range covers every write to its
table.  Another range covers a keyed write to its index with the key between its
bounds.  A key of `none` is a write of the data file, which only a lock covers. -/
def covers (r : CurRange) (t : List UInt8) (i : Int) : Option (List UInt8) → Bool
  | none => r.tbname = t && r.islocked
  | some k => r.tbname = t && (r.islocked || (r.idxnum = i && keyInRange r k))

/-! ## Coalescing -/

/-- The `len` bytes read from a key buffer `buf` allocated with its own length:
the buffer, then, past its end, what memory holds there (`beyond`). -/
def readKey (beyond : ℕ → UInt8) (buf : List UInt8) (len : ℕ) : List UInt8 :=
  buf.take len ++ (List.range (len - buf.length)).map beyond

@[simp] theorem length_readKey (beyond : ℕ → UInt8) (buf : List UInt8) (len : ℕ) :
    (readKey beyond buf len).length = len := by
  simp [readKey]
  omega

/-- The right end a kept range `p` gets when it absorbs `q`: open if either is
open.  Else, when `p`'s key is below `q`'s on their common prefix, the key
pointers are swapped and `p->rkeylen` is kept: `p`'s key is read from `q`'s
buffer for `p`'s length. -/
def mergeRight (beyond : ℕ → UInt8) (p q : CurRange) : CurRange :=
  if p.rflag || q.rflag then { p with rflag := true, rkey := none }
  else if keyCmp p.rkey q.rkey = .lt then
    { p with rkey := q.rkey.map fun b => readKey beyond b (p.rkey.getD []).length }
  else p

/-- A range open at both ends becomes a table lock. -/
def promoteLock (p : CurRange) : CurRange :=
  if p.lflag && p.rflag then { p with islocked := true } else p

/-- One pass of `currangearr_merge_neighbor`'s loop.  It gives `some p'` when the
next range `q` is folded into the kept range `p`, leaving `p'`, and `none` when
`q` is kept as well. -/
def mergeInto (beyond : ℕ → UInt8) (p q : CurRange) : Option CurRange :=
  if p.tbname = q.tbname then
    if p.idxnum = q.idxnum then
      if q.lflag || p.rflag || keyCmp q.lkey p.rkey ≠ .gt then some (promoteLock (mergeRight beyond p q))
      else none
    -- a table lock swallows the ranges of the table's other indexes
    else if p.islocked then some p else none
  else none

/-- The loop of `currangearr_merge_neighbor`, from the kept range `p` on. -/
def mergeNeighborFrom (beyond : ℕ → UInt8) (p : CurRange) : List CurRange → List CurRange
  | [] => [p]
  | q :: rest =>
      match mergeInto beyond p q with
      | some p' => mergeNeighborFrom beyond p' rest
      | none => p :: mergeNeighborFrom beyond q rest

def currangearrMergeNeighbor (beyond : ℕ → UInt8) : List CurRange → List CurRange
  | [] => []
  | p :: rest => mergeNeighborFrom beyond p rest

/-- `currangearr_coalesce`: sort and merge, twice. -/
def currangearrCoalesce (beyond : ℕ → UInt8)
    (qsort : (CurRange → CurRange → Ordering) → List CurRange → List CurRange)
    (arr : List CurRange) : List CurRange :=
  currangearrMergeNeighbor beyond
    (qsort currangeCmp (currangearrMergeNeighbor beyond (qsort currangeCmp arr)))

/-! ## The range hash and the check -/

/-- An index's entry of the hash (`struct serial_index_hash`): the first and last
position of its ranges. -/
structure SerialIndexHash where
  idxnum : Int
  begin : ℕ
  «end» : ℕ
  deriving DecidableEq, Repr

/-- A table's entry (`struct serial_tbname_hash`).  Its lock flag is that of the
table's first range. -/
structure SerialTbnameHash where
  tbname : List UInt8
  islocked : Bool
  begin : ℕ
  «end» : ℕ
  idxHash : List SerialIndexHash
  deriving DecidableEq, Repr

/-- Record position `i` of index `idxnum` in a table's index hash. -/
def addIndex (i : ℕ) (idxnum : Int) : List SerialIndexHash → List SerialIndexHash
  | [] => [⟨idxnum, i, i⟩]
  | ih :: rest =>
      if ih.idxnum = idxnum then { ih with «end» := i } :: rest else ih :: addIndex i idxnum rest

/-- One iteration of `currangearr_build_hash`, for the range `r` at position `i`. -/
def hashRange (i : ℕ) (r : CurRange) : List SerialTbnameHash → List SerialTbnameHash
  | [] => [⟨r.tbname, r.islocked, i, i, [⟨r.idxnum, i, i⟩]⟩]
  | th :: rest =>
      if th.tbname = r.tbname then
        { th with «end» := i, idxHash := addIndex i r.idxnum th.idxHash } :: rest
      else th :: hashRange i r rest

/-- The loop of `currangearr_build_hash` from position `i` on. -/
def buildHashFrom : ℕ → List CurRange → List SerialTbnameHash → List SerialTbnameHash
  | _, [], h => h
  | i, r :: rest, h => buildHashFrom (i + 1) rest (hashRange i r h)

def currangearrBuildHash (arr : List CurRange) : List SerialTbnameHash :=
  buildHashFrom 0 arr []

/-- The loop body of `serial_check_callback`: range `i` holds the key. -/
def rangeHit (arr : List CurRange) (key : List UInt8) (i : ℕ) : Bool :=
  match arr[i]? with
  | some r => keyInRange r key
  | none => false

/-- `serial_check_callback`: does a write of `key` to index `idxnum` of table
`tbname` hit the read set? -/
def serialCheckCallback (tbname : List UInt8) (idxnum : Int) (key : Option (List UInt8))
    (arr : List CurRange) (hash : List SerialTbnameHash) : Bool :=
  if arr.length = 0 then false
  else
    match hash.find? (·.tbname = tbname) with
    | none => false
    | some th =>
        if th.islocked then true
        else
          match key with
          | none => false
          | some k =>
              match th.idxHash.find? (·.idxnum = idxnum) with
              | none => false
              | some ih => (List.range' ih.begin (ih.«end» + 1 - ih.begin)).any (rangeHit arr k)

/-! ## The wire format -/

/-- `buf_put` and `buf_get` on amd64 (`bbinc/endian_core.amd64.h`) copy a field,
byte-swapping it when it is 2, 4 or 8 bytes long. -/
def bswapField (b : List UInt8) : List UInt8 :=
  if b.length = 2 ∨ b.length = 4 ∨ b.length = 8 then b.reverse else b

def bufPut (src : List UInt8) : List UInt8 := bswapField src

/-- `buf_get` of `len` bytes: the field and the rest of the buffer, or `none`
(a NULL result) when the buffer is too short.  A negative `int` length is a huge
`size_t`, so it fails too. -/
def bufGet (len : Int) (buf : List UInt8) : Option (List UInt8 × List UInt8) :=
  if 0 ≤ len ∧ len.toNat ≤ buf.length then
    some (bswapField (buf.take len.toNat), buf.drop len.toNat)
  else none

/-- The bytes of a C `int` in amd64 memory: two's complement, least significant first. -/
def intBytes (x : Int) : List UInt8 := (toBE 4 (x % 2 ^ 32).toNat).reverse

/-- The C `int` that four bytes of memory hold. -/
def intOfBytes (b : List UInt8) : Int :=
  if ofBE b.reverse < 2 ^ 31 then ofBE b.reverse else (ofBE b.reverse : Int) - 2 ^ 32

def putInt (x : Int) : List UInt8 := bufPut (intBytes x)

def getInt (buf : List UInt8) : Option (Int × List UInt8) :=
  (bufGet 4 buf).map fun (b, rest) => (intOfBytes b, rest)

/-- A key on the wire: its length, then its bytes. -/
def putKey (k : List UInt8) : List UInt8 := putInt k.length ++ bufPut k

def getKey (buf : List UInt8) : Option (List UInt8 × List UInt8) := do
  let (len, buf) ← getInt buf
  bufGet len buf

/-- A key that is sent only when its end of the range is closed (flag 0). -/
def getFlaggedKey (flag : Int) (buf : List UInt8) : Option (Option (List UInt8) × List UInt8) :=
  if flag = 0 then (getKey buf).map fun (k, rest) => (some k, rest) else some (none, buf)

/-- The C string a buffer holds: its bytes before the first NUL. -/
def cString (b : List UInt8) : List UInt8 := b.takeWhile (· ≠ 0)

/-- One range of `serial_readset_put`.  The name goes with its NUL, and a locked
range sends nothing after its lock flag. -/
def putRange (cr : CurRange) : List UInt8 :=
  putInt (cr.tbname.length + 1) ++ bufPut (cr.tbname ++ [0]) ++ putInt cr.islocked.toNat ++
    if cr.islocked then []
    else
      putInt cr.idxnum ++ putInt cr.lflag.toNat ++
        (if cr.lflag then [] else putKey (cr.lkey.getD [])) ++
        putInt cr.rflag.toNat ++ (if cr.rflag then [] else putKey (cr.rkey.getD []))

def serialReadsetPut (arr : List CurRange) : List UInt8 := arr.flatMap putRange

/-- One range of `serial_readset_get`.  The range starts as `currange_new` leaves
it, so a locked range comes back with index -2, no keys and both ends open. -/
def getRange (buf : List UInt8) : Option (CurRange × List UInt8) := do
  let (tmp, buf) ← getInt buf
  let (name, buf) ← bufGet tmp buf
  let (islocked, buf) ← getInt buf
  if islocked = 0 then
    let (idxnum, buf) ← getInt buf
    let (lflag, buf) ← getInt buf
    let (lkey, buf) ← getFlaggedKey lflag buf
    let (rflag, buf) ← getInt buf
    let (rkey, buf) ← getFlaggedKey rflag buf
    pure (⟨cString name, idxnum, lkey, rkey, lflag ≠ 0, rflag ≠ 0, false⟩, buf)
  else pure (⟨cString name, -2, none, none, true, true, true⟩, buf)

/-- `serial_readset_get` of `n` ranges, with the rest of the buffer. -/
def serialReadsetGet : ℕ → List UInt8 → Option (List CurRange × List UInt8)
  | 0, buf => some ([], buf)
  | n + 1, buf => do
      let (cr, buf) ← getRange buf
      let (rest, buf) ← serialReadsetGet n buf
      pure (cr :: rest, buf)

/-- The form in which a range reaches the master. -/
def transferred (r : CurRange) : CurRange :=
  if r.islocked then ⟨r.tbname, -2, none, none, true, true, true⟩
  else { r with lkey := if r.lflag then none else r.lkey, rkey := if r.rflag then none else r.rkey }

/-- A C `int` value. -/
def IsInt (x : Int) : Prop := -2 ^ 31 ≤ x ∧ x < 2 ^ 31

/-- What the transfer needs of a range: a table name that is a C string, values
that fit their `int` fields, and a key at each closed end. -/
structure WireOk (r : CurRange) : Prop where
  tbname_cstring : 0 ∉ r.tbname
  tbname_int : IsInt (r.tbname.length + 1)
  idxnum_int : IsInt r.idxnum
  lkey : r.lflag = false → ∃ k, r.lkey = some k ∧ IsInt k.length
  rkey : r.rflag = false → ∃ k, r.rkey = some k ∧ IsInt k.length

/-! ## The transfer round-trips -/

@[simp] theorem length_bswapField (b : List UInt8) : (bswapField b).length = b.length := by
  unfold bswapField
  split <;> simp

@[simp] theorem bswapField_bswapField (b : List UInt8) : bswapField (bswapField b) = b := by
  by_cases h : b.length = 2 ∨ b.length = 4 ∨ b.length = 8 <;> simp [bswapField, h]

/-- `buf_get` of a field's length reads back what `buf_put` wrote. -/
theorem bufGet_bufPut {n : Int} {b : List UInt8} (hn : n = b.length) (rest : List UInt8) :
    bufGet n (bufPut b ++ rest) = some (b, rest) := by
  subst hn
  have hlen : (bufPut b).length = b.length := length_bswapField b
  simp [bufGet, bufPut]

@[simp] theorem length_intBytes (x : Int) : (intBytes x).length = 4 := by
  simp [intBytes]

theorem intOfBytes_intBytes {x : Int} (hx : IsInt x) : intOfBytes (intBytes x) = x := by
  have hv : ofBE (intBytes x).reverse = (x % 2 ^ 32).toNat := by
    rw [intBytes, List.reverse_reverse, ofBE_toBE]
    exact Nat.mod_eq_of_lt (by omega)
  obtain ⟨hlo, hhi⟩ := hx
  rw [intOfBytes, hv]
  split <;> omega

theorem getInt_putInt {x : Int} (hx : IsInt x) (rest : List UInt8) :
    getInt (putInt x ++ rest) = some (x, rest) := by
  rw [getInt, putInt, bufGet_bufPut (by simp) rest]
  simp [intOfBytes_intBytes hx]

theorem isInt_toNat (b : Bool) : IsInt b.toNat := by
  cases b <;> simp [IsInt]

theorem getInt_putInt_toNat (b : Bool) (rest : List UInt8) :
    getInt (putInt b.toNat ++ rest) = some ((b.toNat : Int), rest) :=
  getInt_putInt (isInt_toNat b) rest

theorem getKey_putKey {k : List UInt8} (hk : IsInt k.length) (rest : List UInt8) :
    getKey (putKey k ++ rest) = some (k, rest) := by
  simp [getKey, putKey, getInt_putInt hk, bufGet_bufPut rfl]

theorem getFlaggedKey_put {flag : Bool} {key : Option (List UInt8)}
    (hk : flag = false → ∃ k, key = some k ∧ IsInt k.length) (rest : List UInt8) :
    getFlaggedKey flag.toNat ((if flag then [] else putKey (key.getD [])) ++ rest) =
      some (if flag then none else key, rest) := by
  cases flag with
  | true => simp [getFlaggedKey]
  | false =>
      obtain ⟨k, rfl, hlen⟩ := hk rfl
      simp [getFlaggedKey, getKey_putKey hlen]

theorem cString_append_nul : ∀ {b : List UInt8}, 0 ∉ b → cString (b ++ [0]) = b
  | [], _ => rfl
  | a :: b, h => by
      have ha : a ≠ 0 := fun ha => h (ha ▸ List.mem_cons_self ..)
      have hb : 0 ∉ b := fun hb => h (List.mem_cons_of_mem a hb)
      simpa [cString, List.takeWhile_cons, ha] using cString_append_nul hb

/-- Reading back one range gives its transferred form. -/
theorem getRange_putRange {r : CurRange} (h : WireOk r) (rest : List UInt8) :
    getRange (putRange r ++ rest) = some (transferred r, rest) := by
  have hname : ∀ rest', bufGet (r.tbname.length + 1) (bufPut (r.tbname ++ [0]) ++ rest') =
      some (r.tbname ++ [0], rest') := bufGet_bufPut (by simp)
  simp only [putRange, List.append_assoc, getRange, getInt_putInt h.tbname_int, hname,
    getInt_putInt_toNat, Option.bind_eq_bind, Option.bind_some]
  cases hl : r.islocked with
  | true => simp [transferred, hl, cString_append_nul h.tbname_cstring]
  | false =>
      simp only [Bool.toNat_false, Nat.cast_zero, if_true, Bool.false_eq_true, if_false,
        List.append_assoc, getInt_putInt_toNat, getInt_putInt h.idxnum_int,
        getFlaggedKey_put h.lkey, getFlaggedKey_put h.rkey, Option.bind_some]
      simp [transferred, hl, cString_append_nul h.tbname_cstring]

/-- Reading back a whole read set gives every range in its transferred form. -/
theorem serialReadsetGet_put :
    ∀ {arr : List CurRange}, (∀ r ∈ arr, WireOk r) → ∀ rest : List UInt8,
      serialReadsetGet arr.length (serialReadsetPut arr ++ rest) = some (arr.map transferred, rest)
  | [], _, _ => rfl
  | r :: arr, h, rest => by
      have ih := serialReadsetGet_put (fun r' hr' => h r' (List.mem_cons_of_mem r hr')) rest
      rw [serialReadsetPut] at ih
      simp only [serialReadsetPut, List.flatMap_cons, List.append_assoc, List.length_cons,
        serialReadsetGet, getRange_putRange (h r (List.mem_cons_self ..)), ih,
        Option.bind_eq_bind, Option.bind_some, List.map_cons]
      rfl

/-- The transferred form of a range covers what the range covers. -/
theorem covers_transferred (r : CurRange) (t : List UInt8) (i : Int) :
    ∀ k, covers (transferred r) t i k = covers r t i k
  | none => by cases hl : r.islocked <;> simp [covers, transferred, hl]
  | some k => by
      cases hl : r.islocked with
      | true => simp [covers, transferred, hl]
      | false =>
          -- an end that is open ignores its key, so dropping the key changes nothing
          have hkey : keyInRange (transferred r) k = keyInRange r k := by
            cases hlf : r.lflag <;> cases hrf : r.rflag <;> simp [keyInRange, transferred, hl, hlf, hrf]
          simp only [covers, hkey]
          simp [transferred, hl]

/-! ## Merging never narrows the kept range -/

@[simp] theorem mergeRight_tbname (beyond : ℕ → UInt8) (p q : CurRange) :
    (mergeRight beyond p q).tbname = p.tbname := by
  unfold mergeRight; split <;> (try split) <;> rfl

@[simp] theorem mergeRight_idxnum (beyond : ℕ → UInt8) (p q : CurRange) :
    (mergeRight beyond p q).idxnum = p.idxnum := by
  unfold mergeRight; split <;> (try split) <;> rfl

@[simp] theorem mergeRight_islocked (beyond : ℕ → UInt8) (p q : CurRange) :
    (mergeRight beyond p q).islocked = p.islocked := by
  unfold mergeRight; split <;> (try split) <;> rfl

/-- The new right end holds every key the old one held.  The key read from
`q`'s buffer is above `p`'s: they differ within the shorter length, where it
is `q`'s key (`Lex.prefixCmp_take_append_of_lt`), whatever lies past the
buffer. -/
theorem keyInRange_mergeRight (beyond : ℕ → UInt8) {p : CurRange} (q : CurRange) {k : List UInt8}
    (hk : keyInRange p k = true) : keyInRange (mergeRight beyond p q) k = true := by
  simp only [keyInRange, Bool.and_eq_true, Bool.or_eq_true, decide_eq_true_eq] at hk
  obtain ⟨hl, hr⟩ := hk
  unfold mergeRight
  by_cases hopen : (p.rflag || q.rflag) = true
  · rw [if_pos hopen]
    simpa [keyInRange] using hl
  · rw [if_neg hopen]
    have hkp : keyCmp (some k) p.rkey ≠ .gt := hr.resolve_left (by simp_all)
    by_cases hlt : keyCmp p.rkey q.rkey = .lt
    · rw [if_pos hlt]
      -- both keys are there: a missing key ties with every key
      obtain ⟨P, hP⟩ : ∃ P, p.rkey = some P := by
        cases hp : p.rkey with
        | none =>
          rw [keyCmp_eq, hp] at hlt
          simp at hlt
        | some P => exact ⟨P, rfl⟩
      obtain ⟨Q, hQ⟩ : ∃ Q, q.rkey = some Q := by
        cases hq : q.rkey with
        | none =>
          rw [keyCmp_eq, hq] at hlt
          simp at hlt
        | some Q => exact ⟨Q, rfl⟩
      have hkq : keyCmp (some k) (some (readKey beyond Q P.length)) ≠ .gt := by
        rw [keyCmp_eq, hP, hQ] at hlt
        rw [keyCmp_eq, hP] at hkp
        rw [keyCmp_eq]
        exact Lex.prefixCmp_ne_gt_of_lt hkp (Lex.prefixCmp_take_append_of_lt _ hlt)
      simpa [keyInRange, hkq, hP, hQ] using hl
    · rw [if_neg hlt]
      simpa [keyInRange, hkp] using hl

theorem covers_mergeRight (beyond : ℕ → UInt8) {p : CurRange} (q : CurRange) {t : List UInt8}
    {i : Int} : ∀ {k}, covers p t i k = true → covers (mergeRight beyond p q) t i k = true
  | none, h => by simpa [covers] using h
  | some k, h => by
      simp only [covers, Bool.and_eq_true, Bool.or_eq_true, decide_eq_true_eq] at h ⊢
      obtain ⟨ht, hlock | ⟨hi, hk⟩⟩ := h
      · exact ⟨by simpa using ht, .inl (by simpa using hlock)⟩
      · exact ⟨by simpa using ht, .inr ⟨by simpa using hi, keyInRange_mergeRight beyond q hk⟩⟩

theorem covers_promoteLock {p : CurRange} {t : List UInt8} {i : Int} {k : Option (List UInt8)}
    (h : covers p t i k = true) : covers (promoteLock p) t i k = true := by
  unfold promoteLock
  split
  · cases k <;> simp_all [covers]
  · exact h

/-- Folding `q` into the kept range `p` leaves a range that covers all `p` covered. -/
theorem mergeInto_covers {beyond : ℕ → UInt8} {p q p' : CurRange} (hm : mergeInto beyond p q = some p')
    {t : List UInt8} {i : Int} {k : Option (List UInt8)} (h : covers p t i k = true) :
    covers p' t i k = true := by
  unfold mergeInto at hm
  split_ifs at hm
  all_goals cases hm
  · exact covers_promoteLock (covers_mergeRight beyond q h)
  · exact h

/-! ## The hash finds every range -/

theorem find?_addIndex_self (i : ℕ) (idx : Int) :
    ∀ hs : List SerialIndexHash, (addIndex i idx hs).find? (·.idxnum = idx) =
      some ((hs.find? (·.idxnum = idx)).elim ⟨idx, i, i⟩ fun ih => { ih with «end» := i })
  | [] => by simp [addIndex]
  | ih :: rest => by
      by_cases h : ih.idxnum = idx
      · simp [addIndex, h]
      · simp [addIndex, h, find?_addIndex_self i idx rest]

theorem find?_addIndex_of_ne (i : ℕ) {idx j : Int} (hne : j ≠ idx) :
    ∀ hs : List SerialIndexHash, (addIndex i idx hs).find? (·.idxnum = j) = hs.find? (·.idxnum = j)
  | [] => by simp [addIndex, Ne.symm hne]
  | ih :: rest => by
      by_cases h : ih.idxnum = idx
      · simp [addIndex, h, Ne.symm hne]
      · simp [addIndex, h, List.find?_cons, find?_addIndex_of_ne i hne rest]

/-- The entry a table gets when its range at position `i` is hashed: the old entry
extended to `i`, or a new one. -/
def hashedEntry (i : ℕ) (r : CurRange) (old : Option SerialTbnameHash) : SerialTbnameHash :=
  old.elim ⟨r.tbname, r.islocked, i, i, addIndex i r.idxnum []⟩
    fun th => { th with «end» := i, idxHash := addIndex i r.idxnum th.idxHash }

theorem find?_hashRange_self (i : ℕ) (r : CurRange) :
    ∀ h : List SerialTbnameHash, (hashRange i r h).find? (·.tbname = r.tbname) =
      some (hashedEntry i r (h.find? (·.tbname = r.tbname)))
  | [] => by simp [hashRange, hashedEntry, addIndex]
  | th :: rest => by
      by_cases ht : th.tbname = r.tbname
      · simp [hashRange, hashedEntry, ht]
      · simp [hashRange, ht, find?_hashRange_self i r rest]

theorem find?_hashRange_of_ne (i : ℕ) {r : CurRange} {t : List UInt8} (hne : t ≠ r.tbname) :
    ∀ h : List SerialTbnameHash, (hashRange i r h).find? (·.tbname = t) = h.find? (·.tbname = t)
  | [] => by simp [hashRange, Ne.symm hne]
  | th :: rest => by
      by_cases ht : th.tbname = r.tbname
      · simp [hashRange, ht, Ne.symm hne]
      · simp [hashRange, ht, List.find?_cons, find?_hashRange_of_ne i hne rest]

@[simp] theorem hashedEntry_idxHash (i : ℕ) (r : CurRange) (old : Option SerialTbnameHash) :
    (hashedEntry i r old).idxHash = addIndex i r.idxnum ((old.map (·.idxHash)).getD []) := by
  cases old <;> rfl

/-- What the hash built from the first `n` ranges of `arr` records.  Each of those
ranges is found under its table and index, in a span that holds its position, and
every span starts before `n`. -/
structure HashInv (arr : List CurRange) (n : ℕ) (h : List SerialTbnameHash) : Prop where
  found : ∀ j < n, ∀ r, arr[j]? = some r → ∃ th ih, h.find? (·.tbname = r.tbname) = some th ∧
    th.idxHash.find? (·.idxnum = r.idxnum) = some ih ∧ ih.begin ≤ j ∧ j ≤ ih.«end»
  begin_lt : ∀ t idx th ih, h.find? (·.tbname = t) = some th →
    th.idxHash.find? (·.idxnum = idx) = some ih → ih.begin < n

theorem HashInv.nil (arr : List CurRange) : HashInv arr 0 [] where
  found _ hj := absurd hj (Nat.not_lt_zero _)
  begin_lt _ _ _ _ h := by simp at h

/-- After position `n` is added under index `idx`, the index's span ends at `n`
and starts no later, when every span of the old hash started before `n`. -/
theorem find?_addIndex_span (n : ℕ) (idx : Int) {hs : List SerialIndexHash}
    (hb : ∀ ih, hs.find? (·.idxnum = idx) = some ih → ih.begin < n) :
    ∃ ih, (addIndex n idx hs).find? (·.idxnum = idx) = some ih ∧ ih.begin ≤ n ∧ ih.«end» = n := by
  rw [find?_addIndex_self]
  cases hold : hs.find? (·.idxnum = idx) with
  | none => exact ⟨_, rfl, le_refl n, rfl⟩
  | some ih => exact ⟨_, rfl, (hb ih hold).le, rfl⟩

theorem begin_lt_of_find?_addIndex {n : ℕ} {idx j : Int} {hs : List SerialIndexHash}
    (hb : ∀ ih, hs.find? (·.idxnum = j) = some ih → ih.begin < n) {ih : SerialIndexHash}
    (h : (addIndex n idx hs).find? (·.idxnum = j) = some ih) : ih.begin < n + 1 := by
  by_cases hj : j = idx
  · subst hj
    obtain ⟨ih', hih', hb', -⟩ := find?_addIndex_span n j hb
    rw [hih'] at h
    cases h
    exact Nat.lt_succ_of_le hb'
  · rw [find?_addIndex_of_ne n hj] at h
    exact Nat.lt_succ_of_lt (hb ih h)

/-- Hashing the range at position `n` keeps the invariant, one position further. -/
theorem HashInv.hashRange {arr : List CurRange} {n : ℕ} {h : List SerialTbnameHash}
    (hinv : HashInv arr n h) {r : CurRange} (hr : arr[n]? = some r) :
    HashInv arr (n + 1) (hashRange n r h) where
  found j hj r' hr' := by
    rcases Nat.lt_succ_iff_lt_or_eq.1 hj with hj | rfl
    · obtain ⟨th, ih, hth, hih, hb, he⟩ := hinv.found j hj r' hr'
      by_cases ht : r'.tbname = r.tbname
      · -- an earlier range of the same table: its entry is extended to `n`
        rw [ht] at hth ⊢
        have hentry : (Serial.hashRange n r h).find? (·.tbname = r.tbname) =
            some (hashedEntry n r (some th)) := by rw [find?_hashRange_self, hth]
        have hidx : (hashedEntry n r (some th)).idxHash = addIndex n r.idxnum th.idxHash := rfl
        by_cases hi : r'.idxnum = r.idxnum
        · rw [hi] at hih ⊢
          refine ⟨_, { ih with «end» := n }, hentry, ?_, hb, Nat.le_of_lt hj⟩
          rw [hidx, find?_addIndex_self, hih]
          rfl
        · refine ⟨_, ih, hentry, ?_, hb, he⟩
          rw [hidx, find?_addIndex_of_ne n hi, hih]
      · exact ⟨th, ih, by rw [find?_hashRange_of_ne n ht, hth], hih, hb, he⟩
    · -- the range just hashed
      obtain rfl : r' = r := Option.some.inj (hr'.symm.trans hr)
      have hb : ∀ ih, (((h.find? (·.tbname = r'.tbname)).map (·.idxHash)).getD []).find?
          (·.idxnum = r'.idxnum) = some ih → ih.begin < j := by
        intro ih hih
        cases hold : h.find? (·.tbname = r'.tbname) with
        | none => simp [hold] at hih
        | some th => exact hinv.begin_lt _ _ th ih hold (by simpa [hold] using hih)
      obtain ⟨ih, hih, hb', he'⟩ := find?_addIndex_span j r'.idxnum hb
      refine ⟨_, ih, find?_hashRange_self j r' h, ?_, hb', he'.ge⟩
      rwa [hashedEntry_idxHash]
  begin_lt t idx th ih hth hih := by
    by_cases ht : t = r.tbname
    · subst ht
      rw [find?_hashRange_self] at hth
      cases hth
      rw [hashedEntry_idxHash] at hih
      refine begin_lt_of_find?_addIndex (fun ih' hih' => ?_) hih
      cases hold : h.find? (·.tbname = r.tbname) with
      | none => simp [hold] at hih'
      | some th' => exact hinv.begin_lt _ _ th' ih' hold (by simpa [hold] using hih')
    · rw [find?_hashRange_of_ne n ht] at hth
      exact Nat.lt_succ_of_lt (hinv.begin_lt t idx th ih hth hih)

/-- The loop of `currangearr_build_hash` keeps the invariant to the end. -/
theorem HashInv.buildHashFrom {arr : List CurRange} :
    ∀ {n : ℕ} {rest : List CurRange} {h : List SerialTbnameHash}, arr.drop n = rest →
      HashInv arr n h → HashInv arr (n + rest.length) (Serial.buildHashFrom n rest h)
  | n, [], h, _, hinv => hinv
  | n, r :: rest, h, hdrop, hinv => by
      have hr : arr[n]? = some r := by
        rw [← Nat.add_zero n, ← List.getElem?_drop, hdrop]
        rfl
      have hdrop' : arr.drop (n + 1) = rest := by
        rw [← List.drop_drop, hdrop]
        rfl
      have hlen : n + (r :: rest).length = n + 1 + rest.length := by
        rw [List.length_cons]
        omega
      rw [hlen]
      exact HashInv.buildHashFrom hdrop' (hinv.hashRange hr)

theorem hashInv_currangearrBuildHash (arr : List CurRange) :
    HashInv arr arr.length (currangearrBuildHash arr) := by
  have h := HashInv.buildHashFrom List.drop_zero (HashInv.nil arr)
  rw [Nat.zero_add] at h
  exact h

/-- `serial_check_callback` catches every write covered by an unlocked range of
the array it hashed. -/
theorem serialCheckCallback_of_covers {arr : List CurRange} {j : ℕ} {r : CurRange}
    (hj : arr[j]? = some r) (hr : r.islocked = false) {t : List UInt8} {i : Int}
    {k : List UInt8} (hc : covers r t i (some k) = true) :
    serialCheckCallback t i (some k) arr (currangearrBuildHash arr) = true := by
  simp only [covers, hr, Bool.false_or, Bool.and_eq_true, decide_eq_true_eq] at hc
  obtain ⟨rfl, rfl, hk⟩ := hc
  obtain ⟨hlen, -⟩ := List.getElem?_eq_some_iff.1 hj
  obtain ⟨th, ih, hth, hih, hb, he⟩ := (hashInv_currangearrBuildHash arr).found j hlen r hj
  have hhit : rangeHit arr k j = true := by simp [rangeHit, hj, hk]
  have hmem : j ∈ List.range' ih.begin (ih.«end» + 1 - ih.begin) := by
    rw [List.mem_range'_1]
    omega
  unfold serialCheckCallback
  rw [if_neg (by omega)]
  simp only [hth, hih]
  split
  · rfl
  · exact List.any_eq_true.2 ⟨j, hmem, hhit⟩

/-! ## A lost conflict -/

/-- The check of a write against a transaction's read set.  The client coalesces
and sends the set; the master reads it back, hashes it and checks the write. -/
def serialCheck (beyond : ℕ → UInt8)
    (qsort : (CurRange → CurRange → Ordering) → List CurRange → List CurRange)
    (arr : List CurRange) (t : List UInt8) (i : Int) (k : Option (List UInt8)) : Option Bool :=
  let sent := currangearrCoalesce beyond qsort arr
  (serialReadsetGet sent.length (serialReadsetPut sent)).map fun (got, _) =>
    serialCheckCallback t i k got (currangearrBuildHash got)

/-- The keys `"0"` to `"aa"` of index 0 of table `"t"`. -/
def rangeToAa : CurRange := ⟨[116], 0, some [48], some [97, 97], false, false, false⟩

/-- The keys of the same index that start with `"a"`: from `"a"` to `"a"` under the
prefix comparison. -/
def rangeA : CurRange := ⟨[116], 0, some [97], some [97], false, false, false⟩

/-- Coalescing folds `rangeA` into `rangeToAa` and keeps the right key `"aa"`, which
ties with `rangeA`'s `"a"` on their common prefix.  The write of key `"ab"` to the
index is covered by `rangeA`, and the check misses it, whatever `qsort` does within
the C standard's promise. -/
theorem serialCheck_misses_prefix_conflict (beyond : ℕ → UInt8)
    (qsort : (CurRange → CurRange → Ordering) → List CurRange → List CurRange)
    (hq : IsQsort qsort) :
    covers rangeA [116] 0 (some [97, 98]) = true ∧
      serialCheck beyond qsort [rangeToAa, rangeA] [116] 0 (some [97, 98]) = some false := by
  have hsort : qsort currangeCmp [rangeToAa, rangeA] = [rangeToAa, rangeA] :=
    hq.eq_self_of_pairwise_lt (by decide) (by decide)
  -- the right keys tie on their common prefix, so no pointers are swapped
  have hfold : mergeInto beyond rangeToAa rangeA = some rangeToAa := by
    rw [mergeInto, if_pos (by decide), if_pos (by decide), if_pos (by decide), mergeRight,
      if_neg (by decide), if_neg (by decide)]
    rfl
  have hmerge : currangearrMergeNeighbor beyond [rangeToAa, rangeA] = [rangeToAa] := by
    rw [currangearrMergeNeighbor, mergeNeighborFrom, hfold]
    rfl
  have hsort' : qsort currangeCmp [rangeToAa] = [rangeToAa] :=
    hq.eq_self_of_pairwise_lt (by decide) (List.pairwise_singleton _ _)
  have hsent : currangearrCoalesce beyond qsort [rangeToAa, rangeA] = [rangeToAa] := by
    rw [currangearrCoalesce, hsort, hmerge, hsort']
    rfl
  have hwire : WireOk rangeToAa :=
    ⟨by decide, by norm_num [IsInt, rangeToAa], by norm_num [IsInt, rangeToAa],
      fun _ => ⟨_, rfl, by norm_num [IsInt]⟩, fun _ => ⟨_, rfl, by norm_num [IsInt]⟩⟩
  have hget : serialReadsetGet 1 (serialReadsetPut [rangeToAa] ++ []) =
      some ([transferred rangeToAa], []) :=
    serialReadsetGet_put (fun r hr => List.mem_singleton.1 hr ▸ hwire) []
  rw [List.append_nil] at hget
  refine ⟨by decide, ?_⟩
  simp only [serialCheck, hsent, List.length_singleton, hget, Option.map_some]
  decide

theorem serialCheck_misses_prefix_conflict_insertionSort :
    IsQsort (insertionSort : (CurRange → CurRange → Ordering) → List CurRange → List CurRange) ∧
      covers rangeA [116] 0 (some [97, 98]) = true ∧
      serialCheck (fun _ => 0) insertionSort [rangeToAa, rangeA] [116] 0 (some [97, 98]) = some false :=
  ⟨isQsort_insertionSort,
    serialCheck_misses_prefix_conflict (fun _ => 0) insertionSort isQsort_insertionSort⟩

end Serial
