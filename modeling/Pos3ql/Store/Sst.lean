import Pos3ql.Foundation.SortedRuns

/-!
# Row files: writer and point lookup

An SST stores the versions of rows sorted by row identity, newest first, in data blocks. A sparse
index names each block by its first key; when one index leaf is full, a root names the leaves by
their first keys. A Bloom filter over row identities lets a lookup skip the file. A point lookup
picks one leaf and in it one block, and scans that block.

Sources: `store/sst.rs`, `store/bloom.rs`. A block is modelled as the entries it holds, with the
sizes the writer counts: the byte layouts a block may have (rows, packed rows, PAX columns, LZ4,
overflow chains) are left out, and loading a block yields the entries flushed into it. Left out too:
the roster of block identities and the PAX encoder's limits, which only make the writer refuse more;
the cursors; and the suspension of a lookup while a block is fetched.
-/

namespace Pos3ql

open Foundation

/-! ## Keys and entries -/

/-- Source: `SstKey`. -/
structure SstKey where
  rowid : ℕ
  commitLsn : ℕ
  deriving DecidableEq, Repr, Inhabited

namespace SstKey

/-- Row identity ascending, then commit LSN descending. Source: `Ord for SstKey`. -/
instance : LT SstKey where
  lt a b := a.rowid < b.rowid ∨ a.rowid = b.rowid ∧ b.commitLsn < a.commitLsn

instance : LE SstKey where
  le a b := a.rowid < b.rowid ∨ a.rowid = b.rowid ∧ b.commitLsn ≤ a.commitLsn

lemma lt_iff {a b : SstKey} :
    a < b ↔ a.rowid < b.rowid ∨ a.rowid = b.rowid ∧ b.commitLsn < a.commitLsn := Iff.rfl

lemma le_iff {a b : SstKey} :
    a ≤ b ↔ a.rowid < b.rowid ∨ a.rowid = b.rowid ∧ b.commitLsn ≤ a.commitLsn := Iff.rfl

instance (a b : SstKey) : Decidable (a < b) := decidable_of_iff _ lt_iff.symm

instance (a b : SstKey) : Decidable (a ≤ b) := decidable_of_iff _ le_iff.symm

instance : LinearOrder SstKey where
  le_refl a := .inr ⟨rfl, le_rfl⟩
  le_trans a b c := by simp only [le_iff]; omega
  le_antisymm := by rintro ⟨r, l⟩ ⟨r', l'⟩; simp only [le_iff, mk.injEq]; omega
  le_total a b := by simp only [le_iff]; omega
  lt_iff_le_not_ge a b := by simp only [le_iff, lt_iff]; omega
  toDecidableLE := inferInstance

/-- Source: `SstKey::newest`. -/
def newest (rowid : ℕ) : SstKey := ⟨rowid, 2 ^ 64 - 1⟩

end SstKey

/-- A version of a row, or its deletion. Source: `DataEntry`; `row = none` is a tombstone. -/
structure DataEntry where
  key : SstKey
  row : Option (List UInt8)
  deriving DecidableEq, Repr, Inhabited

/-- Source: `VERSIONED_ENTRY_HEADER`. -/
def versionedEntryHeader : ℕ := 20

/-- The bytes an entry takes in a block. -/
def DataEntry.size (e : DataEntry) : ℕ := versionedEntryHeader + (e.row.getD []).length

/-- Source: `store::MAX_PAYLOAD`. -/
def maxPayload : ℕ := 256 * 1024 - 52

/-- Source: `MAX_CHAIN`. -/
def maxChain : ℕ := 16

/-- The bytes of a chained row kept in its head block. Source: `append_chained`. -/
def headRoom : ℕ := maxPayload - versionedEntryHeader - 2 - maxChain * 32

/-- Source: `MAX_ASSEMBLED`. -/
def maxAssembled : ℕ := headRoom + maxChain * maxPayload

/-- Source: `PACKED_GROUP_TARGET`. -/
def packedGroupTarget : ℕ := maxPayload / 2

/-- Source: `MAX_DATA_BLOCKS`. -/
def maxDataBlocks : ℕ := maxPayload / (16 + 32 + 4 + 4 + 32)

/-- Source: `MAX_LEAVES`. -/
def maxLeaves : ℕ := 4096

/-! ## The filter -/

/-- A bit array of `bytes` bytes; `bits` lists the set positions. Source: `bloom`. -/
structure Filter where
  bytes : ℕ
  bits : List ℕ
  deriving DecidableEq, Repr, Inhabited

namespace Filter

/-- Source: `bloom::mix`. -/
def mix (x : UInt64) : UInt64 :=
  let x := (x ^^^ (x >>> 30)) * 0xbf58476d1ce4e5b9
  let x := (x ^^^ (x >>> 27)) * 0x94d049bb133111eb
  x ^^^ (x >>> 31)

/-- Source: `bloom::positions`. -/
def positions (key bits : ℕ) : List ℕ :=
  let h1 := mix (UInt64.ofNat key)
  let h2 := mix (UInt64.ofNat key ^^^ 0x9e3779b97f4a7c15) ||| 1
  (List.range 7).map fun i => ((h1 + UInt64.ofNat i * h2) % UInt64.ofNat bits).toNat

/-- Source: `bloom::insert`. -/
def insert (f : Filter) (key : ℕ) : Filter :=
  if f.bytes * 8 = 0 then f else { f with bits := positions key (f.bytes * 8) ++ f.bits }

/-- Source: `bloom::maybe_contains`. -/
def maybeContains (f : Filter) (key : ℕ) : Bool :=
  if f.bytes * 8 = 0 then true else (positions key (f.bytes * 8)).all fun i => decide (i ∈ f.bits)

end Filter

/-! ## The writer -/

/-- Source: `SstError`, the errors of the modelled functions. -/
inductive SstError
  | rowTooLarge
  | tooManyBlocks
  | keyOutOfOrder
  | encoding
  | bufferTooSmall
  deriving DecidableEq, Repr

/-- An entry of an index leaf: a block and its first key. Source: `SstWriter::index`. -/
structure IndexEntry where
  first : SstKey
  block : List DataEntry
  deriving DecidableEq, Repr, Inhabited

/-- An entry of an index root. Source: `SstWriter::leaves`. -/
structure RootEntry where
  first : SstKey
  leaf : List IndexEntry
  deriving DecidableEq, Repr, Inhabited

/-- Source: `SstWriter`. `pending_len` and `pending_first` are the size and the first key of
`pending`. -/
structure SstWriter where
  paxEnabled : Bool
  packedRows : Bool
  packedFillfactor : ℕ
  pending : List DataEntry
  index : List IndexEntry
  lastKey : Option SstKey
  filters : List Filter
  keyCount : ℕ
  leaves : List RootEntry

/-- A finished index: one leaf, or a root over leaves. -/
inductive SstIndex
  | leaf (entries : List IndexEntry)
  | root (leaves : List RootEntry)
  deriving DecidableEq, Repr, Inhabited

/-- Source: `SstHandle`, the blocks it names. -/
structure SstHandle where
  index : SstIndex
  filter : Filter
  deriving DecidableEq, Repr, Inhabited

namespace SstWriter

/-- Source: `SstWriter::new`, `set_pax_schema`, `set_packed_rows`, `set_packed_fillfactor`;
`FILTER_TIERS`. -/
def new (paxEnabled packedRows : Bool) (packedFillfactor : ℕ) : SstWriter :=
  ⟨paxEnabled, packedRows, packedFillfactor, [], [], none,
    [⟨2 * 1024, []⟩, ⟨16 * 1024, []⟩, ⟨128 * 1024, []⟩], 0, []⟩

/-- Source: `pending_len`. -/
def pendingLen (w : SstWriter) : ℕ := (w.pending.map DataEntry.size).sum

/-- The size a block is filled to. Source: `limit` in `append_version`. -/
def limit (w : SstWriter) : ℕ :=
  if w.paxEnabled || w.packedRows then packedGroupTarget * w.packedFillfactor / 100 - 128
  else maxPayload

/-- Source: `flush_index_leaf`. -/
def flushIndexLeaf (w : SstWriter) : Except SstError SstWriter :=
  match w.index with
  | [] => .ok w
  | e :: rest =>
    if w.leaves.length = maxLeaves then .error .tooManyBlocks
    else .ok { w with leaves := w.leaves ++ [⟨e.first, e :: rest⟩], index := [] }

/-- Source: `reserve_index_slot`. -/
def reserveIndexSlot (w : SstWriter) : Except SstError SstWriter :=
  if w.index.length = maxDataBlocks then w.flushIndexLeaf else .ok w

/-- Source: `flush_data` with `finish_data_block`. -/
def flushData (w : SstWriter) : Except SstError SstWriter :=
  match w.pending with
  | [] => .ok w
  | e :: rest => do
      let w ← w.reserveIndexSlot
      .ok { w with index := w.index ++ [⟨e.key, e :: rest⟩], pending := [] }

/-- Put an entry into the current block. Source: the end of `append_version`. -/
def push (w : SstWriter) (e : DataEntry) : SstWriter :=
  { w with
    pending := w.pending ++ [e]
    lastKey := some e.key
    filters := w.filters.map fun f => f.insert e.key.rowid
    keyCount := w.keyCount + 1 }

/-- Flush the current block if the entry does not fit. -/
def makeRoom (w : SstWriter) (size : ℕ) : Except SstError SstWriter :=
  if w.pendingLen ≠ 0 ∧ w.limit < w.pendingLen + size then w.flushData else .ok w

/-- Source: `append_chained`: the head entry has a block of its own. -/
def appendChained (w : SstWriter) (key : SstKey) (row : List UInt8) : Except SstError SstWriter :=
  if maxChain < (row.length - headRoom + maxPayload - 1) / maxPayload then .error .rowTooLarge
  else do
    let w ← w.flushData
    (w.push ⟨key, some row⟩).flushData

/-- Whether a key does not follow the last one. -/
def outOfOrder (w : SstWriter) (key : SstKey) : Bool := w.lastKey.any fun last =>
    decide (key ≤ last)

/-- Source: `append_version`. -/
def appendVersion (w : SstWriter) (key : SstKey) (row : List UInt8) : Except SstError SstWriter :=
  if w.outOfOrder key then .error .keyOutOfOrder
  else if maxAssembled < row.length then .error .rowTooLarge
  else if maxPayload < versionedEntryHeader + row.length then w.appendChained key row
  else do
    let w ← w.makeRoom (versionedEntryHeader + row.length)
    .ok (w.push ⟨key, some row⟩)

/-- Source: `append_tombstone_version`. -/
def appendTombstoneVersion (w : SstWriter) (key : SstKey) : Except SstError SstWriter :=
  if w.outOfOrder key then .error .keyOutOfOrder
  else do
    let w ← w.makeRoom versionedEntryHeader
    .ok (w.push ⟨key, none⟩)

/-- Whether the keys of a group ascend. Source: the loop of `append_reused_pax_group`. -/
def ascending : List DataEntry → Bool
  | e :: e' :: rest => decide (e.key < e'.key) && ascending (e' :: rest)
  | _ => true

/-- Source: `append_reused_pax_group`: a block of another file, taken over as it is. -/
def appendReusedPaxGroup (w : SstWriter) (group : List DataEntry) : Except SstError SstWriter :=
  match group with
  | [] => .error .encoding
  | e :: rest =>
    if !w.paxEnabled then .error .encoding
    else if w.outOfOrder e.key || !ascending (e :: rest) then .error .keyOutOfOrder
    else do
      let w ← w.flushData
      let w ← w.reserveIndexSlot
      .ok { w with
        index := w.index ++ [⟨e.key, e :: rest⟩]
        lastKey := ((e :: rest).getLast?).map DataEntry.key
        filters := w.filters.map fun f =>
          (e :: rest).foldl (fun f e => f.insert e.key.rowid) f
        keyCount := w.keyCount + (e :: rest).length }

/-- The filter of the finished file: the smallest that gives ten bits to a key.
Source: `tier` in `finish`. -/
def chooseFilter (w : SstWriter) : Filter :=
  ((w.filters.find? fun f => decide (w.keyCount * 10 ≤ f.bytes * 8)) <|> w.filters.getLast?).getD
    default

/-- Source: `finish`; `none` when nothing was written. -/
def finish (w : SstWriter) : Except SstError (Option SstHandle) := do
  let w ← w.flushData
  if w.leaves.isEmpty then
    if w.index.isEmpty then .ok none else .ok (some ⟨.leaf w.index, w.chooseFilter⟩)
  else do
    let w' ← w.flushIndexLeaf
    .ok (some ⟨.root w'.leaves, w.chooseFilter⟩)

end SstWriter

/-- What is handed to the writer. -/
inductive SstAppend
  | version (key : SstKey) (row : List UInt8)
  | tombstone (key : SstKey)
  | reuse (group : List DataEntry)

/-- The entries of an append. -/
def SstAppend.entries : SstAppend → List DataEntry
  | .version key row => [⟨key, some row⟩]
  | .tombstone key => [⟨key, none⟩]
  | .reuse group => group

namespace SstWriter

/-- One append. -/
def append (w : SstWriter) : SstAppend → Except SstError SstWriter
  | .version key row => w.appendVersion key row
  | .tombstone key => w.appendTombstoneVersion key
  | .reuse group => w.appendReusedPaxGroup group

/-- A file written from a sequence of appends. -/
def build (w : SstWriter) (appends : List SstAppend) : Except SstError (Option SstHandle) := do
  let w ← appends.foldlM append w
  w.finish

end SstWriter

/-! ## Point lookup -/

/-- The common search of both index levels: the last run whose first key is at or below the key, and
the next run instead when that one starts the row and this one does not.
Source: `root_leaf_containing` and `block_containing`, after their first test. -/
def searchFirsts (first : ℕ → SstKey) (count : ℕ) (key : SstKey) : ℕ :=
  let lo := bisectLast (fun i => decide (first i ≤ key)) count 0 (count - 1)
  if (first lo).rowid ≠ key.rowid ∧ lo + 1 < count ∧ (first (lo + 1)).rowid = key.rowid ∧
      key < first (lo + 1) then lo + 1
  else lo

/-- The first key of a root entry. -/
def rootFirst (leaves : List RootEntry) (i : ℕ) : SstKey := (leaves.getD i default).first

/-- The first key of an index entry. -/
def indexFirst (index : List IndexEntry) (i : ℕ) : SstKey := (index.getD i default).first

/-- Source: `root_leaf_containing`. -/
def rootLeafContaining (leaves : List RootEntry) (key : SstKey) : Option ℕ :=
  if leaves.length = 0 ∨ key < rootFirst leaves 0 then none
  else some (searchFirsts (rootFirst leaves) leaves.length key)

/-- Source: `block_containing`. -/
def blockContaining (index : List IndexEntry) (key : SstKey) : Option ℕ :=
  if index.length = 0 then none
  else if key < indexFirst index 0 then
    if key.rowid = (indexFirst index 0).rowid then some 0 else none
  else some (searchFirsts (indexFirst index) index.length key)

/-- The leaf a reader holds, with the keys it serves. Source: `SstIndexLeaf`. -/
structure SstIndexLeaf where
  handle : SstHandle
  entries : List IndexEntry
  lower : Option SstKey
  upper : Option SstKey
  deriving DecidableEq, Repr

/-- Source: `SstIndexLeaf::covers`. -/
def SstIndexLeaf.covers (leaf : SstIndexLeaf) (handle : SstHandle) (key : SstKey) : Bool :=
  decide (leaf.handle = handle) && leaf.lower.all (fun lower => decide (lower ≤ key)) &&
    leaf.upper.all fun upper => decide (key < upper)

/-- Source: `boundary` in `load_covering_leaf`. -/
def leafBoundary (left right : SstKey) : SstKey :=
  if left.rowid = right.rowid then right else SstKey.newest right.rowid

/-- Source: `load_covering_leaf`. -/
def loadCoveringLeaf (handle : SstHandle) (key : SstKey) : SstIndexLeaf :=
  match handle.index with
  | .leaf entries => ⟨handle, entries, none, none⟩
  | .root leaves =>
    let leaf := (rootLeafContaining leaves key).getD 0
    ⟨handle, (leaves.getD leaf default).leaf,
      if 0 < leaf then some (leafBoundary (rootFirst leaves (leaf - 1)) (rootFirst leaves leaf))
      else none,
      if leaf + 1 < leaves.length then
        some (leafBoundary (rootFirst leaves leaf) (rootFirst leaves (leaf + 1)))
      else none⟩

/-- Source: `SstReader`, the leaf it keeps between lookups. -/
structure SstReader where
  indexLeaf : Option SstIndexLeaf

namespace SstReader

/-- The block a leaf names for a key. -/
def blockIn (entries : List IndexEntry) (key : SstKey) : Option (List DataEntry) :=
  (blockContaining entries key).map fun i => (entries.getD i default).block

/-- The block to scan, and the reader afterwards. Source: `point_reference`. -/
def pointReference (reader : SstReader) (handle : SstHandle) (rowid snapshot : ℕ) :
    Option (List DataEntry) × SstReader :=
  let target : SstKey := ⟨rowid, snapshot⟩
  match reader.indexLeaf.filter fun leaf => leaf.covers handle target with
  | some leaf => (blockIn leaf.entries target, reader)
  | none =>
    if !handle.filter.maybeContains rowid then (none, ⟨none⟩)
    else
      let leaf := loadCoveringLeaf handle target
      (blockIn leaf.entries target, ⟨some leaf⟩)

/-- The scan of a block. Source: the loops of `read_point_row_inner` and `probe_at_inner`. -/
def scan (rowid snapshot : ℕ) : List DataEntry → Option DataEntry
  | [] => none
  | e :: rest =>
    if e.key.rowid = rowid ∧ e.key.commitLsn ≤ snapshot then some e
    else if rowid < e.key.rowid then none
    else scan rowid snapshot rest

end SstReader

/-- Source: `SstProbe`. -/
structure SstProbe where
  key : SstKey
  len : Option ℕ
  deriving DecidableEq, Repr

/-- The probe of an entry: `len = none` is a tombstone. -/
def DataEntry.probe (e : DataEntry) : SstProbe := ⟨e.key, e.row.map List.length⟩

namespace SstReader

/-- Source: `probe_at`. -/
def probeAt (reader : SstReader) (handle : SstHandle) (rowid snapshot : ℕ) :
    Option SstProbe × SstReader :=
  let (reference, reader) := reader.pointReference handle rowid snapshot
  ((reference.bind (scan rowid snapshot)).map DataEntry.probe, reader)

/-- The probe and the bytes of an entry, if the buffer takes them.
Source: the result of `read_point_row_inner`. -/
def deliver (capacity : ℕ) (e : DataEntry) : Except SstError (SstProbe × List UInt8) :=
  match e.row with
  | none => .ok (e.probe, [])
  | some row => if capacity < row.length then .error .bufferTooSmall else .ok (e.probe, row)

/-- Source: `get_at` with a buffer of `capacity` bytes. -/
def getAt (reader : SstReader) (handle : SstHandle) (rowid snapshot capacity : ℕ) :
    Except SstError (Option (SstProbe × List UInt8)) × SstReader :=
  let (reference, reader) := reader.pointReference handle rowid snapshot
  match reference.bind (scan rowid snapshot) with
  | none => (.ok none, reader)
  | some e => ((deliver capacity e).map some, reader)

end SstReader

end Pos3ql
