import Pos3ql.Foundation.BitArray
import Pos3ql.Foundation.RecordStream
import Pos3ql.Store.Blocks
import Pos3ql.Store.Sst

/-!
# Value-index generations

A generation is an immutable list of index entries in key order. The writer packs entries into data
blocks; for each data block a roster keeps its name, a Bloom filter over the hashes in it, and
copies of its first and last key. Rosters form a chain, the newest first. Readers walk the chain:
all of it, the blocks whose filter admits a hash, or the blocks whose bounds a classifier does not
exclude. A stream collects the chain first and then yields the entries in the order in which they
were appended, and can be left and taken up at every read. Source: `store/value.rs`,
`store/bloom.rs`.

* `ValueIndexWriter` with `appendInner`, `flush`, `flushRoster`, `finish`.
* `walkRosters` and, on top of it, `walk`, `probe`, `range`.
* `ValueIndexStream` with `nextCopy`.

The extents of the first and last pending key are modelled as the keys themselves. Generations that
are reached through a navigation tree are not part of this module: the readers and the stream are
modelled from where the root turns out to be a roster. What `walk`, `probe` and `range` visit before
an error is left out.
-/

namespace Pos3ql

open Foundation Reader

/-! ## Formats -/

/-- Source: `VALUE_INDEX_KEY_MAX`. -/
def valueIndexKeyMax : ℕ := maxPayload - 28 - 8 - 20

/-- Source: `VALUE_INDEX_TUPLE_MAX`. -/
def valueIndexTupleMax : ℕ := maxPayload - 32 - 8 - 20

/-- Source: `ROSTER_HEADER`. -/
def rosterHeader : ℕ := 4 + 32

/-- Source: `BLOCK_FILTER_BYTES`. -/
def blockFilterBytes : ℕ := 8 * 1024

/-- Source: `FILTERED_BLOCK_REF`. -/
def filteredBlockRef : ℕ := 32 + blockFilterBytes

/-- Source: `ORDERED_BLOCK_REF_HEADER`. -/
def orderedBlockRefHeader : ℕ := filteredBlockRef + 4 + 4

/-- An entry as it is read. Source: the arguments of `visit`. -/
structure ValueIndexRecord where
  hash : UInt64
  rowid : UInt64
  commitLsn : UInt64
  key : Bytes
  payload : Bytes
  deriving DecidableEq, Repr

/-- Source: `ENTRY_HEADER`, `COVERING_ENTRY_HEADER`. -/
def entryHeader (covering : Bool) : ℕ := if covering then 32 else 28

/-- The bytes of an entry. Source: `append_inner`. -/
def ValueIndexRecord.bytes (covering : Bool) (r : ValueIndexRecord) : Bytes :=
  leBytes 8 r.hash.toNat ++ (leBytes 8 r.rowid.toNat ++ (leBytes 8 r.commitLsn.toNat ++
    (leBytes 4 r.key.length ++ ((if covering then leBytes 4 r.payload.length else []) ++
      (r.key ++ r.payload)))))

/-- Source: `walk_data`, one round. -/
def takeRecord (covering : Bool) : Reader ValueIndexError ValueIndexRecord := do
  let hash ← need 8 .corrupt
  let rowid ← need 8 .corrupt
  let commitLsn ← need 8 .corrupt
  let keyLength ← need 4 .corrupt
  let payloadLength ← need (if covering then 4 else 0) .corrupt
  let key ← need (leNat keyLength) .corrupt
  let payload ← need (leNat payloadLength) .corrupt
  pure ⟨UInt64.ofNat (leNat hash), UInt64.ofNat (leNat rowid), UInt64.ofNat (leNat commitLsn), key,
    payload⟩

/-- Source: `walk_data`. -/
def walkData (covering : Bool) (data : Bytes) : Except ValueIndexError (List ValueIndexRecord) :=
  let (found, result) := readAll (takeRecord covering) (fun found r => (found ++ [r], .ok ()))
    data.length [] data
  result.map fun _ => found

/-! ## The filter -/

/-- Source: `bloom::insert`. -/
def bloomInsert (bits : Bytes) (key : UInt64) : Bytes :=
  if bits.length * 8 = 0 then bits
  else (Filter.positions key.toNat (bits.length * 8)).foldl setBit bits

/-- Source: `bloom::maybe_contains`. -/
def bloomMaybeContains (bits : Bytes) (key : UInt64) : Bool :=
  if bits.length * 8 = 0 then true
  else (Filter.positions key.toNat (bits.length * 8)).all (bitAt bits)

/-! ## Rosters -/

/-- Source: `BlockId`, from its 32 bytes. -/
def BlockId.ofBytes (raw : Bytes) : BlockId := ⟨leNat raw % 256 ^ 32, Nat.mod_lt _ (by decide)⟩

/-- The bytes of a name. -/
def BlockId.bytes (id : BlockId) : Bytes := leBytes 32 id.value

/-- Source: `RosterFormat`. -/
inductive RosterFormat
  | plain
  | filtered
  | ordered
  deriving DecidableEq, Repr

/-- Source: `RosterRef`. -/
structure RosterRef where
  id : BlockId
  filter : Option Bytes
  bounds : Option (Bytes × Bytes)

/-- Source: `roster_layout`. -/
def rosterLayout (rawCount rosterLen : ℕ) : Except ValueIndexError (ℕ × RosterFormat × Bool) :=
  if rawCount.testBit 31 = false then .error .corrupt
  else if rawCount.testBit 29 = true then
    if rawCount.testBit 30 = false then .error .corrupt
    else .ok (rawCount % 2 ^ 28, .ordered, rawCount.testBit 28)
  else
    let (format, stride) : RosterFormat × ℕ :=
      if rawCount.testBit 30 = true then (.filtered, filteredBlockRef) else (.plain, 32)
    if rosterLen ≠ rosterHeader + rawCount % 2 ^ 28 * stride then .error .corrupt
    else .ok (rawCount % 2 ^ 28, format, rawCount.testBit 28)

/-- Source: `roster_ref`, the bounds. -/
def takeBounds : Reader ValueIndexError (Option (Bytes × Bytes)) := do
  let firstLength ← need 4 .corrupt
  let lastLength ← need 4 .corrupt
  lift (if (leNat firstLength = 0) = (leNat lastLength = 0) then .ok () else .error .corrupt)
  let first ← need (leNat firstLength) .corrupt
  let last ← need (leNat lastLength) .corrupt
  pure (if leNat firstLength = 0 then none else some (first, last))

/-- Source: `roster_ref`. -/
def takeRosterRef (format : RosterFormat) : Reader ValueIndexError RosterRef := do
  let id ← need 32 .corrupt
  match format with
  | .plain => pure ⟨BlockId.ofBytes id, none, none⟩
  | .filtered => do
      let filter ← need blockFilterBytes .corrupt
      pure ⟨BlockId.ofBytes id, some filter, none⟩
  | .ordered => do
      let filter ← need blockFilterBytes .corrupt
      let bounds ← takeBounds
      pure ⟨BlockId.ofBytes id, some filter, bounds⟩

/-- Source: `roster_predecessor`. -/
def rosterPredecessor (payload : Bytes) : Option BlockId :=
  if ((payload.drop 4).take 32).any (· != 0) then some (BlockId.ofBytes ((payload.drop 4).take 32))
  else none

/-- Source: `flush_roster`, the word with the count and the flags. -/
def rosterWord (count : ℕ) (covering : Bool) : ℕ :=
  count ||| (2 ^ 31 ||| 2 ^ 30 ||| 2 ^ 29 ||| (if covering then 2 ^ 28 else 0))

/-- Source: `flush_roster`, the header. -/
def rosterHeaderBytes (count : ℕ) (covering : Bool) (previous : Option BlockId) : Bytes :=
  leBytes 4 (rosterWord count covering) ++ (match previous with
      | some id => id.bytes
      | none => zeros 32)

/-! ## The writer -/

/-- An entry to append; a payload makes the generation a covering one. Source: the arguments of
`append_inner`. -/
structure ValueIndexEntry where
  hash : UInt64
  rowid : UInt64
  commitLsn : UInt64
  key : Bytes
  payload : Option Bytes
  deriving DecidableEq, Repr

/-- The entry as it is read back. -/
def ValueIndexEntry.record (e : ValueIndexEntry) : ValueIndexRecord :=
  ⟨e.hash, e.rowid, e.commitLsn, e.key, e.payload.getD []⟩

/-- Source: `ValueIndexHandle`; the LSN, which no reader uses, is left out. -/
structure ValueIndexHandle where
  roster : BlockId
  entries : ℕ

/-- Source: `ValueIndexWriter`, without navigation. The roster is kept without its header. -/
structure ValueIndexWriter where
  pending : Bytes
  pendingLen : ℕ
  pendingFilter : Bytes
  pendingFirst : Option Bytes
  pendingLast : Option Bytes
  roster : Bytes
  rosterLen : ℕ
  blockCount : ℕ
  rosterTail : Option BlockId
  entries : ℕ
  covering : Option Bool

namespace ValueIndexWriter

/-- Source: `ValueIndexWriter::new`, `reset`. -/
def new : ValueIndexWriter :=
  ⟨[], 0, zeros blockFilterBytes, none, none, [], rosterHeader, 0, none, 0, none⟩

section Writing

variable (w : BlockWriter) (compare : Bytes → Bytes → Ordering)

/-- Source: `flush_roster`. -/
def flushRoster (s : BlockStore) (v : ValueIndexWriter) :
    Except ValueIndexError (BlockStore × ValueIndexWriter) :=
  if 2 ^ 32 ≤ v.blockCount then .error .corrupt
  else do
    let (s, id) ← w.writeBlock s
      ⟨rosterHeaderBytes v.blockCount (v.covering == some true) v.rosterTail
      ++ v.roster, .valueIndexRoster⟩
    .ok (s,
      { v with rosterTail := some id, blockCount := 0, roster := [], rosterLen := rosterHeader })

/-- The bounds as they are written: without copies when they would not fit a roster. Source: `flush`
(`ref_bytes`, `inline_bounds`). -/
def inlineBounds (first last : Bytes) : Option (Bytes × Bytes) :=
  if orderedBlockRefHeader + first.length + last.length ≤ maxPayload - rosterHeader then
    if first.length + last.length = 0 then none else some (first, last)
  else none

/-- The length of the copies. -/
def boundsLength (bounds : Option (Bytes × Bytes)) : ℕ :=
  bounds.elim 0 fun (first, last) => first.length + last.length

/-- The bytes of the bounds. Source: `flush`. -/
def boundsBytes : Option (Bytes × Bytes) → Bytes
  | none => leBytes 4 0 ++ leBytes 4 0
  | some (first, last) => leBytes 4 first.length ++ (leBytes 4 last.length ++ (first ++ last))

/-- The bytes of a reference to a data block. Source: `flush`. -/
def refBytes (id : BlockId) (filter : Bytes) (bounds : Option (Bytes × Bytes)) : Bytes :=
  id.bytes ++ (filter ++ boundsBytes bounds)

/-- Room for a reference. Source: `flush`, the call of `flush_roster`. -/
def rosterRoom (s : BlockStore) (v : ValueIndexWriter) (refLen : ℕ) :
    Except ValueIndexError (BlockStore × ValueIndexWriter) :=
  if maxPayload < v.rosterLen + refLen then flushRoster w s v else .ok (s, v)

/-- Source: `flush`, the end. -/
def withReference (v : ValueIndexWriter) (id : BlockId) (bounds : Option (Bytes × Bytes)) :
    ValueIndexWriter :=
  { v with
    roster := v.roster ++ refBytes id v.pendingFilter bounds
    rosterLen := v.rosterLen + (orderedBlockRefHeader + boundsLength bounds)
    blockCount := v.blockCount + 1
    pending := []
    pendingLen := 0
    pendingFilter := zeros blockFilterBytes
    pendingFirst := none
    pendingLast := none }

/-- Source: `flush`, from the length of the reference on. -/
def addReference (s : BlockStore) (v : ValueIndexWriter) (id : BlockId)
    (bounds : Option (Bytes × Bytes)) : Except ValueIndexError (BlockStore × ValueIndexWriter) := do
  let (s, v) ← rosterRoom w s v (orderedBlockRefHeader + boundsLength bounds)
  .ok (s, withReference v id bounds)

/-- Source: `flush`; a pending block has a first and a last key. -/
def flush (s : BlockStore) (v : ValueIndexWriter) :
    Except ValueIndexError (BlockStore × ValueIndexWriter) :=
  if v.pendingLen = 0 then .ok (s, v)
  else do
    let (s, id) ← w.writeBlock s ⟨v.pending, .valueIndexData⟩
    addReference w s v id (inlineBounds (v.pendingFirst.getD []) (v.pendingLast.getD []))

/-- Source: `append_inner`, the checks. -/
def accept (v : ValueIndexWriter) (e : ValueIndexEntry) : Except ValueIndexError Unit :=
  if valueIndexKeyMax < e.key.length then .error .keyTooLarge
  else if v.covering.any (· != e.payload.isSome) then .error .corrupt
  else if e.payload.isSome ∧ valueIndexTupleMax < e.key.length + (e.payload.getD []).length then
    .error .keyTooLarge
  else if 0 < v.entries ∧ v.pendingLast.any fun last => compare last e.key == .gt then
    .error .keyOutOfOrder
  else .ok ()

/-- Source: `append_inner`, from the filter on. -/
def put (v : ValueIndexWriter) (e : ValueIndexEntry) : ValueIndexWriter :=
  { v with
    pendingFilter := bloomInsert v.pendingFilter e.hash
    pending := v.pending ++ e.record.bytes e.payload.isSome
    pendingLen :=
      v.pendingLen + (entryHeader e.payload.isSome + e.key.length + (e.payload.getD []).length)
    pendingFirst := some (v.pendingFirst.getD e.key)
    pendingLast := some e.key
    entries := v.entries + 1 }

/-- Room for an entry. Source: `append_inner`, the call of `flush`. -/
def pendingRoom (s : BlockStore) (v : ValueIndexWriter) (bytes : ℕ) :
    Except ValueIndexError (BlockStore × ValueIndexWriter) :=
  if v.pendingLen ≠ 0 ∧ maxPayload < v.pendingLen + bytes then flush w s v else .ok (s, v)

/-- Source: `append_inner`. -/
def appendInner (s : BlockStore) (v : ValueIndexWriter) (e : ValueIndexEntry) :
    Except ValueIndexError (BlockStore × ValueIndexWriter) := do
  accept compare v e
  let (s, v) ← pendingRoom w s { v with covering := some e.payload.isSome }
    (entryHeader e.payload.isSome + e.key.length + (e.payload.getD []).length)
  .ok (s, put v e)

/-- Every entry, one after the other. -/
def appendAll (s : BlockStore) (entries : List ValueIndexEntry) :
    Except ValueIndexError (BlockStore × ValueIndexWriter) :=
  entries.foldlM (fun (s, v) e => appendInner w compare s v e) (s, new)

/-- Source: `finish`. -/
def finish (s : BlockStore) (v : ValueIndexWriter) :
    Except ValueIndexError (BlockStore × ValueIndexHandle) := do
  let (s, v) ← flush w s v
  let (s, v) ← flushRoster w s v
  match v.rosterTail with
  | none => .error .corrupt
  | some roster => .ok (s, ⟨roster, v.entries⟩)

/-- **A generation**: every entry appended, and `finish`. -/
def build (s : BlockStore) (entries : List ValueIndexEntry) :
    Except ValueIndexError (BlockStore × ValueIndexHandle) := do
  let (s, v) ← appendAll w compare s entries
  finish w s v

end Writing

end ValueIndexWriter

/-! ## Readers -/

section Reading

variable (s : BlockStore)

/-- Source: the load of a data block, and `walk_data`. -/
def readData (covering : Bool) (id : BlockId) : Except ValueIndexError (List ValueIndexRecord) :=
  match s id with
  | none => .error .store
  | some block => if block.kind = .valueIndexData then walkData covering block.payload
      else .error .corrupt

/-- The data blocks of a roster that are wanted. Source: the inner loops of `walk_inner` and
`range_covering_with_bounds`. -/
def visitRefs (format : RosterFormat) (covering : Bool) (wanted : RosterRef → Bool) :
    ℕ → Bytes → Except ValueIndexError (List ValueIndexRecord × Bytes)
  | 0, input => .ok ([], input)
  | count + 1, input => do
      let (ref, rest) ← (takeRosterRef format).run input
      let found ← if wanted ref then readData s covering ref.id else .ok []
      let (more, rest) ← visitRefs format covering wanted count rest
      .ok (found ++ more, rest)

/-- The rosters of a chain, as many as `limit` at most; no result when a roster is too short to have
a predecessor, where the source panics. Source: the outer loops of `walk_inner` (`minimum` is 4) and
`range_covering_with_bounds` (`minimum` is the header). -/
def walkRosters (minimum : ℕ) (wanted : RosterRef → Bool) :
    ℕ → Option BlockId → Option (Except ValueIndexError (List ValueIndexRecord))
  | _, none => some (.ok [])
  | 0, some _ => some (.error .corrupt)
  | limit + 1, some roster =>
    match s roster with
    | none => some (.error .store)
    | some block =>
      if block.kind ≠ .valueIndexRoster ∨ block.payload.length < minimum then
        some (.error .corrupt)
      else
        match rosterLayout (leNat (block.payload.take 4)) block.payload.length with
        | .error e => some (.error e)
        | .ok (count, format, covering) =>
          if block.payload.length < rosterHeader then none
          else
            match visitRefs s format covering wanted count (block.payload.drop rosterHeader) with
            | .error e => some (.error e)
            | .ok (found, []) =>
              (walkRosters minimum wanted limit (rosterPredecessor block.payload)).map fun r =>
                r.map fun more => found ++ more
            | .ok (_, _ :: _) => some (.error .corrupt)

/-- Source: `walk`. -/
def ValueIndexHandle.walk (h : ValueIndexHandle) :
    Option (Except ValueIndexError (List ValueIndexRecord)) :=
  (walkRosters s 4 (fun _ => true) (h.entries + 1) (some h.roster)).map fun r =>
    r.bind fun found => if found.length = h.entries then .ok found else .error .corrupt

/-- Source: `probe`. -/
def ValueIndexHandle.probe (h : ValueIndexHandle) (hash : UInt64) :
    Option (Except ValueIndexError (List ValueIndexRecord)) :=
  (walkRosters s 4 (fun ref => ref.filter.all fun filter => bloomMaybeContains filter hash)
    (h.entries + 1) (some h.roster)).map fun r => r.map fun found => found.filter (·.hash == hash)

/-- Source: `ValueIndexPosition`. -/
inductive ValueIndexPosition
  | before
  | isMatch
  | after
  | recheck
  | skip
  deriving DecidableEq, Repr

/-- Source: `range_covering_with_bounds`. -/
def ValueIndexHandle.range (h : ValueIndexHandle) (classify : Bytes → ValueIndexPosition) :
    Option (Except ValueIndexError (List ValueIndexRecord)) :=
  (walkRosters s rosterHeader (fun ref => !ref.bounds.any fun (first, last) =>
      classify last == .before || classify first == .after)
    (h.entries + 1) (some h.roster)).map fun r =>
      r.map fun found => found.filter fun record => classify record.key == .isMatch

end Reading

/-! ## The stream -/

/-- Source: `ValueIndexStreamState`. -/
inductive ValueIndexStreamState
  | rosterCollect (next : Option BlockId)
  | rosterBlocks (position : ℕ)
  | data (id : BlockId) (covering : Bool) (remaining : ℕ)
  | done

/-- Source: `ValueIndexStreamStep`; an entry with the bytes that were copied out. -/
inductive ValueIndexStreamStep
  | entry (copied : Bytes)
  | pending
  | done
  deriving DecidableEq, Repr

/-- Source: `ValueIndexStream`; of the loaded data block, what is still to be copied. -/
structure ValueIndexStream where
  handle : ValueIndexHandle
  capacity : ℕ
  blocks : List (BlockId × Bool)
  data : Bytes
  dataCovering : Bool
  entries : ℕ
  state : ValueIndexStreamState

namespace ValueIndexStream

/-- Source: `ValueIndexStream::new` with `open`. -/
def start (capacity : ℕ) (handle : ValueIndexHandle) : ValueIndexStream :=
  ⟨handle, capacity, [], [], false, 0, .rosterCollect (some handle.roster)⟩

/-- How a call ends; no result when it panics. -/
abbrev Result := Option (ValueIndexStream × Except ValueIndexError ValueIndexStreamStep)

/-- Source: `copy_entry`; `room` is the length of the output. -/
def copyEntry (room : ℕ) (st : ValueIndexStream) : Result :=
  match (takeRecord st.dataCovering).run st.data with
  | .error e => some (st, .error e)
  | .ok (record, rest) =>
    if room < 32 + record.key.length + record.payload.length then some (st, .error .corrupt)
    else
      some ({ st with data := rest, entries := st.entries + 1 }, .ok (.entry (record.bytes true)))

/-- Source: `next_copy`, the references of a roster. -/
def collectRefs (format : RosterFormat) (covering : Bool) (capacity : ℕ) :
    ℕ → Bytes → List (BlockId × Bool) → List (BlockId × Bool) × Except ValueIndexError Bytes
  | 0, input, blocks => (blocks, .ok input)
  | count + 1, input, blocks =>
    match (takeRosterRef format).run input with
    | .error e => (blocks, .error e)
    | .ok (ref, rest) =>
      if blocks.length = capacity then (blocks, .error .corrupt)
      else collectRefs format covering capacity count rest (blocks ++ [(ref.id, covering)])

/-- Source: `next_copy`, `RosterCollect` with the roster read. -/
def collectRoster (block : Block) (st : ValueIndexStream) : Result :=
  if block.kind ≠ .valueIndexRoster ∨ block.payload.length < rosterHeader then
    some (st, .error .corrupt)
  else
    match rosterLayout (leNat (block.payload.take 4)) block.payload.length with
    | .error e => some (st, .error e)
    | .ok (count, format, covering) =>
      match collectRefs format covering st.capacity count (block.payload.drop rosterHeader)
        st.blocks with
      | (blocks, .error e) => some ({ st with blocks }, .error e)
      | (blocks, .ok []) =>
        some ({ st with
          blocks := blocks.take st.blocks.length ++ (blocks.drop st.blocks.length).reverse
          state := .rosterCollect (rosterPredecessor block.payload) }, .ok .pending)
      | (blocks, .ok (_ :: _)) => some ({ st with blocks }, .error .corrupt)

section Calls

variable (s : BlockStore) (maxGets room : ℕ)

/-- Source: `next_copy`, `RosterCollect` with a roster to read. -/
def nextRoster (id : BlockId) (st : ValueIndexStream) : Result :=
  if maxGets = 0 then some (st, .ok .pending)
  else
    match s id with
    | none => some (st, .error .store)
    | some block => collectRoster block st

/-- Source: `next_copy`, `Data`, with `load_data`. -/
def nextData (id : BlockId) (covering : Bool) (remaining : ℕ) (st : ValueIndexStream) : Result :=
  if maxGets = 0 then some (st, .ok .pending)
  else
    match s id with
    | none => some (st, .error .store)
    | some block =>
      if block.kind ≠ .valueIndexData then some (st, .error .corrupt)
      else if block.payload = [] then
        some ({ st with data := [], dataCovering := covering }, .error .corrupt)
      else copyEntry room { st with
        data := block.payload, dataCovering := covering, state := .rosterBlocks remaining }

/-- Source: `next_copy`, `RosterBlocks`. -/
def nextBlock (st : ValueIndexStream) : ℕ → Result
  | 0 =>
    if st.entries ≠ st.handle.entries then some (st, .error .corrupt)
    else some ({ st with state := .done }, .ok .done)
  | remaining + 1 =>
    if maxGets = 0 then some (st, .ok .pending)
    else do
      let (id, covering) ← st.blocks[remaining]?
      nextData s maxGets room id covering remaining { st with state := .data id covering remaining }

/-- Source: `next_copy`. A read that is not ready yet is a block the store of this call does not
have. -/
def nextCopy (st : ValueIndexStream) : Result :=
  if st.data ≠ [] then copyEntry room st
  else
    match st.state with
    | .rosterCollect (some id) => nextRoster s maxGets id st
    | .rosterCollect none =>
      nextBlock s maxGets room { st with state := .rosterBlocks st.blocks.length } st.blocks.length
    | .rosterBlocks position => nextBlock s maxGets room st position
    | .data id covering remaining => nextData s maxGets room id covering remaining st
    | .done => some (st, .ok .done)

end Calls

/-- A call of `next_copy`: what the store has ready, how many reads are allowed, and the length of
the output. -/
structure Call where
  ready : BlockStore
  maxGets : ℕ
  room : ℕ

/-- **Calls one after the other**, with how each ended. -/
def run (st : ValueIndexStream) :
    List Call → Option (ValueIndexStream × List (Except ValueIndexError ValueIndexStreamStep))
  | [] => some (st, [])
  | call :: calls => do
      let (st, result) ← st.nextCopy call.ready call.maxGets call.room
      let (st, results) ← st.run calls
      some (st, result :: results)

/-- What a call copied out. -/
def yielded : Except ValueIndexError ValueIndexStreamStep → List Bytes
  | .ok (.entry copied) => [copied]
  | _ => []

end ValueIndexStream

end Pos3ql
