import Pos3ql.Wal.Records

/-!
# The journal

One file, written front to back. A transaction's records are collected in a stage of its own; when
it commits or prepares, they are stamped with LSNs in commit order, closed by a marker, and flushed
as one batch. Recovery reads the file through a fixed buffer and applies whole batches only. Source:
`wal/mod.rs` (`Wal`).

Assertions of the source that would end the process are `none` in an `Outcome`. A call that returns
an error still leaves a journal behind, and the model keeps it. File reads may return fewer bytes
than asked for; how many is a parameter of `replay`. Failed reads, writes and syncs end the process
and are not modelled; the savepoint telemetry (`stage_stats`) is left out.
-/

namespace Pos3ql

open Foundation

/-- Source: `TransactionStage`; identity zero marks a free one. -/
structure TransactionStage where
  transactionId : UInt32
  database : Int32
  buffer : Bytes
  deriving DecidableEq

/-- Source: `Wal`; `capacity` is the length of the file. -/
structure Wal where
  file : Bytes
  buffer : Bytes
  bufferCapacity : ℕ
  stages : List TransactionStage
  writeOffset : ℕ
  lastLsn : ℕ
  dirty : Bool
  batchFirstLsn : ℕ
  batchStartOffset : ℕ
  deriving DecidableEq

/-- What a call leaves behind: the journal and the call's result, or nothing when an assertion
fails. -/
abbrev Outcome (α : Type) := Option (Wal × Except SqlError α)

namespace Wal

variable {C : CatalogCodec}

/-- Source: `Wal::open`, on a file with the given bytes. -/
def openFile (existing : Bytes) (walBytes walBufferBytes maxConnections : ℕ) :
    Except WalSetupError Wal :=
  if walBytes < existing.length then .error (.shrinkRefused existing.length walBytes)
  else .ok ⟨existing ++ zeros (walBytes - existing.length), [], walBufferBytes,
    List.replicate maxConnections ⟨0, 5, []⟩, 0, 0, false, 0, 0⟩

/-- Source: `capacity`. -/
def capacity (w : Wal) : ℕ := w.file.length

/-! ## Staging -/

/-- Source: `stage_index`. -/
def stageIndex (w : Wal) (transactionId : UInt32) : Option ℕ :=
  w.stages.findIdx? fun stage => stage.transactionId == transactionId

/-- The bytes staged at an index. -/
def staged (w : Wal) (index : ℕ) : Bytes := (w.stages[index]?.map TransactionStage.buffer).getD []

/-- Replace the bytes staged at an index. -/
def setStaged (w : Wal) (index : ℕ) (buffer : Bytes) : Wal :=
  { w with stages := w.stages.modify index fun stage => { stage with buffer } }

/-- Give a stage back. -/
def releaseStage (w : Wal) (index : ℕ) : Wal :=
  { w with stages := w.stages.modify index fun stage =>
      { stage with transactionId := 0, buffer := [] } }

/-- Source: `stage_index_or_claim`; `database` is the executing database. -/
def stageIndexOrClaim (w : Wal) (database : Int32) (transactionId : UInt32) :
    Except SqlError (ℕ × Wal) :=
  match w.stageIndex transactionId with
  | some index =>
    if (w.stages[index]?.map TransactionStage.database) ≠ some database then
      .error ⟨.invalidTransactionTermination, "transaction WAL cannot cross database catalogs"⟩
    else .ok (index, w)
  | none =>
    match w.stageIndex 0 with
    | none => .error ⟨.programLimitExceeded,
        s!"concurrent WAL staging exceeds max_connections ({w.stages.length})"⟩
    | some index =>
      .ok (index, { w with stages := w.stages.set index ⟨transactionId, database, []⟩ })

/-- Append a record to a stage; an error leaves the stage as it was. -/
def appendStaged (w : Wal) (index lsn : ℕ) (operation : WalOp C) : Except SqlError Wal :=
  (appendRecord w.bufferCapacity (w.staged index) lsn operation).map (w.setStaged index)

/-- Source: `stage`. A fresh stage starts with the database it belongs to. -/
def stage (w : Wal) (database : Int32) (transactionId : UInt32) (provisionalLsn : ℕ)
    (operation : WalOp C) : Outcome Unit :=
  if transactionId = 0 then none
  else
    let fresh := (w.stageIndex transactionId).isNone
    match w.stageIndexOrClaim database transactionId with
    | .error e => some (w, .error e)
    | .ok (index, w) =>
      match if fresh then w.appendStaged index provisionalLsn (.databaseScope (C := C) database)
        else .ok w with
      | .error e => some (w, .error e)
      | .ok w =>
        match w.appendStaged index provisionalLsn operation with
        | .error e => some (w, .error e)
        | .ok w => some (w, .ok ())

/-- Source: `stage_mark`. -/
def stageMark (w : Wal) (transactionId : UInt32) : ℕ :=
  match w.stageIndex transactionId with
  | none => 0
  | some index => (w.staged index).length

/-- Source: `truncate_stage`. -/
def truncateStage (w : Wal) (transactionId : UInt32) (mark : ℕ) : Option Wal :=
  if transactionId = 0 then none
  else
    match w.stageIndex transactionId with
    | none => some w
    | some index =>
      if (w.staged index).length < mark then none
      else if mark = 0 then some (w.releaseStage index)
      else some (w.setStaged index ((w.staged index).take mark))

/-- Source: `discard_stage`. -/
def discardStage (w : Wal) (transactionId : UInt32) : Option Wal :=
  if transactionId = 0 then none
  else
    match w.stageIndex transactionId with
    | none => some w
    | some index => some (w.releaseStage index)

/-! ## Finishing a transaction -/

/-- The records in staged bytes, cut apart. Source: the loops over `staged` in `finish_stage`;
`none` when a record is not complete. -/
def splitFrames : ℕ → Bytes → Option (List Bytes)
  | _, [] => some []
  | 0, _ :: _ => none
  | fuel + 1, staged =>
    if staged.length < headerLen ∨ staged.length < frameTotal staged then none
    else (splitFrames fuel (staged.drop (frameTotal staged))).map
      (staged.take (frameTotal staged) :: ·)

/-- A record with its final LSN and its checksum. Source: the stamping loop of `finish_stage`. -/
def restamp (lsn : ℕ) (record : Bytes) : Bytes :=
  let body := (record.drop 4).take 4 ++ (leBytes 8 lsn ++ record.drop 16)
  leBytes 4 (crc32c body).toNat ++ body

/-- All records of a batch, stamped in order. -/
def restampAll : ℕ → List Bytes → Bytes
  | _, [] => []
  | lsn, record :: rest => restamp (lsn + 1) record ++ restampAll (lsn + 1) rest

/-- The records of a prepared transaction, as they are kept for its resolution.
Source: `captured_records` in `finish_stage`. -/
def captureRecords : ℕ → List Bytes → Bytes
  | _, [] => []
  | lsn, record :: rest =>
    leBytes 8 (lsn + 1) ++ (Take.countedBytes 4 (record.drop 16) ++ captureRecords (lsn + 1) rest)

/-- Source: the error of a full buffer. -/
def bufferFull (capacity : ℕ) : SqlError :=
  ⟨.programLimitExceeded,
    s!"transaction exceeds wal_buffer_bytes ({capacity}); raise it or commit in smaller batches"⟩

/-- Check the room, stamp the records of the stage at `index` and append the marker. `captured` is
the capacity of the buffer a prepared transaction's records are copied into. The result is the last
LSN and the copy. Source: `finish_stage`, from `final_lsn` on. -/
def sealStage (w : Wal) (index : ℕ) (records : List Bytes) (lsnFloor : ℕ) (boundary : WalOp C)
    (captured : Option ℕ) : Outcome (ℕ × Bytes) :=
  let finalLsn := lsnFloor + records.length + 1
  let size := (w.staged index).length + (headerLen + boundary.payload.length)
  if u64Max < finalLsn then
    some (w, .error ⟨.programLimitExceeded, "WAL LSN space exhausted"⟩)
  else if w.bufferCapacity - w.buffer.length < size then
    some (w, .error (bufferFull w.bufferCapacity))
  else if w.capacity < w.writeOffset + w.buffer.length + size then
    some (w, .error ⟨.journalFull, "WAL journal is full; run CHECKPOINT (or raise wal_bytes)"⟩)
  else if w.buffer ≠ [] ∨ lsnFloor < w.lastLsn then none
  else
    let body := restampAll lsnFloor records
    let copy := captureRecords lsnFloor records
    if captured.any fun capacity => decide (capacity < copy.length) then
      some ({ w with buffer := body }, .error ⟨.programLimitExceeded,
        s!"prepared transaction exceeds wal_buffer_bytes ({captured.getD 0})"⟩)
    else
      match appendRecord w.bufferCapacity body finalLsn boundary with
      | .error e => some ({ w with buffer := body }, .error e)
      | .ok buffer =>
        let w := { w with
          buffer
          lastLsn := finalLsn
          dirty := true
          batchFirstLsn := if w.batchFirstLsn = 0 then lsnFloor + 1 else w.batchFirstLsn
          batchStartOffset := if w.batchFirstLsn = 0 then w.writeOffset else w.batchStartOffset }
        some (w.releaseStage index, .ok (finalLsn, if captured.isSome then copy else []))

/-- Source: `finish_stage`. -/
def finishStage (w : Wal) (transactionId : UInt32) (lsnFloor : ℕ) (boundary : WalOp C)
    (captured : Option ℕ) : Outcome (ℕ × Bytes) :=
  if transactionId = 0 then none
  else
    match w.stageIndex transactionId with
    | none => some (w, .ok (lsnFloor, []))
    | some index =>
      if w.staged index = [] then some (w.releaseStage index, .ok (lsnFloor, []))
      else
        match splitFrames (w.staged index).length (w.staged index) with
        | none => none
        | some records => w.sealStage index records lsnFloor boundary captured

/-- Source: `commit_stage_with_transaction_identity`. -/
def commitStage (C : CatalogCodec) (w : Wal) (transactionId : UInt32) (lsnFloor : ℕ)
    (assignedTransactionIdentity : Bool) (now : Int64) : Outcome (ℕ × Bytes) :=
  w.finishStage transactionId lsnFloor
    (.commit (C := C) transactionId assignedTransactionIdentity (some now)) none

/-- Source: `PreparedTransactionMetadata`, the fields the journal reads. -/
structure PreparedTransactionMetadata where
  gid : WalName
  transactionId : UInt32
  owner : RoleOid
  database : Int32
  preparedAt : Int64

/-- Source: `prepare_stage`; `recordsCapacity` is the size of the slot's copy. -/
def prepareStage (C : CatalogCodec) (w : Wal) (executing : Int32)
    (metadata : PreparedTransactionMetadata) (lsnFloor recordsCapacity : ℕ) : Outcome (ℕ × Bytes) :=
  if metadata.transactionId = 0 then none
  else
    let boundary : WalOp C := .prepareTransaction metadata.transactionId metadata.owner
      metadata.database metadata.preparedAt metadata.gid
    if (w.stageIndex metadata.transactionId).isNone then
      match w.stageIndexOrClaim executing metadata.transactionId with
      | .error e => some (w, .error e)
      | .ok (index, w) =>
        match w.appendStaged index lsnFloor (.databaseScope (C := C) metadata.database) with
        | .error e => some (w, .error e)
        | .ok w => w.finishStage metadata.transactionId lsnFloor boundary (some recordsCapacity)
    else w.finishStage metadata.transactionId lsnFloor boundary (some recordsCapacity)

/-! ## The file -/

/-- Source: `write_all_at`. -/
def writeAt (file data : Bytes) (offset : ℕ) : Bytes :=
  file.take offset ++ (data ++ file.drop (offset + data.length))

/-- Source: `commit` with `flush_buffer`. -/
def commit (w : Wal) : Wal :=
  if !w.dirty then w
  else
    { w with
      file := writeAt w.file w.buffer w.writeOffset
      writeOffset := w.writeOffset + w.buffer.length
      buffer := []
      dirty := false }

/-- Source: `reset_after_checkpoint`. -/
def resetAfterCheckpoint (w : Wal) : Wal :=
  { w with
    buffer := [], writeOffset := 0, dirty := false, batchFirstLsn := 0, batchStartOffset := 0 }

/-- Source: `clear_batch_marker`. -/
def clearBatchMarker (w : Wal) : Wal := { w with batchFirstLsn := 0 }

end Wal

/-! ## Recovery -/

/-- How far `replay` has come; `applied` is what the callback has built. -/
structure ReplayProgress (σ : Type) where
  parsedOffset : ℕ
  lastSeenLsn : ℕ
  pending : List (ℕ × Bytes)
  lastLsn : ℕ
  writeOffset : ℕ
  applied : σ

/-- The local variables of `replay`: the progress, and the part of the file in the buffer. -/
structure ReplayState (σ : Type) extends ReplayProgress σ where
  buffer : Bytes
  fileOffset : ℕ

section Replay

variable {σ : Type} (C : CatalogCodec) (file : Bytes) (bufferCapacity floor : ℕ)
  (apply : σ → ℕ → Bytes → Except SqlError σ) (reads : ℕ → ℕ)

/-- Hand the records above the floor to the callback. Source: the loop over `pending`. -/
def applyAbove (applied : σ) (records : List (ℕ × Bytes)) : Except WalSetupError σ :=
  records.foldlM (fun applied record =>
      if floor < record.1 then (apply applied record.1 record.2).mapError .replay
      else .ok applied) applied

/-- Take over an accepted record; a marker closes its batch. Source: the end of the inner loop of
`replay`. -/
def acceptRecord (p : ReplayProgress σ) (lsn : ℕ) (kind : UInt8) (raw : Bytes) (total : ℕ) :
    Except WalSetupError (ReplayProgress σ) :=
  let p := { p with
    lastSeenLsn := lsn
    pending := p.pending ++ [(lsn, raw)]
    parsedOffset := p.parsedOffset + total }
  if !isBoundary kind then .ok p
  else do
    let applied ← applyAbove floor apply p.applied p.pending
    .ok { p with applied, lastLsn := lsn, writeOffset := p.parsedOffset, pending := [] }

/-- Source: the nested loops of `replay`, as one: each round either reads more of the file or judges
the front of the buffer. `reads` tells how many bytes a read returns at most. -/
def replayLoop : ℕ → ReplayState σ → Except WalSetupError (ReplayState σ)
  | 0, st => .ok st
  | fuel + 1, st =>
    match checkFrame C bufferCapacity st.lastSeenLsn (file.drop st.parsedOffset) st.buffer with
    | .stop => .ok st
    | .refuse e => .error e
    | .accept lsn kind raw total => do
        let p ← acceptRecord floor apply st.toReplayProgress lsn kind raw total
        replayLoop fuel ⟨p, st.buffer.drop total, st.fileOffset⟩
    | .needMore =>
      let want := min (bufferCapacity - st.buffer.length) (file.length - st.fileOffset)
      if want = 0 then .ok st
      else
        let n := min want (max 1 (reads st.fileOffset))
        replayLoop fuel { st with
          buffer := st.buffer ++ (file.drop st.fileOffset).take n
          fileOffset := st.fileOffset + n }

end Replay

namespace Wal

/-- Source: `replay`. Each round reads a byte or consumes a record, so twice the file's length
bounds them. -/
def replay {σ : Type} (C : CatalogCodec) (w : Wal) (floor : ℕ)
    (apply : σ → ℕ → Bytes → Except SqlError σ) (start : σ) (reads : ℕ → ℕ) :
    Except WalSetupError (σ × Wal) := do
  let st ← replayLoop C w.file w.bufferCapacity floor apply reads (2 * w.file.length + 1)
    ⟨⟨0, 0, [], w.lastLsn, w.writeOffset, start⟩, [], 0⟩
  .ok (st.applied, { w with buffer := [], lastLsn := st.lastLsn, writeOffset := st.writeOffset })

/-! ## The cursor over committed transactions -/

end Wal

end Pos3ql
