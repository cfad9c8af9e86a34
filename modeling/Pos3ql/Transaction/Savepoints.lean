import Pos3ql.Storage.OwnPending
import Pos3ql.Wal.PrivateStages

/-!
# A transaction and its savepoints

An open transaction keeps a log of the row images it appended (`touched`) and a stack of savepoints,
each a set of marks: into the log, and into the bytes the transaction has staged in the journal.
ROLLBACK TO undoes the log in reverse down to the mark and cuts the stage back.

* `TxnState`, `Savepoint`, with the functions of `sql/txn.rs`.
* `Session`: the transaction with row storage and the journal; `writeRow`, `rollbackToSavepoint`.
* `SessionCall`, `perform`, `run`: histories of one transaction, interleaved with what others do.

A call stands in a history when it took effect. Two failures leave a trace. A write that is refused
after it pruned its row is a call of its own (`refused`). A record that does not fit its stage
leaves the stage claimed, with the record of its database at most; such a failed `stage` stands in
no history. A savepoint keeps marks into many more logs (catalog changes, statistics, notifications,
constraints, triggers, cursors, settings), which rows and journal bytes do not depend on; they are
left out, and so are the large-object descriptors, the read-only mode and the foreign-server
transactions. Names are SQL identifiers, so the 63 bytes a savepoint has for its name hold it.

Source: `sql/txn.rs`, `sql/mod.rs` (`rollback_to_savepoint`), `wal/mod.rs`.
-/

namespace Pos3ql

open Foundation

/-! ## The transaction -/

/-- An entry of the undo log: the row and the appended image.
Source: the elements of `touched`, with `PendingWriteUndo`. -/
structure TouchedRow where
  key : RowKey
  identity : ℕ
  deriving DecidableEq, Repr

/-- Source: `Savepoint`. -/
structure Savepoint where
  name : String
  touchedMark : ℕ
  walMark : ℕ
  failed : Bool
  deriving DecidableEq, Repr

/-- Source: `TxnState`. -/
structure TxnState where
  txid : UInt32
  touched : FixedVec TouchedRow
  savepoints : FixedVec Savepoint
  failed : Bool

namespace TxnState

/-- Source: `touch`. -/
def touch (txn : TxnState) (key : RowKey) (identity : ℕ) : Except SqlError TxnState :=
  match txn.touched.push ⟨key, identity⟩ with
  | some touched => .ok { txn with touched }
  | none => .error ⟨.programLimitExceeded,
      s!"transaction touches more than {txn.touched.capacity} rows (txn_rows)"⟩

/-- Source: `savepoint`. -/
def savepoint (txn : TxnState) (name : String) (walMark : ℕ) : Except SqlError TxnState :=
  match txn.savepoints.push ⟨name, txn.touched.items.length, walMark, txn.failed⟩ with
  | some savepoints => .ok { txn with savepoints }
  | none =>
      .error ⟨.programLimitExceeded, s!"more than {txn.savepoints.capacity} active savepoints"⟩

/-- The newest savepoint with a name. Source: `savepoint_index` (`rposition`). -/
def savepointIndex (txn : TxnState) (name : String) : Option ℕ :=
  (txn.savepoints.items.reverse.findIdx? fun sp => sp.name == name).map fun i =>
    txn.savepoints.items.length - 1 - i

/-- Source: `savepoint_at`. -/
def savepointAt (txn : TxnState) (index : ℕ) : Option Savepoint := txn.savepoints.items[index]?

/-- Source: `release_savepoints_from`. -/
def releaseSavepointsFrom (txn : TxnState) (index : ℕ) : TxnState :=
  { txn with savepoints := txn.savepoints.truncate index }

/-- Source: `rollback_savepoints_after`. -/
def rollbackSavepointsAfter (txn : TxnState) (index : ℕ) : TxnState :=
  { txn with savepoints := txn.savepoints.truncate (index + 1) }

/-- Source: `rewind_touched`. -/
def rewindTouched (txn : TxnState) (touchedMark : ℕ) : TxnState :=
  { txn with touched := txn.touched.truncate touchedMark }

/-- Source: `rewind_to_savepoint`. -/
def rewindToSavepoint (txn : TxnState) (index : ℕ) (boundary : Savepoint) : TxnState :=
  { (txn.rewindTouched boundary.touchedMark).rollbackSavepointsAfter index with
    failed := boundary.failed }

end TxnState

/-! ## The transaction in its surroundings -/

/-- Row storage, the journal and one open transaction. Source: `Engine` with `TxnState`. -/
structure Session (C : CatalogCodec) where
  storage : Storage
  journal : Journal C
  txn : TxnState

namespace Session

variable {C : CatalogCodec}

/-- The transaction's identity as row storage knows it. -/
def owner (S : Session C) : ℕ := S.txn.txid.toNat

/-- The bytes the transaction has staged. Source: `staged_bytes_for_tests`. -/
def stagedBytes (S : Session C) : Bytes := (S.journal.wal.stagedFor S.txn.txid).getD []

/-- Source: `write_row`: append the image, then log it; without room in the log the image is taken
back. -/
def writeRow (S : Session C) (req : Storage.WriteRequest) :
    Option (Session C × Except SqlError Storage.PendingPublication) :=
  if req.change.txid ≠ S.owner then
    some
      (S, .error ⟨.serializationFailure, "row definition selection belongs to another transaction"⟩)
  else do
    match ← S.storage.writePending req with
    | (storage, .ok (.written identity)) =>
      match S.txn.touch req.key identity with
      | .ok txn => some ({ S with storage, txn }, .ok (.written identity))
      | .error e => do
          let storage ← storage.restorePending req.key S.owner identity
          some ({ S with storage }, .error e)
    | (storage, result) => some ({ S with storage }, result)

/-- Source: `establish_savepoint`, with the mark `stage_mark` returns. -/
def establishSavepoint (S : Session C) (name : String) : Except SqlError (Session C) :=
  (S.txn.savepoint name (S.journal.wal.stageMark S.txn.txid)).map fun txn => { S with txn }

/-- Source: the error of an unknown savepoint. -/
def noSavepoint (name : String) : SqlError :=
  ⟨.invalidSavepointSpecification, s!"savepoint \"{name}\" does not exist"⟩

/-- Source: the `RELEASE SAVEPOINT` statement with `release_savepoint`. -/
def releaseSavepoint (S : Session C) (name : String) : Except SqlError (Session C) :=
  match S.txn.savepointIndex name with
  | none => .error (noSavepoint name)
  | some index => .ok { S with txn := S.txn.releaseSavepointsFrom index }

/-- Undo logged images, newest first. Source: the first loop of `rollback_to_savepoint`. -/
def restoreTouched (txid : ℕ) (storage : Storage) (newestFirst : List TouchedRow) :
    Option Storage :=
  newestFirst.foldlM (fun storage entry => storage.restorePending entry.key txid entry.identity)
    storage

/-- Source: `rollback_to_savepoint`. -/
def rollbackToSavepoint (S : Session C) (index : ℕ) : Option (Session C) := do
  let sp ← S.txn.savepointAt index
  let storage ← restoreTouched S.owner S.storage (S.txn.touched.items.drop sp.touchedMark).reverse
  let wal ← S.journal.wal.truncateStage S.txn.txid sp.walMark
  some { storage, journal := { S.journal with wal }, txn := S.txn.rewindToSavepoint index sp }

end Session

/-! ## Histories -/

/-- A call in the history of a transaction: its own, or what somebody else does to row storage or
the journal meanwhile. -/
inductive SessionCall (C : CatalogCodec)
  | write (req : Storage.WriteRequest)
  | refused (req : Storage.WriteRequest)
  | stage (database : Int32) (provisionalLsn : ℕ) (operation : StagedOp C)
  | savepoint (name : String)
  | release (name : String)
  | rollbackTo (name : String)
  | storage (op : Op)
  | journal (call : JournalCall C)

namespace Session

variable {C : CatalogCodec}

/-- **One call of a history**; `none` when it panics, or does not end as the history says. -/
def perform (S : Session C) : SessionCall C → Option (Session C)
  | .write req =>
    match S.writeRow req with
    | some (S', .ok (.written _)) => some S'
    | _ => none
  | .refused req =>
    match S.writeRow req with
    | some (_, .ok (.written _)) | none => none
    | some (S', _) => some S'
  | .stage database provisionalLsn operation =>
    match S.journal.wal.stage database S.txn.txid provisionalLsn operation.op with
    | some (wal, .ok ()) => some { S with journal := { S.journal with wal } }
    | _ => none
  | .savepoint name => (S.establishSavepoint name).toOption
  | .release name => (S.releaseSavepoint name).toOption
  | .rollbackTo name =>
    match S.txn.savepointIndex name with
    | none => none
    | some index => S.rollbackToSavepoint index
  | .storage op => (S.storage.step op).map fun storage => { S with storage }
  | .journal call => (S.journal.step call).map fun journal => { S with journal }

/-- **A history.** -/
def run (S : Session C) (calls : List (SessionCall C)) : Option (Session C) :=
    calls.foldlM perform S

@[simp] lemma run_nil (S : Session C) : S.run [] = some S := rfl

@[simp] lemma run_cons (S : Session C) (call : SessionCall C) (calls : List (SessionCall C)) :
    S.run (call :: calls) = (S.perform call).bind fun S' => S'.run calls := rfl

/-- The call is the transaction's own, or acts for somebody else. -/
def Foreign (txid : UInt32) : SessionCall C → Prop
  | .storage op => op.actor ≠ some txid.toNat
  | .journal call => call.owner ≠ some txid
  | _ => True

/-- **A transaction that has just begun**: nothing logged, nothing staged, no image of its own in
row storage, and every LSN in row storage is a 64-bit number. -/
structure Begun (S : Session C) : Prop where
  reachable : S.storage.Reachable
  assigned : S.txn.txid ≠ 0
  touched : S.txn.touched.items = []
  savepoints : S.txn.savepoints.items = []
  staged : S.journal.wal.stageIndex S.txn.txid = none
  unwritten : ∀ k, S.storage.rowHasOwnPending k S.owner = some false
  lsn : ∀ k row, S.storage.rows k = some row → row.committedLsn ≤ u64Max

end Session

end Pos3ql
