import Pos3ql.Storage.RowVersions
import Pos3ql.Storage.Snapshots

/-!
# Row publication: pending writes, undo, commit and reading

The storage state around the version arrays, and every operation that moves a row between its
states: a pending write (`writePending`), its undo (`restorePending`), the freezing of its index
keys (`prepareCommitRowKeys`), its commit (`publishRow`), and the pruning of history that no
snapshot needs (`pruneSnapshotCell`, `cleanSnapshotHistory`). Reading is `visibleRowHomeAt`.

Each operation runs under the locks its source takes, so it is one step here; `none` is a panic.
A write prepares its image and then publishes it if the row has not changed; the prepared image of
an unchanged row is the one prepared from the state at publication, so both halves are one step,
and a `Retry` is the step that changes nothing.

Conditions decided outside row storage enter as arguments: whether a definition change is pending,
whether the heap still accepts the image, whether the overlay has a free entry, whether statistics
can be recorded, the verdict of the definition and binding validations, and whether a checkpoint
holds the deletion set. The saved row files of a table are read at the contract of one point
lookup: the newest entry at or below the snapshot. Index maintenance is left out.

Sources: `storage/row_publication.rs`, `storage/row_reads.rs`, `storage/row_layout.rs`,
`storage/publication_generations.rs`, `storage/snapshot_reclamation.rs`, `storage/row_cleanup.rs`
and the row functions of `storage/mod.rs`.
-/

namespace Pos3ql

/-- A row of a table. -/
structure RowKey where
  table : ℕ
  rowid : ℕ
  deriving DecidableEq, Repr

/-- One saved version of a row; `len = none` is a saved deletion.
Source: `SpillVersion`. -/
structure SpillVersion where
  len : Option ℕ
  generation : ℕ
  commitLsn : ℕ
  deriving DecidableEq, Repr

/-- Source: the `committed` field built by `SpilledRowState::metadata`. -/
def SpillVersion.home (v : SpillVersion) : Option RowHome :=
  v.len.map fun len => .spilled len v.generation v.commitLsn

/-- One saved file: the versions of every row, newest first. -/
structure SpillMember where
  versions : ℕ → List SpillVersion

/-- Source: `TablePublication`, its generation counter, row layout and reservations. -/
structure TablePublication where
  generation : ℕ
  /-- `row_layout.first_generation`. -/
  firstGeneration : ℕ
  /-- Reserved generations left to each transaction (`generation_reservations`). -/
  reservations : ℕ → ℕ
  /-- The sum of all reservations. -/
  reservedGenerations : ℕ

/-- Source: `Storage`, the fields row publication uses. -/
structure Storage where
  maxRowVersionsPerRow : ℕ
  versions : RowVersionState
  rows : RowKey → Option RowState
  publication : ℕ → TablePublication
  spillGenerations : ℕ → List SpillMember
  snapshots : SnapshotState

/-! ## Layouts and saved rows -/

/-- Source: `RowLayout::obsolete`. -/
def TablePublication.obsolete (p : TablePublication) (state : RowState) : Bool :=
  state.committedGeneration.any fun generation => generation < p.firstGeneration

/-- Source: `RowLayout::visible_state`. -/
def TablePublication.visibleState (p : TablePublication) (state : RowState) : RowState :=
  if p.obsolete state then { state with committed := none, history := .empty } else state

/-- Source: `preview_reserved_generation`. -/
def TablePublication.previewReservedGeneration (p : TablePublication) (transaction : ℕ) :
    Except SqlError ℕ :=
  if p.reservations transaction = 0 then
    .error ⟨.internalError, "table publication generation was not admitted before WAL durability"⟩
  else .ok (p.generation + 1)

/-- Source: `publish_reserved_generation`. -/
def TablePublication.publishReservedGeneration (p : TablePublication) (transaction : ℕ) :
    TablePublication :=
  { p with
    generation := p.generation + 1
    reservations := Function.update p.reservations transaction (p.reservations transaction - 1)
    reservedGenerations := p.reservedGenerations - 1 }

/-- Source: `reserve_generations`, without the bound on the number of reservation records. -/
def TablePublication.reserveGenerations (p : TablePublication) (transaction count : ℕ) :
    Except SqlError TablePublication :=
  let reserved := p.reservedGenerations - p.reservations transaction + count
  if u64Max < p.generation + reserved then
    .error ⟨.programLimitExceeded, "table publication generations exhausted"⟩
  else
    .ok { p with
      reservations := Function.update p.reservations transaction count
      reservedGenerations := reserved }

/-- The better of two probes: the later member wins a tie.
Source: the `best` update of `probe_spill_source`. -/
def betterProbe (best : Option SpillVersion) (probe : Option SpillVersion) : Option SpillVersion :=
  match probe, best with
  | none, best => best
  | some probe, none => some probe
  | some probe, some current => if current.commitLsn ≤ probe.commitLsn then some probe
      else some current

/-- Source: `probe_spill_source`. -/
def probeSpillSource (members : List SpillMember) (rowid snapshot : ℕ) : Option SpillVersion :=
  members.foldl (fun best m =>
    betterProbe best ((m.versions rowid).find? fun v => decide (v.commitLsn ≤ snapshot))) none

/-- Source: `redundant_spilled_row_state`. -/
def RowState.redundantSpilled (state : RowState) : Bool :=
  state.committed.any (fun home => !home.isHeap) && state.checkpointChangeLsn == 0 &&
    state.history.len == 0 && state.pending.len == 0

namespace Storage

/-- The state a pending write starts from when the row is not resident.
Source: `prepare_pending_write_image_for` with `SpilledRowState::metadata`. -/
def synthesize (st : Storage) (k : RowKey) : RowState :=
  match probeSpillSource (st.spillGenerations k.table) k.rowid u64Max with
  | some v => ⟨v.home, v.commitLsn, some (st.publication k.table).generation, 0, .empty, .empty⟩
  | none => ⟨none, 0, none, 0, .empty, .empty⟩

/-! ## Reading -/

end Storage

/-- Source: `RowVersionIdentity`. -/
inductive RowVersionIdentity
  | pending (identity : ℕ)
  | committed (lsn : ℕ)
  deriving DecidableEq, Repr

/-- A visible image: which version it is, and where its bytes are.
Source: `VisibleRowHome` (`snapshot.version` and the byte source). -/
structure VisibleRow where
  version : RowVersionIdentity
  home : RowHome
  deriving DecidableEq, Repr

/-- Source: `visible_version_at`. -/
def visibleVersionAt (versions : RowVersionState) (state : RowState)
    (txid commandSnapshot commitSnapshot : ℕ) :
    Option (Option (RowVersionIdentity × Option RowHome)) := do
  match ← pendingVersionAt versions.pendingRowVersions state.pending txid commandSnapshot with
  | some e => some (some (.pending e.identity, e.change.loc.map .heap))
  | none =>
    if state.committedLsn ≤ commitSnapshot then
      some (some (.committed state.committedLsn, state.committed))
    else
      match ← committedVersionAt versions.committedRowVersions state.history commitSnapshot with
      | some v => some (some (.committed v.lsn, v.home))
      | none => some none

/-- **The version is selected from the lists that the chains of the row spell.** -/
lemma visibleVersionAt_linked {vs : RowVersionState} {row : RowState} {cells cells' : List ℕ}
    (hp : vs.pendingRowVersions.pool.Linked row.pending.tail cells)
    (hh : vs.committedRowVersions.pool.Linked row.history.tail cells') (txid cs s : ℕ) :
    visibleVersionAt vs row txid cs s =
      some (((vs.pendingRowVersions.pool.read cells).find? fun e =>
        e.change.txid == txid && decide (e.change.cid < cs)).elim
      (if row.committedLsn ≤ s then some (.committed row.committedLsn, row.committed)
        else ((vs.committedRowVersions.pool.read cells').find? fun v => decide (v.lsn ≤ s)).map
          fun v => (.committed v.lsn, v.home))
      fun e => some (.pending e.identity, e.change.loc.map .heap)) := by
  unfold visibleVersionAt pendingVersionAt committedVersionAt
  rw [hp.search_eq _ hp.length_le, hh.search_eq _ hh.length_le]
  rcases List.find? _ (vs.pendingRowVersions.pool.read cells) with _ | e
  · rcases List.find? _ (vs.committedRowVersions.pool.read cells') with _ | v
    all_goals
      split_ifs <;> rfl
  · rfl

namespace Storage

/-- The saved image at a snapshot. Source: `lookup_owned_objects`,
`SpilledRowState::visible_at`. -/
def savedAt (st : Storage) (k : RowKey) (commitSnapshot : ℕ) : Option VisibleRow :=
  (probeSpillSource (st.spillGenerations k.table) k.rowid commitSnapshot).bind fun v =>
    v.home.map fun home => ⟨.committed v.commitLsn, home⟩

/-- Source: `visible_row_home_at` over the state `row_state` selects. -/
def visibleRowHomeAt (st : Storage) (k : RowKey) (txid commandSnapshot commitSnapshot : ℕ) :
    Option (Option VisibleRow) :=
  let commitSnapshot := match st.snapshots.transactionMode with
    | .mvcc => commitSnapshot
    | .locking => u64Max
  match st.rows k with
  | none => some (st.savedAt k commitSnapshot)
  | some state => do
      let state := (st.publication k.table).visibleState state
      match ← visibleVersionAt st.versions state txid commandSnapshot commitSnapshot with
      | some (version, home) => some (home.map fun home => ⟨version, home⟩)
      | none => some (st.savedAt k commitSnapshot)

/-- The newest pending entry of a row, if it is resident. Source: `pending_last` of the row's
state. -/
def rowHead (st : Storage) (k : RowKey) : Option (Option PendingEntry) :=
  match st.rows k with
  | none => some none
  | some state => pendingHead st.versions.pendingRowVersions state.pending

/-- Source: `row_has_own_pending`. -/
def rowHasOwnPending (st : Storage) (k : RowKey) (txid : ℕ) : Option Bool := do
  let head ← st.rowHead k
  some (head.any fun e => e.change.txid == txid)

/-! ## Pending writes -/

/-- Store a row state. -/
def setRow (st : Storage) (k : RowKey) (versions : RowVersionState) (row : Option RowState) :
    Storage :=
  { st with versions, rows := Function.update st.rows k row }

/-- Source: `restore_pending_locked`. -/
def restorePending (st : Storage) (k : RowKey) (txid identity : ℕ) : Option Storage :=
  match st.rows k with
  | none => some st
  | some state => do
      match ← pendingHead st.versions.pendingRowVersions state.pending with
      | none => some st
      | some head =>
        if head.identity ≠ identity ∨ head.change.txid ≠ txid then some st
        else
          let (versions, pending, _) ← popPendingVersion st.versions state.pending
          let state := { state with pending }
          -- a committed deletion still shadows older saved images
          if (!state.hasCommittedVersion && state.history.len == 0 && state.pending.len == 0) ||
              state.redundantSpilled then
            some (st.setRow k versions none)
          else
            some (st.setRow k versions (some state))

/-- What a write asks for, with the verdicts taken outside row storage. -/
structure WriteRequest where
  key : RowKey
  change : PendingChange
  /-- The transaction whose definition change of the table is pending. -/
  definitionOwner : Option ℕ
  /-- `heap.accepts_publication`. -/
  heapAccepts : Bool
  /-- `rows.prepare_entry` failed. -/
  overlayFull : Bool
  /-- The error of `record_relation_write`. -/
  statistics : Option SqlError

/-- Source: `PendingPublication`. -/
inductive PendingPublication
  | written (identity : ℕ)
  | retry
  | overlayFull
  | historyFull (error : SqlError)
  | wait (owner : ℕ) (message : String)
  deriving DecidableEq, Repr

/-- Drop the images of an old layout.
Source: `publish_pending_write` (the `row_layout.obsolete` branch). -/
def dropObsolete (st : Storage) (k : RowKey) (state : RowState) :
    Option (RowVersionState × RowState) :=
  if (st.publication k.table).obsolete state then
    (pruneCommittedHistory st.versions state none).map fun (versions, state) =>
      (versions, { state with committed := none })
  else some (st.versions, state)

/-- Prune before a write, and store the shortened chain handles even if the write then fails.
Source: `publish_pending_write`, from the obsolete check to `replace_existing_state`. -/
def pruneForWrite (st : Storage) (k : RowKey) (state : RowState) : Option (Storage × RowState) := do
  let (versions, state) ← st.dropObsolete k state
  let (versions, state) ← pruneCommittedHistory versions state st.snapshots.oldest
  if (st.rows k).isSome then some (st.setRow k versions (some state), state)
  else some ({ st with versions }, state)

/-- Append the change and, for the first change of a committed row, reserve a history slot.
Source: `publish_pending_write`, from `push_pending_version` to `entry.publish`. -/
def appendPending (st : Storage) (k : RowKey) (state : RowState) (change : PendingChange) :
    Option (Storage × Except SqlError PendingPublication) := do
  match ← pushPendingVersion st.versions.pendingRowVersions state.pending
      st.maxRowVersionsPerRow change with
  | .error e => some (st, .error e)
  | .ok (pool, pending, identity) =>
    let versions := { st.versions with pendingRowVersions := pool }
    if st.snapshots.transactionMode = .mvcc ∧ pending.len = 1 ∧ state.hasCommittedVersion then
      match ← reserveHistorySlot versions.committedRowVersions with
      | .ok (committed, slot) =>
        let pending := { pending with historyReservation := .reserved slot }
        some (st.setRow k { versions with committedRowVersions := committed }
          (some { state with pending }), .ok (.written identity))
      | .error e =>
        let (versions, _, _) ← popPendingVersion versions pending
        some ({ st with versions }, .ok (.historyFull e))
    else
      some (st.setRow k versions (some { state with pending }), .ok (.written identity))

/-- Source: `publish_pending_write` after its waits. -/
def publishPendingWrite (st : Storage) (req : WriteRequest) :
    Option (Storage × Except SqlError PendingPublication) := do
  let k := req.key
  let (st, state) ← st.pruneForWrite k ((st.rows k).getD (st.synthesize k))
  let maximum := st.maxRowVersionsPerRow
  let rowid := k.rowid
  if st.snapshots.oldest.isSome ∧ state.pending.len = 0 ∧ state.hasCommittedVersion ∧
      state.history.len = maximum then
    some (st, .error ⟨.programLimitExceeded,
      s!"active snapshot history for row {rowid} reached max_row_versions_per_row ({maximum})"⟩)
  else
    match ← st.appendPending k state req.change with
    | (st, .ok (.written identity)) =>
      match req.statistics with
      | none => some (st, .ok (.written identity))
      | some error => do
          let st ← st.restorePending k req.change.txid identity
          some (st, .error error)
    | other => some other

/-- Source: `publish_pending_write`. -/
def writePending (st : Storage) (req : WriteRequest) :
    Option (Storage × Except SqlError PendingPublication) :=
  match req.definitionOwner.filter fun owner => owner ≠ req.change.txid with
  | some owner =>
    some (st, .ok (.wait owner "statement is waiting for a concurrent table definition change"))
  | none =>
    if !req.heapAccepts then some (st, .ok .retry)
    else do
      let head ← st.rowHead req.key
      match head.filter fun e => e.change.txid ≠ req.change.txid with
      | some e =>
        some (st, .ok (.wait e.change.txid "statement is waiting for a concurrent row update"))
      | none =>
        if req.overlayFull then some (st, .ok .overlayFull) else st.publishPendingWrite req

/-! ## Commit -/

/-- Freeze the index keys of a transaction's newest image.
Source: `prepare_commit_row_keys` for one row, once its keys are computed. -/
def prepareCommitRowKeys (st : Storage) (k : RowKey) (txid : ℕ) : Option Storage :=
  match (st.rows k).bind fun state => state.pending.tail with
  | none => some st
  | some slot => do
      let s ← st.versions.pendingRowVersions.pool.slots[slot]?
      if s.value.change.txid = txid then
        let pool := st.versions.pendingRowVersions.pool.put slot
          { s with value := { s.value with keysPrepared := true } }
        some { st with versions := { st.versions with pendingRowVersions.pool := pool } }
      else some st

/-- Verdicts a row commit takes from outside row storage. -/
structure CommitContext where
  /-- The outcome of `validate_definition` and `validate_bindings`. -/
  validation : Except SqlError Unit
  /-- The transaction rewrites the table's rows into a new layout. -/
  rewritten : Bool
  /-- No checkpoint holds the table's deletion set. -/
  deletionsIdle : Bool

/-- Keep the current image as history, or drop all history.
Source: `publish_prepared_row` (the retention branch). -/
def retainForCommit (st : Storage) (state : RowState) (txid : ℕ) (rewritten : Bool) :
    Option (Except SqlError (RowVersionState × RowState)) :=
  if !rewritten && st.snapshots.retainsFor txid && state.hasCommittedVersion then
    retainCurrentRow st.versions state st.maxRowVersionsPerRow
  else
    (pruneCommittedHistory st.versions state none).map .ok

/-- Install the pending image as the committed one and drop the pending chain.
Source: `publish_prepared_row`, from the `state.committed` assignment on. -/
def installCommitted (st : Storage) (k : RowKey) (versions : RowVersionState) (state : RowState)
    (txid commitLsn generation : ℕ) (loc : Option RowLoc) (deletionsIdle : Bool) :
    Option Storage := do
  let (versions, pending) ← clearPendingVersions versions state.pending
  let state : RowState :=
    ⟨loc.map .heap, commitLsn, some generation, commitLsn, state.history, pending⟩
  let remove := state.committed.isNone && (st.spillGenerations k.table).isEmpty &&
    state.history.len == 0 && deletionsIdle
  let st := st.setRow k versions (if remove then none else some state)
  some { st with
    publication := Function.update st.publication k.table
      ((st.publication k.table).publishReservedGeneration txid) }

/-- Source: `publish_prepared_row`. -/
def publishPreparedRow (st : Storage) (k : RowKey) (txid head commitLsn : ℕ)
    (context : CommitContext) : Option (Storage × Except SqlError Unit) :=
  match context.validation with
  | .error e => some (st, .error e)
  | .ok () =>
    match (st.publication k.table).previewReservedGeneration txid with
    | .error e => some (st, .error e)
    | .ok generation =>
      match st.rows k with
      | none => some (st, .error ⟨.serializationFailure,
          "pending row disappeared before committed publication"⟩)
      | some state => do
          match ← pendingHead st.versions.pendingRowVersions state.pending with
          | none => some (st, .error ⟨.serializationFailure,
              "pending row changed before committed publication"⟩)
          | some pending =>
            if pending.identity ≠ head then
              some (st,
                .error ⟨.serializationFailure, "pending row changed before committed publication"⟩)
            else
              match ← st.retainForCommit state txid context.rewritten with
              | .error e => some (st, .error e)
              | .ok (versions, state) => do
                  let st ← st.installCommitted k versions state txid commitLsn generation
                    pending.change.loc context.deletionsIdle
                  some (st, .ok ())

/-- Source: `publish_row`. -/
def publishRow (st : Storage) (k : RowKey) (txid commitLsn : ℕ) (context : CommitContext) :
    Option (Storage × Except SqlError Unit) :=
  match st.rows k with
  | none => some (st, .ok ())
  | some state => do
      match ← pendingHead st.versions.pendingRowVersions state.pending with
      | none => some (st, .ok ())
      | some head =>
        if head.change.txid ≠ txid then some (st, .ok ())
        else if !head.keysPrepared then
          some
            (st, .error ⟨.internalError, "row index keys were not prepared before WAL durability"⟩)
        else st.publishPreparedRow k txid head.identity commitLsn context

/-! ## Reclamation -/

/-- The snapshot history of one row is pruned for. -/
def oldestFor (st : Storage) (k : RowKey) (state : RowState) : Option ℕ :=
  if (st.publication k.table).obsolete state then none else st.snapshots.oldest

/-- Source: `clean_row_slots`, task `SnapshotHistory`. -/
def cleanSnapshotHistory (st : Storage) (k : RowKey) : Option Storage :=
  match st.rows k with
  | none => some st
  | some state => do
      let (versions, state) ← pruneCommittedHistory st.versions state (st.oldestFor k state)
      some (st.setRow k versions (some state))

/-- Source: `prune_snapshot_cell`. -/
def pruneSnapshotCell (st : Storage) (k : RowKey) (deletionsIdle : Bool) : Option Storage :=
  match st.rows k with
  | none => some st
  | some state => do
      let obsolete := (st.publication k.table).obsolete state
      let (versions, state) ← pruneCommittedHistory st.versions state (st.oldestFor k state)
      let covered := match st.snapshots.oldest with
        | none => true
        | some snapshot => decide (state.committedLsn ≤ snapshot)
      let remove := (covered || obsolete) && (st.spillGenerations k.table).isEmpty &&
        deletionsIdle && state.committed.isNone && state.history.len == 0 && state.pending.len == 0
      some (st.setRow k versions (if remove then none else some state))

/-- Source: `clean_row_slots`, task `SavedEntries`. -/
def dropSavedEntry (st : Storage) (k : RowKey) : Storage :=
  match st.rows k with
  | none => st
  | some state => if state.redundantSpilled then st.setRow k st.versions none else st

end Storage

end Pos3ql
