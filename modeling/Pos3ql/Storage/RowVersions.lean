import Pos3ql.Foundation.SlotPool
import Pos3ql.SqlError

/-!
# Row versions: the arrays behind pending writes and committed history

One transaction at a time may have *pending* images of a row, one per command, and older
*committed* images stay reachable while a snapshot can still see them. Both kinds of version live
in fixed arrays shared by every row of every table; a row holds only chain handles
(`CommittedHistory`, `PendingVersions`). This file is `storage/row_versions.rs` together with the
row-state types of `storage/mod.rs`.

A function that indexes a slot outside the array, subtracts below zero, fails an `assert!`, or
walks a chain that never ends has no result here (`none`). `debug_assert!`s are not modelled.
Left out: `changed_columns` and `changes_existence` of a pending change, which only steer index
maintenance, and the hashes inside `prepared_keys`, of which only the presence is kept.
-/

namespace Pos3ql

open Foundation

/-! ## Row state -/

/-- A heap-issued location. Source: `RowLoc`. -/
structure RowLoc where
  offset : ℕ
  len : ℕ
  generation : ℕ
  deriving DecidableEq, Repr

/-- Where a committed row's bytes live. Source: `RowHome`. -/
inductive RowHome
  | heap (loc : RowLoc)
  | spilled (len sst commitLsn : ℕ)
  deriving DecidableEq, Repr

/-- `RowHome::Heap(_)`. Source: `release_committed_chain`'s pattern. -/
def RowHome.isHeap : RowHome → Bool
  | .heap _ => true
  | .spilled .. => false

/-- A committed image, or a committed deletion (`home = none`), with its commit LSN.
Source: `CommittedVersion`. -/
structure CommittedVersion where
  home : Option RowHome
  lsn : ℕ
  deriving DecidableEq, Repr

/-- One command's uncommitted image; `loc = none` is a pending delete.
Source: `PendingChange`. -/
structure PendingChange where
  txid : ℕ
  cid : ℕ
  loc : Option RowLoc
  deriving DecidableEq, Repr

/-- The payload of a pending slot. Source: `PendingVersionSlot`. -/
structure PendingEntry where
  identity : ℕ
  change : PendingChange
  /-- `prepared_keys.is_some()`. -/
  keysPrepared : Bool
  deriving DecidableEq, Repr

/-- Handle of a row's committed history. Source: `CommittedHistory`. -/
structure CommittedHistory where
  tail : Option ℕ
  len : ℕ
  deriving DecidableEq, Repr

/-- Source: `CommittedHistory::empty`. -/
def CommittedHistory.empty : CommittedHistory := ⟨none, 0⟩

/-- What a pending chain holds in the committed array. Source: `PendingHistory`. -/
inductive PendingHistory
  | none
  | reserved (slot : ℕ)
  | published
  deriving DecidableEq, Repr

/-- Handle of a row's pending versions. Source: `PendingVersions`. -/
structure PendingVersions where
  tail : Option ℕ
  len : ℕ
  historyReservation : PendingHistory
  deriving DecidableEq, Repr

/-- Source: `PendingVersions::empty`. -/
def PendingVersions.empty : PendingVersions := ⟨none, 0, .none⟩

/-- A row's visibility state. Source: `RowState`. -/
structure RowState where
  committed : Option RowHome
  committedLsn : ℕ
  committedGeneration : Option ℕ
  checkpointChangeLsn : ℕ
  history : CommittedHistory
  pending : PendingVersions
  deriving DecidableEq, Repr

/-- Source: `RowState::has_committed_version`. -/
def RowState.hasCommittedVersion (r : RowState) : Bool := r.committedGeneration.isSome

/-! ## The arrays -/

/-- An array of versions and the identity counter. Source: `RowVersionPool`. -/
structure RowVersionPool (α : Type) where
  pool : SlotPool α
  nextIdentity : ℕ
  deriving DecidableEq, Repr

/-- Both arrays and the history-pressure flag. Source: `RowVersionState`. -/
structure RowVersionState where
  pendingRowVersions : RowVersionPool PendingEntry
  committedRowVersions : RowVersionPool CommittedVersion
  historyPressureChanged : Bool
  deriving DecidableEq, Repr

/-- Source: `RowVersionPools::new`. -/
def RowVersionState.new (pendingCapacity committedCapacity : ℕ) : RowVersionState :=
  ⟨⟨⟨[], none, pendingCapacity⟩, 0⟩, ⟨⟨[], none, committedCapacity⟩, 0⟩, false⟩

/-! ## Pending versions -/

/-- The newest pending entry of a row; the outer `none` is an index out of bounds.
Source: `pending_last` and the head lookups around it. -/
def pendingHead (pool : RowVersionPool PendingEntry) (versions : PendingVersions) :
    Option (Option PendingEntry) :=
  match versions.tail with
  | none => some none
  | some slot => pool.pool.slots[slot]?.map fun s => some s.value

/-- Source: `pending_version_at`. -/
def pendingVersionAt (pool : RowVersionPool PendingEntry) (versions : PendingVersions)
    (txid snapshot : ℕ) : Option (Option PendingEntry) :=
  pool.pool.search (fun e => e.change.txid == txid && decide (e.change.cid < snapshot))
    pool.pool.slots.length versions.tail

/-- Source: `push_pending_version`. -/
def pushPendingVersion (pool : RowVersionPool PendingEntry) (versions : PendingVersions)
    (maximum : ℕ) (change : PendingChange) :
    Option (Except SqlError (RowVersionPool PendingEntry × PendingVersions × ℕ)) :=
  if u64Max ≤ pool.nextIdentity then
    some (.error ⟨.programLimitExceeded, "pending row-version identity space is exhausted"⟩)
  else if maximum ≤ versions.len then
    some (.error ⟨.programLimitExceeded,
      s!"one row exceeds max_row_versions_per_row ({maximum}) pending write versions"⟩)
  else do
    let identity := pool.nextIdentity + 1
    match ← pool.pool.allocate versions.tail ⟨identity, change, false⟩ with
    | none => some (.error ⟨.programLimitExceeded, "pending row-version pool is exhausted"⟩)
    | some (slot, slots) =>
      some (.ok (⟨slots, identity⟩,
        { versions with tail := some slot, len := versions.len + 1 }, identity))

/-! ## Committed history -/

/-- The content of a reserved slot. Source: `CommittedVersion { home: None, lsn: 0 }`. -/
def CommittedVersion.vacant : CommittedVersion := ⟨none, 0⟩

/-- Source: `allocate_committed_slot`. -/
def allocateCommittedSlot (pool : RowVersionPool CommittedVersion) (previous : Option ℕ)
    (version : CommittedVersion) :
    Option (Except SqlError (RowVersionPool CommittedVersion × ℕ)) := do
  match ← pool.pool.allocate previous version with
  | none =>
    let capacity := pool.pool.capacity
    some (.error ⟨.programLimitExceeded, s!"row_history_slots exhausted ({capacity} slots)"⟩)
  | some (slot, slots) => some (.ok ({ pool with pool := slots }, slot))

/-- Source: `reserve_history_slot`. -/
def reserveHistorySlot (pool : RowVersionPool CommittedVersion) :
    Option (Except SqlError (RowVersionPool CommittedVersion × ℕ)) :=
  allocateCommittedSlot pool none .vacant

/-- Source: `release_reserved_history`. -/
def releaseReservedHistory (pool : RowVersionPool CommittedVersion) (slot : ℕ) :
    Option (RowVersionPool CommittedVersion) := do
  let s ← pool.pool.slots[slot]?
  if s.used ∧ s.value = .vacant then
    let slots ← pool.pool.release id slot
    some { pool with pool := slots }
  else
    none

/-- Source: `publish_reserved_history`. -/
def publishReservedHistory (pool : RowVersionPool CommittedVersion) (history : CommittedHistory)
    (maximum slot : ℕ) (version : CommittedVersion) :
    Option (RowVersionPool CommittedVersion × CommittedHistory) := do
  let s ← pool.pool.slots[slot]?
  if history.len < maximum ∧ s.used ∧ s.value = .vacant then
    let slots := pool.pool.put slot { s with value := version, previous := history.tail }
    some ({ pool with pool := slots }, ⟨some slot, history.len + 1⟩)
  else
    none

/-- Source: `release_committed_chain`. -/
def releaseCommittedChain (pool : RowVersionPool CommittedVersion) (slot : Option ℕ) :
    Option (RowVersionPool CommittedVersion × Bool) := do
  let (slots, heapChanged) ← SlotPool.releaseChain id (fun v => v.home.any RowHome.isHeap)
    pool.pool.slots.length pool.pool slot false
  some ({ pool with pool := slots }, heapChanged)

/-- Source: `committed_version_at`. -/
def committedVersionAt (pool : RowVersionPool CommittedVersion) (history : CommittedHistory)
    (commitSnapshot : ℕ) : Option (Option CommittedVersion) :=
  pool.pool.search (fun v => decide (v.lsn ≤ commitSnapshot)) pool.pool.slots.length history.tail

/-- The walk of `prune_committed_chain`: at the first entry the oldest reader can see, cut the
chain and release what is older. Source: `prune_committed_chain` (the `while` loop). -/
def pruneWalk (pool : RowVersionPool CommittedVersion) (history : CommittedHistory) (oldest : ℕ) :
    ℕ → Option ℕ → ℕ → Option (RowVersionPool CommittedVersion × CommittedHistory × Bool)
  | _, none, _ => some (pool, history, false)
  | 0, some _, _ => none
  | fuel + 1, some i, retained => do
      let entry ← pool.pool.slots[i]?
      if entry.value.lsn ≤ oldest then
        let cut := { pool with pool := pool.pool.put i { entry with previous := none } }
        let (pool', heapChanged) ← releaseCommittedChain cut entry.previous
        some (pool', { history with len := retained + 1 }, heapChanged)
      else
        pruneWalk pool history oldest fuel entry.previous (retained + 1)

/-- Source: `prune_committed_chain`. -/
def pruneCommittedChain (pool : RowVersionPool CommittedVersion) (history : CommittedHistory) :
    Option ℕ → Option (RowVersionPool CommittedVersion × CommittedHistory × Bool)
  | none => do
      let (pool', heapChanged) ← releaseCommittedChain pool history.tail
      some (pool', .empty, heapChanged)
  | some oldest => pruneWalk pool history oldest pool.pool.slots.length history.tail 0

/-- The oldest snapshot that still needs history: none when the current version covers it.
Source: `prune_committed_history` (its `filter`). -/
def RowState.oldestNeeding (row : RowState) (oldestSnapshot : Option ℕ) : Option ℕ :=
  oldestSnapshot.filter fun snapshot =>
    !row.hasCommittedVersion || decide (snapshot < row.committedLsn)

/-- Source: `prune_committed_history`. -/
def pruneCommittedHistory (state : RowVersionState) (row : RowState)
    (oldestSnapshot : Option ℕ) : Option (RowVersionState × RowState) := do
  let (pool, history, _) ← pruneCommittedChain state.committedRowVersions row.history
    (row.oldestNeeding oldestSnapshot)
  some ({ state with committedRowVersions := pool }, { row with history })

/-! ## Operations on both arrays -/

/-- Source: `pop_pending_version`. -/
def popPendingVersion (state : RowVersionState) (versions : PendingVersions) :
    Option (RowVersionState × PendingVersions × Option PendingChange) :=
  match versions.tail with
  | none => some (state, versions, none)
  | some slot => do
      let entry ← state.pendingRowVersions.pool.slots[slot]?
      let slots ← state.pendingRowVersions.pool.release (fun e => { e with keysPrepared := false })
        slot
      let state := { state with pendingRowVersions.pool := slots }
      -- `versions.len -= 1` on an empty chain would panic
      if versions.len = 0 then none
      else if versions.len = 1 then
        let popped : PendingVersions := ⟨entry.previous, 0, .none⟩
        match versions.historyReservation with
        | .reserved reservation => do
            let pool ← releaseReservedHistory state.committedRowVersions reservation
            some ({ state with committedRowVersions := pool }, popped, some entry.value.change)
        | _ => some (state, popped, some entry.value.change)
      else
        some (state, { versions with tail := entry.previous, len := versions.len - 1 },
          some entry.value.change)

/-- The `while` loop of `clear_pending_versions`, with fuel. -/
def clearPendingLoop :
    ℕ → RowVersionState → PendingVersions → Option (RowVersionState × PendingVersions)
  | 0, _, _ => none
  | fuel + 1, state, versions => do
      match ← popPendingVersion state versions with
      | (state, versions, none) => some (state, versions)
      | (state, versions, some _) => clearPendingLoop fuel state versions

/-- Source: `clear_pending_versions`. -/
def clearPendingVersions (state : RowVersionState) (versions : PendingVersions) :
    Option (RowVersionState × PendingVersions) :=
  clearPendingLoop (state.pendingRowVersions.pool.slots.length + 1) state versions

/-- Source: `RowVersionState::retain_current_row`. -/
def retainCurrentRow (state : RowVersionState) (row : RowState) (maximum : ℕ) :
    Option (Except SqlError (RowVersionState × RowState)) :=
  match row.pending.historyReservation with
  | .published => some (.ok (state, row))
  | .none => some (.error ⟨.internalError, "pending row has no owned history reservation"⟩)
  | .reserved slot => do
      let (pool, history) ← publishReservedHistory state.committedRowVersions row.history maximum
        slot ⟨row.committed, row.committedLsn⟩
      let pressure := state.historyPressureChanged || decide (maximum ≤ history.len + 2)
      some (.ok ({ state with committedRowVersions := pool, historyPressureChanged := pressure },
        { row with history, pending := { row.pending with historyReservation := .published } }))

end Pos3ql
