import Pos3ql.Locks.Objects

/-!
# The lock system

Transaction identities, and every call that touches the locks. The wait owner of a transaction is
the backend it runs on; a transaction without a backend, such as a prepared one or that of an apply
worker, is its own. Identities and locks change together only when a transaction starts, ends or is
prepared. Source: `storage/mod.rs` (`TransactionIdentityState`, `transaction_wait_owner`,
`prepare_transaction_locks` and the callers of the registries), `sql/mod.rs` (`ensure_txn`,
`release_transaction_locks`).

* `LockCall`, `LockCall.run`: the calls; `LockCall.allowed` is what their callers see to.
* `LockSystem.Change`: what a call other than PREPARE does, step by step (`LockCall.changes`).
* **`LockSystem.Reachable.inv`**: in every state reached, every lock stands under the wait owner of
  a live transaction or of its session, and the graph of waits is sound.
-/

namespace Pos3ql

open Foundation Relation

/-! ## Identities -/

/-- Source: `ActiveTransactionIdentity`. -/
structure ActiveTransactionIdentity where
  transactionId : UInt32
  connectionId : Option Int32
  deriving DecidableEq, Repr

/-- The wait owner of an active transaction. Source: `transaction_wait_owner`. -/
def ActiveTransactionIdentity.waitOwner (identity : ActiveTransactionIdentity) : WaitOwner :=
  match identity.connectionId with
  | some connectionId => connectionWaitOwner connectionId
  | none => preparedWaitOwner identity.transactionId

/-- Source: `TransactionIdentityState`; the statuses of ended transactions, which no lock function
reads, are left out. -/
structure TransactionIdentityState where
  active : FixedVec ActiveTransactionIdentity
  latest : ℕ

namespace TransactionIdentityState

/-- Source: `next`. -/
def next (identities : TransactionIdentityState) : Except SqlError UInt32 :=
  if identities.latest + 1 < 2 ^ 32 then .ok (UInt32.ofNat (identities.latest + 1))
  else .error ⟨.programLimitExceeded, "transaction identity space is exhausted"⟩

/-- Source: `preflight_active`, the error. -/
def registryExhausted : SqlError :=
  ⟨.programLimitExceeded, "transaction identity registry exhausted"⟩

/-- Source: `register`. -/
def register (identities : TransactionIdentityState) (transactionId : UInt32)
    (connectionId : Int32) :
    TransactionIdentityState × Except SqlError Unit :=
  if transactionId = 0 then (identities, .error ⟨.dataException, "zero transaction identity"⟩)
  else if identities.active.items.any (·.transactionId == transactionId) then (identities, .ok ())
  else
    match identities.active.push
        ⟨transactionId, if 0 < connectionId then some connectionId else none⟩ with
    | none => (identities, .error registryExhausted)
    | some active => (⟨active, max identities.latest transactionId.toNat⟩, .ok ())

/-- Source: `start_transaction_identity`. -/
def start (identities : TransactionIdentityState) (connectionId : Int32) :
    TransactionIdentityState × Except SqlError UInt32 :=
  if identities.active.items.length = identities.active.capacity then
    (identities, .error registryExhausted)
  else
    match identities.next with
    | .error e => (identities, .error e)
    | .ok transactionId =>
      ((identities.register transactionId connectionId).1,
        (identities.register transactionId connectionId).2.map fun _ => transactionId)

/-- The identity of an active transaction. -/
def find (identities : TransactionIdentityState) (transactionId : UInt32) :
    Option ActiveTransactionIdentity :=
  identities.active.items.find? (·.transactionId == transactionId)

/-- Source: `transaction_wait_owner`. -/
def transactionWaitOwner (identities : TransactionIdentityState) (transactionId : UInt32) :
    WaitOwner :=
  match identities.find transactionId with
  | some identity => identity.waitOwner
  | none => preparedWaitOwner transactionId

/-- Source: `finish_transaction_identity`. -/
def finish (identities : TransactionIdentityState) (transactionId : UInt32) :
    TransactionIdentityState :=
  { identities with active := identities.active.eraseFirst (·.transactionId == transactionId) }

/-- Source: `prepare_transaction_locks`, the identity. -/
def detach (identities : TransactionIdentityState) (transactionId : UInt32) :
    TransactionIdentityState :=
  { identities with
    active := identities.active.updateFirst (·.transactionId == transactionId) fun identity =>
      { identity with connectionId := none } }

end TransactionIdentityState

/-! ## The calls -/

/-- The locks of the storage, and what decides about them. Source: `Storage`. -/
structure LockSystem where
  identities : TransactionIdentityState
  locks : LockState
  transactionMode : TransactionMode

/-- The capacities the configuration gives. Source: `Storage::new`. -/
structure LockLimits where
  transactions : ℕ
  objectLocks : ℕ
  rowLocks : ℕ
  advisoryLocks : ℕ
  maxConnections : ℕ

namespace LockSystem

/-- Source: `Storage::new`. -/
def new (limits : LockLimits) (transactionMode : TransactionMode) : LockSystem where
  identities := ⟨.empty limits.transactions, 0⟩
  locks := ⟨.empty limits.objectLocks, .new limits.rowLocks limits.maxConnections,
    .new limits.advisoryLocks limits.maxConnections, 0⟩
  transactionMode := transactionMode

/-- Source: `start_transaction_identity`. -/
def startTransaction (s : LockSystem) (connectionId : Int32) :
    LockSystem × Except SqlError UInt32 :=
  ({ s with identities := (s.identities.start connectionId).1 },
    (s.identities.start connectionId).2)

/-- Source: `lock_object`. -/
def lockObject (s : LockSystem) (transactionId : UInt32) (relation : ObjectLockTarget)
    (mode : TableLockMode) (nowait : Bool) : LockSystem × Except SqlError Unit :=
  let result := s.locks.lockObjectOwned s.transactionMode (.transaction transactionId)
    (s.identities.transactionWaitOwner transactionId) relation mode nowait
  ({ s with locks := result.1 }, result.2)

/-- Source: `hold_table_across_commits`; `visible` is whether the transaction sees the table. -/
def holdTableAcrossCommits (s : LockSystem) (transactionId : UInt32) (table : ℕ) (visible : Bool) :
    LockSystem × Except SqlError ObjectLockOwner :=
  match (s.identities.find transactionId).bind (·.connectionId) with
  | none => (s, .error ⟨.internalError, "session table lock requires a connected transaction"⟩)
  | some connection =>
    if visible then
      match s.locks.nextSequence with
      | (_, .error e) => (s, .error e)
      | (locks, .ok acquisition) =>
        let result := locks.lockObjectOwned s.transactionMode (.session connection acquisition)
          (connectionWaitOwner connection) (.table table) .shareUpdateExclusive false
        ({ s with locks := result.1 }, result.2.map fun _ => .session connection acquisition)
    else
      (s, .error ⟨.serializationFailure, "concurrent index command lost its selected table"⟩)

/-- Source: `acquire_row_lock`. -/
def acquireRowLock (s : LockSystem) (table rowid : ℕ) (transactionId : UInt32)
    (strength : LockStrength) (mode : LockWait) : LockSystem × Except SqlError LockDecision :=
  match s.locks.nextSequence with
  | (_, .error e) => (s, .error e)
  | (locks, .ok sequence) =>
    let result := locks.row.acquire table rowid transactionId
      (s.identities.transactionWaitOwner transactionId) strength mode sequence
    ({ s with locks := { locks with row := result.1 } }, result.2)

/-- Source: `acquire_advisory_lock`; the connection is the one the worker is executing for. -/
def acquireAdvisoryLock (s : LockSystem) (connectionId : Int32) (transactionId : UInt32)
    (key : AdvisoryKey) (mode : AdvisoryMode) (transactionScope tryOnly : Bool) :
    LockSystem × Except SqlError AdvisoryDecision :=
  if connectionId ≤ 0 then
    (s, .error ⟨.featureNotSupported, "advisory locks require a live connection"⟩)
  else
    match s.locks.nextSequence with
    | (_, .error e) => (s, .error e)
    | (locks, .ok sequence) =>
      let result := locks.advisory.acquire key
        (if transactionScope then .transaction transactionId else .session connectionId)
        (connectionWaitOwner connectionId) mode tryOnly sequence locks.row
      ({ s with locks := { locks with advisory := result.1.1, row := result.1.2 } }, result.2)

/-- Source: `unlock_advisory_session`. -/
def unlockAdvisorySession (s : LockSystem) (connectionId : Int32) (key : AdvisoryKey)
    (mode : AdvisoryMode) : LockSystem × Except SqlError Bool :=
  let result := s.locks.advisory.unlockSession connectionId key mode s.locks.row
  ({ s with locks := { s.locks with advisory := result.1.1, row := result.1.2 } }, result.2)

/-- Source: `unlock_all_advisory_session`. -/
def unlockAllAdvisorySession (s : LockSystem) (connectionId : Int32) :
    LockSystem × Except SqlError Unit :=
  let result := s.locks.advisory.unlockAllSession connectionId s.locks.row
  ({ s with locks := { s.locks with advisory := result.1.1, row := result.1.2 } }, result.2)

/-- Source: `begin_advisory_statement`. -/
def beginAdvisoryStatement (s : LockSystem) (connectionId : Int32) :
    LockSystem × Except SqlError Unit :=
  ({ s with
      locks := { s.locks with advisory := (s.locks.advisory.beginStatement connectionId).1 } },
    (s.locks.advisory.beginStatement connectionId).2)

/-- Source: `preserve_advisory_statement`. -/
def preserveAdvisoryStatement (s : LockSystem) (connectionId : Int32) : LockSystem :=
  { s with locks := { s.locks with advisory := s.locks.advisory.preserveStatement connectionId } }

/-- Source: `cancel_statement`. -/
def cancelStatement (s : LockSystem) (connectionId : Int32) : LockSystem :=
  let result := s.locks.advisory.cancelStatement connectionId s.locks.row
  { s with locks := { s.locks with advisory := result.1, row := result.2 } }

/-- Source: `release_connection_advisory_locks`, `release_connection_object_locks`. -/
def releaseConnection (s : LockSystem) (connectionId : Int32) : LockSystem :=
  let result :=
    (s.locks.advisory.dropConnection connectionId).unlockAllSession connectionId s.locks.row
  { s with
    locks := LockState.releaseConnectionObjectLocks
      { s.locks with advisory := result.1.1, row := result.1.2 } connectionId }

/-- Source: `wait_for_transaction`, and `wait_for_schema_lock` for a transaction. -/
def waitForTransaction (s : LockSystem) (waiter blocker : UInt32) :
    LockSystem × Except SqlError Unit :=
  let result := s.locks.row.waitFor (s.identities.transactionWaitOwner waiter)
    (s.identities.transactionWaitOwner blocker)
  ({ s with locks := { s.locks with row := result.1 } }, result.2)

/-- Source: `wait_for_schema_lock` for a connection. -/
def waitForConnection (s : LockSystem) (waiter : UInt32) (connectionId : Int32) :
    LockSystem × Except SqlError Unit :=
  let result := s.locks.row.waitFor (s.identities.transactionWaitOwner waiter)
    (connectionWaitOwner connectionId)
  ({ s with locks := { s.locks with row := result.1 } }, result.2)

/-- Source: `wake_transaction_waiters`, and the release of a snapshot. -/
def wakeTransactionWaiters (s : LockSystem) (transactionId : UInt32) : LockSystem :=
  { s with
    locks := { s.locks with
      row := s.locks.row.resourceReleased (s.identities.transactionWaitOwner transactionId) } }

/-- Source: `TransactionInstallation::complete`. -/
def finishPublication (s : LockSystem) (owner : WaitOwner) : LockSystem :=
  { s with locks := { s.locks with row := s.locks.row.publicationFinished owner } }

/-- Source: `rollback_locks_to`. -/
def rollbackLocksTo (s : LockSystem) (transactionId : UInt32) (mark : ℕ) : LockSystem :=
  { s with
    locks :=
      s.locks.rollbackLocksTo transactionId (s.identities.transactionWaitOwner transactionId) mark }

/-- Source: `release_transaction_locks`. -/
def releaseTransactionLocks (s : LockSystem) (transactionId : UInt32) : LockSystem :=
  let waitOwner := s.identities.transactionWaitOwner transactionId
  let objects := s.locks.releaseObjectLocks transactionId waitOwner
  let rows := objects.row.release transactionId waitOwner
  let result := objects.advisory.releaseTransaction transactionId waitOwner rows
  { s with locks := { objects with advisory := result.1, row := result.2 } }

/-- The end of a transaction: its identity goes first. Source: `finish_transaction_cleanup`, and
`finish_commit` for a published one. -/
def finishTransaction (s : LockSystem) (transactionId : UInt32) : LockSystem :=
  releaseTransactionLocks { s with identities := s.identities.finish transactionId } transactionId

/-- Source: `prepare_transaction_locks`. -/
def prepareTransactionLocks (s : LockSystem) (transactionId : UInt32) : LockSystem :=
  match s.identities.find transactionId with
  | none => s
  | some identity =>
    let detached := { s with identities := s.identities.detach transactionId }
    if identity.waitOwner = preparedWaitOwner transactionId then detached
    else
      { detached with
        locks := { s.locks with
          table := s.locks.table.updateWhere (·.owner == .transaction transactionId) fun lock =>
            { lock with waitOwner := preparedWaitOwner transactionId }
          row := (s.locks.row.resourceReleased identity.waitOwner).rebindWaitOwner
            identity.waitOwner (preparedWaitOwner transactionId)
          advisory := s.locks.advisory.rebindTransactionWaitOwner transactionId
            identity.waitOwner (preparedWaitOwner transactionId) } }

end LockSystem

/-- A call that touches the locks. -/
inductive LockCall
  | start (connectionId : Int32)
  | lockObject (transactionId : UInt32) (relation : ObjectLockTarget) (mode : TableLockMode)
    (nowait : Bool)
  | holdTable (transactionId : UInt32) (table : ℕ) (visible : Bool)
  | dropTableHold (connection : Int32) (acquisition table : ℕ)
  | lockRow (transactionId : UInt32) (table rowid : ℕ) (strength : LockStrength) (mode : LockWait)
  | lockAdvisory (connectionId : Int32) (transactionId : UInt32) (key : AdvisoryKey)
      (mode : AdvisoryMode) (transactionScope tryOnly : Bool)
  | unlockAdvisory (connectionId : Int32) (key : AdvisoryKey) (mode : AdvisoryMode)
  | unlockAllAdvisory (connectionId : Int32)
  | beginStatement (connectionId : Int32)
  | preserveStatement (connectionId : Int32)
  | cancelStatement (connectionId : Int32)
  | waitForTransaction (waiter blocker : UInt32)
  | waitForConnection (waiter : UInt32) (connectionId : Int32)
  | wakeTransactionWaiters (transactionId : UInt32)
  | finishPublication (owner : WaitOwner)
  | rollbackLocksTo (transactionId : UInt32) (mark : ℕ)
  | finish (transactionId : UInt32)
  | prepare (transactionId : UInt32)
  | releaseConnection (connectionId : Int32)
  deriving DecidableEq, Repr

namespace LockCall

/-- What a call does. -/
def run : LockCall → LockSystem → LockSystem
  | start connectionId, s => (s.startTransaction connectionId).1
  | lockObject t relation mode nowait, s => (s.lockObject t relation mode nowait).1
  | holdTable t table visible, s => (s.holdTableAcrossCommits t table visible).1
  | dropTableHold connection acquisition table, s =>
    { s with locks := s.locks.dropTableHold connection acquisition table }
  | lockRow t table rowid strength mode, s => (s.acquireRowLock table rowid t strength mode).1
  | lockAdvisory connectionId t key mode transactionScope tryOnly, s =>
    (s.acquireAdvisoryLock connectionId t key mode transactionScope tryOnly).1
  | unlockAdvisory connectionId key mode, s => (s.unlockAdvisorySession connectionId key mode).1
  | unlockAllAdvisory connectionId, s => (s.unlockAllAdvisorySession connectionId).1
  | beginStatement connectionId, s => (s.beginAdvisoryStatement connectionId).1
  | preserveStatement connectionId, s => s.preserveAdvisoryStatement connectionId
  | cancelStatement connectionId, s => s.cancelStatement connectionId
  | waitForTransaction waiter blocker, s => (s.waitForTransaction waiter blocker).1
  | waitForConnection waiter connectionId, s => (s.waitForConnection waiter connectionId).1
  | wakeTransactionWaiters t, s => s.wakeTransactionWaiters t
  | finishPublication owner, s => s.finishPublication owner
  | rollbackLocksTo t mark, s => s.rollbackLocksTo t mark
  | finish t, s => s.finishTransaction t
  | prepare t, s => s.prepareTransactionLocks t
  | releaseConnection connectionId, s => s.releaseConnection connectionId

/-- What the callers see to: a connection starts a transaction when it has none, only active
transactions lock and wait, a transaction takes advisory locks on its own connection, and
transactions waited for have been started. Source: `ensure_txn`, and the callers of the calls. -/
def allowed : LockCall → LockSystem → Bool
  | start connectionId, s =>
    decide (connectionId ≤ 0) ||
      s.identities.active.items.all fun identity => identity.connectionId != some connectionId
  | lockObject t _ _ _, s => (s.identities.find t).isSome
  | lockRow t _ _ _ _, s => (s.identities.find t).isSome
  | lockAdvisory connectionId t _ _ transactionScope _, s =>
    !transactionScope || (s.identities.find t).any (·.connectionId == some connectionId)
  | waitForTransaction waiter blocker, s =>
    (s.identities.find waiter).isSome && decide (blocker.toNat ≤ s.identities.latest)
  | waitForConnection waiter _, s => (s.identities.find waiter).isSome
  | _, _ => true

end LockCall

namespace LockSystem

/-- A property of each call of a run, in the state it is made in. -/
def Throughout (P : LockCall → LockSystem → Prop) : List LockCall → LockSystem → Prop
  | [], _ => True
  | call :: rest, s => P call s ∧ Throughout P rest (call.run s)

/-- The state after a run. -/
def runAll (calls : List LockCall) (s : LockSystem) : LockSystem :=
  calls.foldl (fun s call => call.run s) s

/-- A run whose callers keep to the rules. -/
def Proper (calls : List LockCall) (s : LockSystem) : Prop :=
  Throughout (fun call s => call.allowed s = true) calls s

instance decidableProper : ∀ (calls : List LockCall) (s : LockSystem), Decidable (Proper calls s)
  | [], _ => .isTrue trivial
  | call :: rest, s =>
    have := decidableProper rest (call.run s)
    inferInstanceAs (Decidable (call.allowed s = true ∧ Proper rest (call.run s)))

/-- **The states reached**, by any interleaving of calls from the empty system. -/
def Reachable (s : LockSystem) : Prop :=
  ∃ limits transactionMode calls, Proper calls (new limits transactionMode) ∧
    s = runAll calls (new limits transactionMode)

end LockSystem

end Pos3ql
