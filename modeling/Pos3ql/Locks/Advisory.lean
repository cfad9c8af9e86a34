import Pos3ql.Locks.Rows

/-!
# Advisory locks

Locks on keys the application chooses, held by a session until it unlocks them or by a transaction
until it ends. Both kinds stand in one table; whether two locks can block one another is decided by
their wait owners, so a session is never blocked by its own transaction. A statement that was parked
is executed again from its start: the calls it had already made as a session are replayed, not made
twice. Source: `sql/lock.rs` (`AdvisoryLockManager`). The time a wait began, which only views of the
locks read, is left out.

* `AdvisoryLockManager.Holds`: the abstract view.
* **`acquire_holds`**: an acquisition adds the lock asked for, or nothing, and only when nothing
  blocks.
* `unlockSession_holds`, `unlockAllSession_holds`, `releaseTransaction_holds`.
-/

namespace Pos3ql

open Foundation List

/-! ## The registry -/

/-- Source: `AdvisoryKey`. -/
structure AdvisoryKey where
  classId : UInt32
  objectId : UInt32
  objectSubId : ℕ
  deriving DecidableEq, Repr

/-- Source: `AdvisoryMode`. -/
inductive AdvisoryMode
  | shared
  | exclusive
  deriving DecidableEq, Repr

/-- Source: `AdvisoryOwner`. -/
inductive AdvisoryOwner
  | session (connectionId : Int32)
  | transaction (transactionId : UInt32)
  deriving DecidableEq, Repr

/-- Source: `AdvisoryLock`. -/
structure AdvisoryLock where
  key : AdvisoryKey
  owner : AdvisoryOwner
  waitOwner : WaitOwner
  mode : AdvisoryMode
  count : ℕ
  acquiredAt : ℕ
  deriving DecidableEq, Repr

/-- Source: `AdvisoryWait`. -/
structure AdvisoryWait where
  key : AdvisoryKey
  waitOwner : WaitOwner
  mode : AdvisoryMode
  deriving DecidableEq, Repr

/-- Source: `AdvisoryReplayOperation`. -/
inductive AdvisoryReplayOperation
  | acquire (key : AdvisoryKey) (mode : AdvisoryMode) (tryOnly : Bool)
  | unlock (key : AdvisoryKey) (mode : AdvisoryMode)
  | unlockAll
  deriving DecidableEq, Repr

/-- Source: `AdvisoryReplayAction`. -/
structure AdvisoryReplayAction where
  connectionId : Int32
  operation : AdvisoryReplayOperation
  result : Bool
  deriving DecidableEq, Repr

/-- Source: `AdvisoryReplayState`. -/
structure AdvisoryReplayState where
  connectionId : Int32
  preserved : Bool
  cursor : ℕ
  replayCount : ℕ
  deriving DecidableEq, Repr

/-- Source: `AdvisoryDecision`. -/
inductive AdvisoryDecision
  | acquired
  | unavailable
  | waiting
  deriving DecidableEq, Repr

/-- Source: `AdvisoryLockManager`. -/
structure AdvisoryLockManager where
  locks : FixedVec AdvisoryLock
  waits : FixedVec AdvisoryWait
  replayActions : FixedVec AdvisoryReplayAction
  replayStates : FixedVec AdvisoryReplayState

/-- Two locks on one key conflict unless both are shared. Source: `acquire`. -/
def advisoryConflicts (left right : AdvisoryMode) : Bool :=
    left == .exclusive || right == .exclusive

lemma advisoryConflicts_symm (left right : AdvisoryMode) :
    advisoryConflicts left right = advisoryConflicts right left := Bool.or_comm _ _

namespace AdvisoryLockManager

/-- Source: `AdvisoryLockManager::new`. -/
def new (lockCapacity connectionCapacity : ℕ) : AdvisoryLockManager :=
  ⟨.empty lockCapacity, .empty connectionCapacity, .empty lockCapacity, .empty connectionCapacity⟩

/-! ## Replay of a parked statement -/

/-- Source: `clear_replay_actions`; the actions of others keep their order. -/
def clearReplayActions (m : AdvisoryLockManager) (connectionId : Int32) : AdvisoryLockManager :=
  { m with replayActions := m.replayActions.retain (·.connectionId != connectionId) }

/-- The actions of a connection, in order. Source: `replay`. -/
def actionsOf (m : AdvisoryLockManager) (connectionId : Int32) : List AdvisoryReplayAction :=
  m.replayActions.items.filter (·.connectionId == connectionId)

/-- Change the replay state of a connection. -/
def setReplayState (m : AdvisoryLockManager) (connectionId : Int32)
    (change : AdvisoryReplayState → AdvisoryReplayState) : AdvisoryLockManager :=
  { m with replayStates := m.replayStates.updateFirst (·.connectionId == connectionId) change }

/-- Source: `replay`. -/
def replay (m : AdvisoryLockManager) (connectionId : Int32) (operation : AdvisoryReplayOperation) :
    AdvisoryLockManager × Except SqlError (Option Bool) :=
  match m.replayStates.items.find? (·.connectionId == connectionId) with
  | none => (m, .ok none)
  | some state =>
    if state.replayCount ≤ state.cursor then (m, .ok none)
    else
      match (m.actionsOf connectionId)[state.cursor]? with
      | none => (m, .error ⟨.internalError, "advisory lock statement replay is incomplete"⟩)
      | some action =>
        if action.operation ≠ operation then
          (m,
            .error
              ⟨.internalError, "advisory lock calls changed while a blocked statement was resumed"⟩)
        else
          (m.setReplayState connectionId
            fun s => { s with cursor := s.cursor + 1 }, .ok (some action.result))

/-- The statement is past what it had done before. Source: `replay`. -/
def Past (m : AdvisoryLockManager) (connectionId : Int32) : Prop :=
  ∀ state, m.replayStates.items.find? (·.connectionId == connectionId) = some state →
    state.replayCount ≤ state.cursor

/-- Source: `record_replay`. -/
def recordReplay (m : AdvisoryLockManager) (connectionId : Int32)
    (operation : AdvisoryReplayOperation) (result : Bool) :
    AdvisoryLockManager × Except SqlError Unit :=
  if m.replayStates.items.any (·.connectionId == connectionId) then
    match m.replayActions.push ⟨connectionId, operation, result⟩ with
    | none =>
      (m, .error ⟨.programLimitExceeded,
        s!"advisory lock statement replay exceeds {m.replayActions.capacity} calls"⟩)
    | some replayActions => ({ m with replayActions }, .ok ())
  else (m, .ok ())

/-- The calls of the connection are recorded, and there is no room for a record. -/
def RecordsFull (m : AdvisoryLockManager) (connectionId : Int32) : Prop :=
  m.replayStates.items.any (·.connectionId == connectionId) = true ∧
    m.replayActions.capacity ≤ m.replayActions.items.length

/-- Source: `begin_statement`. -/
def beginStatement (m : AdvisoryLockManager) (connectionId : Int32) :
    AdvisoryLockManager × Except SqlError Unit :=
  match m.replayStates.items.find? (·.connectionId == connectionId) with
  | some state =>
    if state.preserved then
      (m.setReplayState connectionId fun s =>
        { s with
          preserved := false, cursor := 0, replayCount := (m.actionsOf connectionId).length },
        .ok ())
    else
      ((m.clearReplayActions connectionId).setReplayState connectionId fun s =>
        { s with cursor := 0, replayCount := 0 }, .ok ())
  | none =>
    match m.replayStates.push ⟨connectionId, false, 0, 0⟩ with
    | none =>
      (m, .error ⟨.programLimitExceeded,
        s!"advisory lock statement registry is full ({m.replayStates.capacity} connections)"⟩)
    | some replayStates => ({ m with replayStates }, .ok ())

/-- Source: `preserve_statement`. -/
def preserveStatement (m : AdvisoryLockManager) (connectionId : Int32) : AdvisoryLockManager :=
  m.setReplayState connectionId fun s => { s with preserved := true }

/-- Source: `drop_connection`. -/
def dropConnection (m : AdvisoryLockManager) (connectionId : Int32) : AdvisoryLockManager :=
  { m.clearReplayActions connectionId with
    replayStates := m.replayStates.eraseFirst (·.connectionId == connectionId) }

/-! ## Waiting, acquiring and releasing -/

/-- Source: `clear_wait`. -/
def clearWait (m : AdvisoryLockManager) (waitOwner : WaitOwner) : AdvisoryLockManager :=
  { m with waits := m.waits.eraseFirst (·.waitOwner == waitOwner) }

/-- Source: `set_wait`; no result when the registry is full. -/
def setWait (m : AdvisoryLockManager) (request : AdvisoryWait) : Option (FixedVec AdvisoryWait) :=
  if m.waits.items.any (·.waitOwner == request.waitOwner) then
    some (m.waits.updateFirst (·.waitOwner == request.waitOwner) fun _ => request)
  else m.waits.push request

/-- Source: `cancel_statement`. -/
def cancelStatement (m : AdvisoryLockManager) (connectionId : Int32) (waitGraph : LockManager) :
    AdvisoryLockManager × LockManager :=
  (((m.clearWait (connectionWaitOwner connectionId)).clearReplayActions connectionId).setReplayState
      connectionId fun s => { s with preserved := false, cursor := 0, replayCount := 0 },
    waitGraph.clearWait (connectionWaitOwner connectionId))

/-- A lock of the same owner, key and mode. Source: `acquire` (`own_index`). -/
def isOwn (key : AdvisoryKey) (owner : AdvisoryOwner) (mode : AdvisoryMode) (lock : AdvisoryLock) :
    Bool :=
  lock.key == key && lock.owner == owner && lock.mode == mode

/-- A lock that stands in the way. Source: `acquire` (`blocker`). -/
def blocker (m : AdvisoryLockManager) (key : AdvisoryKey) (waitOwner : WaitOwner)
    (mode : AdvisoryMode) : Option AdvisoryLock :=
  m.locks.items.find? fun lock =>
    lock.key == key && lock.waitOwner != waitOwner && advisoryConflicts lock.mode mode

/-- The end of a call: a session's call is recorded for a replay. Source: `acquire`. -/
def noted (m : AdvisoryLockManager) (waitGraph : LockManager) (owner : AdvisoryOwner)
    (operation : AdvisoryReplayOperation) (result : Bool) (decision : AdvisoryDecision) :
    (AdvisoryLockManager × LockManager) × Except SqlError AdvisoryDecision :=
  match owner with
  | .transaction _ => ((m, waitGraph), .ok decision)
  | .session connectionId =>
    (((m.recordReplay connectionId operation result).1, waitGraph),
      (m.recordReplay connectionId operation result).2.map fun _ => decision)

/-- One more acquisition of a lock that is held: only a session counts them. Source: `acquire`. -/
def countedAgain (owner : AdvisoryOwner) (lock : AdvisoryLock) : AdvisoryLock :=
  match owner with
  | .session _ => { lock with count := lock.count + 1 }
  | .transaction _ => lock

/-- Whether the count would leave its 32 bits. Source: `acquire` (`checked_add`). -/
def countExhausted (owner : AdvisoryOwner) (lock : AdvisoryLock) : Bool :=
  match owner with
  | .session _ => decide (2 ^ 32 ≤ lock.count + 1)
  | .transaction _ => false

/-- The grant itself. Source: `acquire`. -/
def grant (m : AdvisoryLockManager) (waitGraph : LockManager) (key : AdvisoryKey)
    (owner : AdvisoryOwner) (waitOwner : WaitOwner) (mode : AdvisoryMode) (tryOnly : Bool)
    (acquiredAt : ℕ) : (AdvisoryLockManager × LockManager) × Except SqlError AdvisoryDecision :=
  match m.locks.items.find? (isOwn key owner mode) with
  | some lock =>
    if countExhausted owner lock then
      ((m, waitGraph),
        .error ⟨.programLimitExceeded, "advisory lock acquisition count exceeds 4294967295"⟩)
    else
      noted { m with locks := m.locks.updateFirst (isOwn key owner mode) (countedAgain owner) }
        waitGraph owner (.acquire key mode tryOnly) true .acquired
  | none =>
    match m.locks.push ⟨key, owner, waitOwner, mode, 1, acquiredAt⟩ with
    | none =>
      ((m, waitGraph), .error ⟨.outOfMemory,
        s!"out of shared memory for advisory locks ({m.locks.capacity} entries)"⟩)
    | some locks =>
      noted { m with locks } waitGraph owner (.acquire key mode tryOnly) true .acquired

/-- An acquisition that is not a replay. Source: `acquire`. -/
def acquireNew (m : AdvisoryLockManager) (waitGraph : LockManager) (key : AdvisoryKey)
    (owner : AdvisoryOwner) (waitOwner : WaitOwner) (mode : AdvisoryMode) (tryOnly : Bool)
    (acquiredAt : ℕ) : (AdvisoryLockManager × LockManager) × Except SqlError AdvisoryDecision :=
  match m.blocker key waitOwner mode with
  | some lock =>
    if tryOnly then
      (m.clearWait waitOwner).noted (waitGraph.clearWait waitOwner) owner
        (.acquire key mode tryOnly) false .unavailable
    else
      match m.setWait ⟨key, waitOwner, mode⟩ with
      | none =>
        ((m, waitGraph), .error ⟨.programLimitExceeded,
          s!"advisory lock wait registry is full ({m.waits.capacity} connections)"⟩)
      | some waits =>
        match waitGraph.waitFor waitOwner lock.waitOwner with
        | (waitGraph, .error e) => ((clearWait { m with waits } waitOwner, waitGraph), .error e)
        | (waitGraph, .ok ()) => (({ m with waits }, waitGraph), .ok .waiting)
  | none =>
    (m.clearWait waitOwner).grant (waitGraph.clearWait waitOwner) key owner waitOwner mode tryOnly
      acquiredAt

/-- What a parked statement had already done. Source: `acquire`. -/
def replayed (m : AdvisoryLockManager) (owner : AdvisoryOwner)
    (operation : AdvisoryReplayOperation) :
    AdvisoryLockManager × Except SqlError (Option Bool) :=
  match owner with
  | .session connectionId => m.replay connectionId operation
  | .transaction _ => (m, .ok none)

/-- Source: `acquire`. -/
def acquire (m : AdvisoryLockManager) (key : AdvisoryKey) (owner : AdvisoryOwner)
    (waitOwner : WaitOwner) (mode : AdvisoryMode) (tryOnly : Bool) (acquiredAt : ℕ)
    (waitGraph : LockManager) :
    (AdvisoryLockManager × LockManager) × Except SqlError AdvisoryDecision :=
  match m.replayed owner (.acquire key mode tryOnly) with
  | (m, .error e) => ((m, waitGraph), .error e)
  | (m, .ok (some result)) =>
    ((m, waitGraph), .ok (if result then .acquired else .unavailable))
  | (m, .ok none) => m.acquireNew waitGraph key owner waitOwner mode tryOnly acquiredAt

/-- Source: `unlock_session`. -/
def unlockSession (m : AdvisoryLockManager) (connectionId : Int32) (key : AdvisoryKey)
    (mode : AdvisoryMode) (waitGraph : LockManager) :
    (AdvisoryLockManager × LockManager) × Except SqlError Bool :=
  match m.replay connectionId (.unlock key mode) with
  | (m, .error e) => ((m, waitGraph), .error e)
  | (m, .ok (some result)) => ((m, waitGraph), .ok result)
  | (m, .ok none) =>
    match m.locks.items.find? (isOwn key (.session connectionId) mode) with
    | none =>
      (((m.recordReplay connectionId (.unlock key mode) false).1, waitGraph),
        (m.recordReplay connectionId (.unlock key mode) false).2.map fun _ => false)
    | some lock =>
      let unlocked : AdvisoryLockManager × LockManager :=
        if 1 < lock.count then
          ({ m with
              locks := m.locks.updateFirst (isOwn key (.session connectionId) mode) fun lock =>
                { lock with count := lock.count - 1 } }, waitGraph)
        else
          ({ m with locks := m.locks.eraseFirst (isOwn key (.session connectionId) mode) },
            waitGraph.resourceReleased lock.waitOwner)
      (((unlocked.1.recordReplay connectionId (.unlock key mode) true).1, unlocked.2),
        (unlocked.1.recordReplay connectionId (.unlock key mode) true).2.map fun _ => true)

/-- Remove locks, and wake those who wait for their wait owner if there were any.
Source: `unlock_all_session`, `release_transaction`, `rollback_to`. -/
def removeLocks (m : AdvisoryLockManager) (gone : AdvisoryLock → Bool) (waitOwner : WaitOwner)
    (waitGraph : LockManager) : AdvisoryLockManager × LockManager :=
  let (locks, changed) := m.locks.removeAll gone
  (clearWait { m with locks } waitOwner,
    if changed then (waitGraph.clearWait waitOwner).resourceReleased waitOwner
    else waitGraph.clearWait waitOwner)

/-- Source: `unlock_all_session`. -/
def unlockAllSession (m : AdvisoryLockManager) (connectionId : Int32) (waitGraph : LockManager) :
    (AdvisoryLockManager × LockManager) × Except SqlError Unit :=
  match m.replay connectionId .unlockAll with
  | (m, .error e) => ((m, waitGraph), .error e)
  | (m, .ok (some _)) => ((m, waitGraph), .ok ())
  | (m, .ok none) =>
    let unlocked := m.removeLocks (·.owner == .session connectionId)
      (connectionWaitOwner connectionId) waitGraph
    (((unlocked.1.recordReplay connectionId .unlockAll true).1, unlocked.2),
      (unlocked.1.recordReplay connectionId .unlockAll true).2)

/-- Source: `release_transaction`. -/
def releaseTransaction (m : AdvisoryLockManager) (transactionId : UInt32) (waitOwner : WaitOwner)
    (waitGraph : LockManager) : AdvisoryLockManager × LockManager :=
  m.removeLocks (·.owner == .transaction transactionId) waitOwner waitGraph

/-- Source: `rollback_to`. -/
def rollbackTo (m : AdvisoryLockManager) (transactionId : UInt32) (waitOwner : WaitOwner) (mark : ℕ)
    (waitGraph : LockManager) : AdvisoryLockManager × LockManager :=
  m.removeLocks
    (fun lock => lock.owner == .transaction transactionId && decide (mark < lock.acquiredAt))
    waitOwner waitGraph

/-- Source: `rebind_transaction_wait_owner`. -/
def rebindTransactionWaitOwner (m : AdvisoryLockManager) (transactionId : UInt32)
    (source target : WaitOwner) : AdvisoryLockManager :=
  { m with
    locks := m.locks.updateWhere
      (fun lock => lock.owner == .transaction transactionId && lock.waitOwner == source)
      fun lock => { lock with waitOwner := target } }

/-! ## Who holds what -/

/-- An owner holds a key in a mode, on behalf of a wait owner. -/
def Holds (m : AdvisoryLockManager) (owner : AdvisoryOwner) (waitOwner : WaitOwner)
    (key : AdvisoryKey) (mode : AdvisoryMode) : Prop :=
  ∃ lock ∈ m.locks.items, lock.owner = owner ∧ lock.waitOwner = waitOwner ∧ lock.key = key ∧
    lock.mode = mode

/-- What an advisory call does to the rows and the waits: the row locks stay, and waits are
removed. -/
structure OnlyUnwaits (before after : LockManager) : Prop where
  locks : after.locks = before.locks
  waits : after.waits.items.Subperm before.waits.items

lemma OnlyUnwaits.refl (m : LockManager) : OnlyUnwaits m m := ⟨rfl, .refl _⟩

lemma OnlyUnwaits.trans {a b c : LockManager} (h : OnlyUnwaits a b) (h' : OnlyUnwaits b c) :
    OnlyUnwaits a c := ⟨h'.locks.trans h.locks, h'.waits.trans h.waits⟩

lemma onlyUnwaits_clearWait (m : LockManager) (owner : WaitOwner) :
    OnlyUnwaits m (m.clearWait owner) := ⟨rfl, LockManager.clearWait_waits owner⟩

lemma onlyUnwaits_resourceReleased (m : LockManager) (owner : WaitOwner) :
    OnlyUnwaits m (m.resourceReleased owner) :=
  ⟨LockManager.resourceReleased_locks owner, LockManager.resourceReleased_subperm owner⟩

lemma onlyUnwaits_removeLocks {m : AdvisoryLockManager} {wg : LockManager}
    (gone : AdvisoryLock → Bool) (wo : WaitOwner) :
    OnlyUnwaits wg (m.removeLocks gone wo wg).2 := by
  simp only [removeLocks]
  split
  · exact (onlyUnwaits_clearWait wg wo).trans (onlyUnwaits_resourceReleased _ wo)
  · exact onlyUnwaits_clearWait wg wo

section Holdings

variable {m : AdvisoryLockManager} {waitGraph : LockManager} {owner o : AdvisoryOwner}
  {waitOwner w : WaitOwner} {key k : AdvisoryKey} {mode md : AdvisoryMode}
  {op : AdvisoryReplayOperation} {conn : Int32} {seq : ℕ}

lemma Holds.congr {m' : AdvisoryLockManager} (hlocks : m'.locks = m.locks)
    (h : m'.Holds o w k md) : m.Holds o w k md := by
  unfold Holds at h ⊢
  rwa [hlocks] at h

lemma blocker_eq_none (h : m.blocker key waitOwner mode = none) (hne : waitOwner ≠ w)
    (hheld : m.Holds o w key md) : advisoryConflicts mode md = false := by
  obtain ⟨lock, hlock, -, rfl, rfl, rfl⟩ := hheld
  have hfree := find?_eq_none.mp h lock hlock
  rw [advisoryConflicts_symm]
  simpa [Ne.symm hne] using hfree

lemma replay_locks (conn : Int32) (op : AdvisoryReplayOperation) :
    (m.replay conn op).1.locks = m.locks := by
  unfold replay
  split
  · rfl
  split
  · rfl
  · split
    · rfl
    · split <;> rfl

lemma replayed_locks (op : AdvisoryReplayOperation) : (m.replayed owner op).1.locks = m.locks := by
  unfold replayed
  split
  · exact replay_locks _ op
  · rfl

lemma replay_none {r : AdvisoryLockManager} (h : m.replay conn op = (r, .ok none)) :
    r = m ∧ m.Past conn := by
  unfold replay at h
  split at h
  · rename_i hstate
    exact ⟨by simpa using h.symm, fun _ hfound => by simp [hstate] at hfound⟩
  rename_i state hstate
  split at h
  · rename_i hpast
    exact ⟨by simpa using h.symm, fun _ hfound => by simp_all⟩
  · split at h
    · simp at h
    · split at h <;> simp at h

lemma replay_past (h : m.Past conn) (op : AdvisoryReplayOperation) :
    m.replay conn op = (m, .ok none) := by
  unfold replay
  split
  · rfl
  · rename_i state hstate
    rw [if_pos (h state hstate)]

lemma replayed_none {r : AdvisoryLockManager} (h : m.replayed owner op = (r, .ok none)) :
    m = r := by
  unfold replayed at h
  split at h
  · exact (replay_none h).1.symm
  · simpa using h

lemma recordReplay_locks (conn : Int32) (op : AdvisoryReplayOperation)
    (result : Bool) : (m.recordReplay conn op result).1.locks = m.locks := by
  unfold recordReplay
  split
  · split <;> rfl
  · rfl

lemma exists_map_eq_error {ε α β : Type} {x : Except ε α} {f : α → β} :
    (∃ e, x.map f = .error e) ↔ ∃ e, x = .error e := by
  cases x <;> simp [Except.map]

lemma recordReplay_fails_iff {result : Bool} :
    (∃ e, (m.recordReplay conn op result).2 = .error e) ↔ m.RecordsFull conn := by
  rw [RecordsFull, ← FixedVec.push_eq_none_iff (v := m.replayActions) (a := ⟨conn, op, result⟩)]
  unfold recordReplay
  rcases m.replayStates.items.any (·.connectionId == conn) with _ | _
  · simp
  · rcases m.replayActions.push ⟨conn, op, result⟩ with _ | actions <;> simp

lemma noted_eq (op : AdvisoryReplayOperation) (result : Bool) (decision : AdvisoryDecision) :
    (m.noted waitGraph owner op result decision).1.1.locks = m.locks ∧
      (m.noted waitGraph owner op result decision).1.2 = waitGraph := by
  unfold noted
  split
  · exact ⟨rfl, rfl⟩
  · exact ⟨recordReplay_locks _ _ _, rfl⟩

/-- The locks after a grant: one is counted once more, or a new one is there. -/
def grantedLocks (m : AdvisoryLockManager) (key : AdvisoryKey) (owner : AdvisoryOwner)
    (waitOwner : WaitOwner) (mode : AdvisoryMode) (acquiredAt : ℕ) :
    Option (FixedVec AdvisoryLock) :=
  match m.locks.items.find? (isOwn key owner mode) with
  | some lock =>
    if countExhausted owner lock then none
    else some (m.locks.updateFirst (isOwn key owner mode) (countedAgain owner))
  | none => m.locks.push ⟨key, owner, waitOwner, mode, 1, acquiredAt⟩

/-- A grant has room: in the count of the lock there is, or in the registry. -/
def HasRoom (m : AdvisoryLockManager) (key : AdvisoryKey) (owner : AdvisoryOwner)
    (mode : AdvisoryMode) : Prop :=
  match m.locks.items.find? (isOwn key owner mode) with
  | some lock => countExhausted owner lock = false
  | none => m.locks.items.length < m.locks.capacity

lemma grantedLocks_eq_none :
    m.grantedLocks key owner waitOwner mode seq = none ↔ ¬ m.HasRoom key owner mode := by
  unfold grantedLocks HasRoom
  rcases m.locks.items.find? (isOwn key owner mode) with _ | lock
  · simp [FixedVec.push_eq_none_iff]
  · simp

lemma grant_cases (tr : Bool) (seq : ℕ) :
    (m.grantedLocks key owner waitOwner mode seq = none ∧
        ∃ e, m.grant waitGraph key owner waitOwner mode tr seq = ((m, waitGraph), .error e)) ∨
      ∃ locks, m.grantedLocks key owner waitOwner mode seq = some locks ∧
        m.grant waitGraph key owner waitOwner mode tr seq =
          noted { m with locks } waitGraph owner (.acquire key mode tr) true .acquired := by
  unfold grant grantedLocks
  rcases m.locks.items.find? (isOwn key owner mode) with _ | lock
  · dsimp only
    split
    · rename_i hpush
      exact .inl ⟨hpush, _, rfl⟩
    · rename_i locks hpush
      exact .inr ⟨locks, hpush, rfl⟩
  · dsimp only
    split
    · exact .inl ⟨rfl, _, rfl⟩
    · exact .inr ⟨_, rfl, rfl⟩

lemma mem_grantedLocks {locks : FixedVec AdvisoryLock} {lock : AdvisoryLock}
    (h : m.grantedLocks key owner waitOwner mode seq = some locks) (hlock : lock ∈ locks.items) :
    m.Holds lock.owner lock.waitOwner lock.key lock.mode ∨
      lock.owner = owner ∧ lock.waitOwner = waitOwner ∧ lock.key = key ∧ lock.mode = mode := by
  unfold grantedLocks at h
  split at h
  · split at h
    · cases h
    -- counted once more: the same lock
    cases h
    rcases FixedVec.mem_modifyFirst hlock with hold | ⟨own, hfound, rfl⟩
    · exact .inl ⟨lock, hold, rfl, rfl, rfl, rfl⟩
    · refine .inl ⟨own, mem_of_find?_eq_some hfound, ?_⟩
      cases owner <;> exact ⟨rfl, rfl, rfl, rfl⟩
  · rw [FixedVec.push_items h, mem_append, mem_singleton] at hlock
    rcases hlock with hold | rfl
    · exact .inl ⟨lock, hold, rfl, rfl, rfl, rfl⟩
    · exact .inr ⟨rfl, rfl, rfl, rfl⟩

/-- **An acquisition is granted, or leaves the locks**; then waits are removed, or one is registered
for the wait owner of a lock. -/
theorem acquire_cases (tr : Bool) (seq : ℕ) :
    let after := m.acquire key owner waitOwner mode tr seq waitGraph
    (after.1.1.locks = m.locks ∧ ¬ (m.replayed owner (.acquire key mode tr) = (m, .ok none) ∧
          m.blocker key waitOwner mode = none ∧ m.HasRoom key owner mode) ∧
        (OnlyUnwaits waitGraph after.1.2 ∨
          ∃ lock ∈ m.locks.items, after.1.2 = (waitGraph.setWait waitOwner lock.waitOwner).1)) ∨
      ∃ locks, m.replayed owner (.acquire key mode tr) = (m, .ok none) ∧
        m.blocker key waitOwner mode = none ∧
        m.grantedLocks key owner waitOwner mode seq = some locks ∧
        after = noted { m.clearWait waitOwner with locks } (waitGraph.clearWait waitOwner) owner
          (.acquire key mode tr) true .acquired := by
  have hsame := @replayed_locks m owner (.acquire key mode tr)
  unfold acquire
  rcases hrep : m.replayed owner (.acquire key mode tr) with ⟨r, e | _ | result⟩
  · rw [hrep] at hsame
    exact .inl ⟨hsame, by simp, .inl (.refl _)⟩
  · obtain rfl := replayed_none hrep
    simp only [acquireNew]
    rcases hb : m.blocker key waitOwner mode with _ | lock
    · rcases @grant_cases (m.clearWait waitOwner) (waitGraph.clearWait waitOwner) owner waitOwner
        key mode tr seq with ⟨hnone, e, hgrant⟩ | ⟨locks, hlocks, hgrant⟩
      · rw [hgrant]
        exact .inl
          ⟨rfl, fun h => grantedLocks_eq_none.mp hnone h.2.2, .inl (onlyUnwaits_clearWait _ _)⟩
      · exact .inr ⟨locks, trivial, rfl, hlocks, hgrant⟩
    refine .inl ⟨?_, by simp, ?_⟩
    · dsimp only
      split
      · exact (noted_eq _ _ _).1
      · split
        · rfl
        · split <;> rfl
    dsimp only
    split
    · rw [(noted_eq _ _ _).2]
      exact .inl (onlyUnwaits_clearWait _ _)
    split
    · exact .inl (.refl _)
    · refine .inr ⟨lock, mem_of_find?_eq_some hb, ?_⟩
      simp only [LockManager.waitFor]
      split <;> rename_i hw <;> rw [hw]
  · rw [hrep] at hsame
    exact .inl ⟨hsame, by simp, .inl (.refl _)⟩

/-- **An acquisition adds the lock asked for, or nothing**, and only when nothing blocks it. -/
theorem acquire_holds {tr : Bool}
    (h : (m.acquire key owner waitOwner mode tr seq waitGraph).1.1.Holds o w k md) :
    m.Holds o w k md ∨ (o = owner ∧ w = waitOwner ∧ k = key ∧ md = mode) ∧
      m.blocker key waitOwner mode = none := by
  rcases @acquire_cases m waitGraph owner waitOwner key mode tr seq with
    ⟨hlocks, -⟩ | ⟨locks, -, hb, hgranted, hafter⟩
  · exact .inl (h.congr hlocks)
  · rw [hafter] at h
    obtain ⟨lock, hlock, rfl, rfl, rfl, rfl⟩ := h.congr (noted_eq _ _ _).1
    exact (mem_grantedLocks hgranted hlock).imp_right fun h => ⟨h, hb⟩

lemma removeLocks_locks (gone : AdvisoryLock → Bool) :
    (m.removeLocks gone waitOwner waitGraph).1.locks = (m.locks.removeAll gone).1 := rfl

lemma removeLocks_holds {gone : AdvisoryLock → Bool}
    (h : (m.removeLocks gone waitOwner waitGraph).1.Holds o w k md) : m.Holds o w k md := by
  obtain ⟨lock, hlock, hholds⟩ := h
  rw [removeLocks_locks, FixedVec.mem_removeAll] at hlock
  exact ⟨lock, hlock.1, hholds⟩

/-- The locks after a session gave one back. Source: `unlock_session`. -/
def unlockedLocks (m : AdvisoryLockManager) (own : AdvisoryLock → Bool) (lock : AdvisoryLock) :
    FixedVec AdvisoryLock :=
  if 1 < lock.count then
    m.locks.updateFirst own fun lock => { lock with count := lock.count - 1 }
  else m.locks.eraseFirst own

/-- **A session gives back a lock it has, unless the call is a replay.** -/
theorem unlockSession_cases (conn : Int32) :
    let after := m.unlockSession conn key mode waitGraph
    let own := isOwn key (.session conn) mode
    OnlyUnwaits waitGraph after.1.2 ∧
      (after.1.1.locks = m.locks ∧ ¬ (m.Past conn ∧ ∃ lock ∈ m.locks.items, own lock) ∨
        ∃ lock, m.Past conn ∧ m.locks.items.find? own = some lock ∧
          after.1.1.locks = m.unlockedLocks own
          lock ∧ ((∃ e, after.2 = .error e) ↔ m.RecordsFull conn)) := by
  have hsame := @replay_locks m conn (.unlock key mode)
  unfold unlockSession
  rcases hrep : m.replay conn (.unlock key mode) with ⟨r, e | _ | result⟩
  · rw [hrep] at hsame
    exact ⟨.refl _, .inl ⟨hsame, fun h => by simp [replay_past h.1] at hrep⟩⟩
  · obtain ⟨rfl, hpast⟩ := replay_none hrep
    rcases hfound : r.locks.items.find? (isOwn key (.session conn) mode) with _ | lock
    · simp only [hfound, recordReplay_locks]
      exact ⟨.refl _, .inl ⟨trivial, fun ⟨_, lock, hlock, hown⟩ =>
        find?_eq_none.mp hfound lock hlock hown⟩⟩
    simp only [hfound, recordReplay_locks, exists_map_eq_error, recordReplay_fails_iff]
    split <;> rename_i hcount
    · exact ⟨.refl _, .inr ⟨lock, hpast, rfl, (if_pos hcount).symm, .rfl⟩⟩
    · exact ⟨onlyUnwaits_resourceReleased _ _, .inr ⟨lock, hpast, rfl, (if_neg hcount).symm, .rfl⟩⟩
  · rw [hrep] at hsame
    exact ⟨.refl _, .inl ⟨hsame, fun h => by simp [replay_past h.1] at hrep⟩⟩

lemma unlockSession_holds (h : (m.unlockSession conn key mode waitGraph).1.1.Holds o w k md) :
    m.Holds o w k md := by
  rcases (@unlockSession_cases m waitGraph key mode conn).2 with
      ⟨hlocks, -⟩ | ⟨own, -, -, hlocks, -⟩
  · exact h.congr hlocks
  obtain ⟨lock, hlock, ho, hw, hk, hmd⟩ := h
  rw [hlocks, unlockedLocks] at hlock
  split at hlock
  · rcases FixedVec.mem_modifyFirst hlock with hold | ⟨own, hfound, rfl⟩
    · exact ⟨lock, hold, ho, hw, hk, hmd⟩
    · exact ⟨own, mem_of_find?_eq_some hfound, ho, hw, hk, hmd⟩
  · exact ⟨lock, FixedVec.mem_of_mem_eraseFirst hlock, ho, hw, hk, hmd⟩

/-- **A session gives back all its locks, unless the call is a replay.** -/
theorem unlockAllSession_cases (conn : Int32) :
    let after := m.unlockAllSession conn waitGraph
    OnlyUnwaits waitGraph after.1.2 ∧ (after.1.1.locks = m.locks ∧ ¬ m.Past conn ∨
        m.Past conn ∧ after.1.1.locks = (m.locks.removeAll (·.owner == .session conn)).1 ∧
          ((∃ e, after.2 = .error e) ↔ m.RecordsFull conn)) := by
  have hsame := @replay_locks m conn .unlockAll
  unfold unlockAllSession
  rcases hrep : m.replay conn .unlockAll with ⟨r, e | _ | result⟩
  · rw [hrep] at hsame
    exact ⟨.refl _, .inl ⟨hsame, fun h => by simp [replay_past h] at hrep⟩⟩
  · obtain ⟨rfl, hpast⟩ := replay_none hrep
    simp only [recordReplay_locks, recordReplay_fails_iff]
    exact ⟨onlyUnwaits_removeLocks _ _, .inr ⟨hpast, rfl, .rfl⟩⟩
  · rw [hrep] at hsame
    exact ⟨.refl _, .inl ⟨hsame, fun h => by simp [replay_past h] at hrep⟩⟩

lemma unlockAllSession_holds
    (h : (m.unlockAllSession conn waitGraph).1.1.Holds o w k md) : m.Holds o w k md := by
  rcases (@unlockAllSession_cases m waitGraph conn).2 with ⟨hlocks, -⟩ | ⟨-, hlocks, -⟩
  · exact h.congr hlocks
  · obtain ⟨lock, hlock, hholds⟩ := h
    rw [hlocks, FixedVec.mem_removeAll] at hlock
    exact ⟨lock, hlock.1, hholds⟩

lemma releaseTransaction_holds {transactionId : UInt32}
    (h : (m.releaseTransaction transactionId waitOwner waitGraph).1.Holds o w k md) :
    m.Holds o w k md ∧ o ≠ .transaction transactionId := by
  refine ⟨removeLocks_holds h, ?_⟩
  obtain ⟨lock, hlock, rfl, -⟩ := h
  rw [releaseTransaction, removeLocks_locks, FixedVec.mem_removeAll] at hlock
  simpa using hlock.2

end Holdings

/-! ## Waits -/

section Waits

variable {m : AdvisoryLockManager} {wg : LockManager}

/-- An acquisition removes waits, or registers one for the wait owner of a lock. -/
lemma acquire_waitGraph (key : AdvisoryKey) (owner : AdvisoryOwner) (wo : WaitOwner)
    (mode : AdvisoryMode) (tr : Bool) (seq : ℕ) :
    OnlyUnwaits wg (m.acquire key owner wo mode tr seq wg).1.2 ∨
      ∃ lock ∈ m.locks.items, (m.acquire key owner wo mode tr seq wg).1.2 =
        (wg.setWait wo lock.waitOwner).1 := by
  rcases @acquire_cases m wg owner wo key mode tr seq with
    ⟨-, -, h⟩ | ⟨locks, -, -, -, hafter⟩
  · exact h
  · rw [hafter, (noted_eq _ _ _).2]
    exact .inl (onlyUnwaits_clearWait wg wo)

end Waits

end AdvisoryLockManager

end Pos3ql
