import Pos3ql.Locks.Advisory
import Pos3ql.Storage.Snapshots

/-!
# Relation locks

Locks on tables, views and roles, in PostgreSQL's eight modes, and the state that holds them
together with the row and advisory locks. When transactions exclude one another by locking, a
request takes a stronger protection mode along with the mode asked for; both get the sequence number
of the request, also where one of them was held before. Source: `storage/mod.rs` (`LockState`,
`lock_object_owned`, `rollback_locks_to` and the releases).

* `modeConflicts`: the matrix, symmetric (`modeConflicts_symm`).
* `LockState.HeldSince`: the abstract view, a mode held since a sequence number; `Holds` forgets
  when.
* **`lockObjectOwned_cases`**: all that a request can do to the state.
* **`heldSince_grantTable`**, `heldSince_rollbackTable`: what a grant and a rollback do to the view.
-/

namespace Pos3ql

open Foundation List

/-! ## Modes -/

/-- Source: `TableLockMode`. -/
inductive TableLockMode
  | accessShare
  | rowShare
  | rowExclusive
  | shareUpdateExclusive
  | share
  | shareRowExclusive
  | exclusive
  | accessExclusive
  deriving DecidableEq, Repr

/-- The eight modes, in the order of their bits. -/
def TableLockMode.all : List TableLockMode :=
  [.accessShare, .rowShare, .rowExclusive, .shareUpdateExclusive, .share, .shareRowExclusive,
    .exclusive, .accessExclusive]

@[simp]
lemma TableLockMode.mem_all (mode : TableLockMode) : mode ∈ TableLockMode.all := by
  cases mode <;> simp [TableLockMode.all]

/-- Source: `mode_conflicts`. -/
def modeConflicts (left right : TableLockMode) : Bool :=
  (match left, right with
    | .accessShare, .accessExclusive => true
    | .rowShare, .exclusive | .rowShare, .accessExclusive => true
    | .rowExclusive, .share | .rowExclusive, .shareRowExclusive | .rowExclusive, .exclusive
    | .rowExclusive, .accessExclusive => true
    | .shareUpdateExclusive, .shareUpdateExclusive | .shareUpdateExclusive, .share
    | .shareUpdateExclusive, .shareRowExclusive | .shareUpdateExclusive, .exclusive
    | .shareUpdateExclusive, .accessExclusive => true
    | .share, .rowExclusive | .share, .shareUpdateExclusive | .share, .shareRowExclusive
    | .share, .exclusive | .share, .accessExclusive => true
    | .shareRowExclusive, .rowExclusive | .shareRowExclusive, .shareUpdateExclusive
    | .shareRowExclusive, .share | .shareRowExclusive, .shareRowExclusive
    | .shareRowExclusive, .exclusive | .shareRowExclusive, .accessExclusive => true
    | .exclusive, .rowShare | .exclusive, .rowExclusive | .exclusive, .shareUpdateExclusive
    | .exclusive, .share | .exclusive, .shareRowExclusive | .exclusive, .exclusive
    | .exclusive, .accessExclusive => true
    | .accessExclusive, _ => true
    | _, _ => false) ||
    right == .accessExclusive

lemma modeConflicts_symm (left right : TableLockMode) :
    modeConflicts left right = modeConflicts right left := by
  cases left <;> cases right <;> rfl

/-- Source: `object_lock_modes_conflict`, over sets of bits. -/
def objectLockModesConflict (left right : TableLockMode → Bool) : Bool :=
  TableLockMode.all.any fun l =>
    left l && TableLockMode.all.any fun r => right r && modeConflicts l r

lemma objectLockModesConflict_eq_false {left right : TableLockMode → Bool} :
    objectLockModesConflict left right = false ↔
      ∀ l r, left l → right r → modeConflicts l r = false := by
  constructor
  · intro h l r hl hr
    simp only [objectLockModesConflict, any_eq_false, Bool.and_eq_true, any_eq_true] at h
    rw [← Bool.not_eq_true]
    exact fun hlr => h l l.mem_all ⟨hl, r, r.mem_all, hr, hlr⟩
  intro h
  simp only [objectLockModesConflict, any_eq_false, Bool.and_eq_true, any_eq_true]
  rintro l - ⟨hl, r, -, hr, hlr⟩
  rw [h l r hl hr] at hlr
  cases hlr

/-! ## The registry -/

/-- Source: `ObjectLockTarget`. -/
inductive ObjectLockTarget
  | table (slot : ℕ)
  | view (slot : ℕ)
  | role (oid : ℕ)
  deriving DecidableEq, Repr

/-- Source: `ObjectLockOwner`. -/
inductive ObjectLockOwner
  | transaction (transactionId : UInt32)
  | session (connection : Int32) (acquisition : ℕ)
  deriving DecidableEq, Repr

/-- Source: `ObjectLock`; `modes` holds the sequence number of each mode, zero when absent. -/
structure ObjectLock where
  owner : ObjectLockOwner
  waitOwner : WaitOwner
  relation : ObjectLockTarget
  modes : TableLockMode → ℕ

/-- The modes held. Source: `ObjectLock::mask`, a set of bits. -/
def ObjectLock.mask (lock : ObjectLock) (mode : TableLockMode) : Bool := lock.modes mode != 0

/-- The lock of an owner on a relation. Source: `lock_object_owned` (`own_index`). -/
def ObjectLock.isOwn (owner : ObjectLockOwner) (relation : ObjectLockTarget) (lock : ObjectLock) :
    Bool :=
  lock.owner == owner && lock.relation == relation

lemma ObjectLock.isOwn_iff {owner : ObjectLockOwner} {relation : ObjectLockTarget}
    {lock : ObjectLock} :
    lock.isOwn owner relation ↔ lock.owner = owner ∧ lock.relation = relation := by
  simp [ObjectLock.isOwn]

/-- Source: `LockState`. -/
structure LockState where
  table : FixedVec ObjectLock
  row : LockManager
  advisory : AdvisoryLockManager
  sequence : ℕ

/-- The mode taken along with the one asked for. Source: `lock_object_owned` (`protection`). -/
def protection (transactionMode : TransactionMode) (owner : ObjectLockOwner)
    (relation : ObjectLockTarget) (mode : TableLockMode) : TableLockMode :=
  match owner, relation, transactionMode with
  | .session _ _, _, _ => mode
  | _, .role _, _ => mode
  | _, _, .mvcc => mode
  | _, _, .locking =>
    match mode with
    | .accessShare | .share => .share
    | .accessExclusive => .accessExclusive
    | _ => .exclusive

/-- A protection mode conflicts with at least as much as the mode it protects. -/
lemma modeConflicts_protection {tm : TransactionMode} {owner : ObjectLockOwner}
    {rel : ObjectLockTarget} {mode other : TableLockMode}
    (h : modeConflicts (protection tm owner rel mode) other = false) :
    modeConflicts mode other = false := by
  revert h
  unfold protection
  split
  · exact id
  · exact id
  · exact id
  · cases mode <;> cases other <;> decide

/-- Source: `lock_object_owned`, the modes of role locks. -/
def validRoleMode : TableLockMode → Bool
  | .accessShare | .shareUpdateExclusive | .accessExclusive => true
  | _ => false

/-- Whether a request names a role in a mode roles do not have. Source: `lock_object_owned`. -/
def invalidRoleLock (relation : ObjectLockTarget) (mode : TableLockMode) : Bool :=
  match relation with
  | .role _ => !validRoleMode mode
  | _ => false

namespace LockState

/-- Source: `next_sequence`. -/
def nextSequence (locks : LockState) : LockState × Except SqlError ℕ :=
  if locks.sequence + 1 < 2 ^ 64 then
    ({ locks with sequence := locks.sequence + 1 }, .ok (locks.sequence + 1))
  else (locks, .error ⟨.programLimitExceeded, "lock acquisition identity is exhausted"⟩)

/-- The modes of an owner's lock on a relation. -/
def ownModes (locks : LockState) (owner : ObjectLockOwner) (relation : ObjectLockTarget)
    (mode : TableLockMode) : ℕ :=
  match locks.table.items.find? (ObjectLock.isOwn owner relation) with
  | none => 0
  | some lock => lock.modes mode

/-- A lock that stands in the way of two modes. Source: `lock_object_owned` (`blocker`). -/
def objectBlocker (locks : LockState) (owner : ObjectLockOwner) (waitOwner : WaitOwner)
    (relation : ObjectLockTarget) (mode protecting : TableLockMode) : Option ObjectLock :=
  locks.table.items.find? fun lock =>
    lock.waitOwner != waitOwner && lock.relation == relation && objectLockModesConflict
        (fun m => m == mode || m == protecting || locks.ownModes owner relation m != 0) lock.mask

/-- The table after a grant; none when it is full. Source: `lock_object_owned`. -/
def grantTable (table : FixedVec ObjectLock) (owner : ObjectLockOwner) (waitOwner : WaitOwner)
    (relation : ObjectLockTarget) (mode protecting : TableLockMode) (sequence : ℕ) :
    Option (FixedVec ObjectLock) :=
  if table.items.any (ObjectLock.isOwn owner relation) then
    some (table.updateFirst (ObjectLock.isOwn owner relation) fun lock =>
      { lock with
        modes := fun m => if m = mode ∨ m = protecting then sequence else lock.modes m })
  else
    table.push
      ⟨owner, waitOwner, relation, fun m => if m = mode ∨ m = protecting then sequence else 0⟩

/-- Source: `lock_object_owned`, the grant. -/
def grantObject (locks : LockState) (owner : ObjectLockOwner) (waitOwner : WaitOwner)
    (relation : ObjectLockTarget) (mode protecting : TableLockMode) :
    LockState × Except SqlError Unit :=
  match locks.nextSequence with
  | (locks, .error e) => (locks, .error e)
  | (locks, .ok sequence) =>
    match grantTable locks.table owner waitOwner relation mode protecting sequence with
    | none =>
      (locks,
        .error
          ⟨.programLimitExceeded, s!"object-lock registry is full ({locks.table.capacity} locks)"⟩)
    | some table => ({ locks with table }, .ok ())

/-- Source: `lock_object_owned`. -/
def lockObjectOwned (locks : LockState) (transactionMode : TransactionMode)
    (owner : ObjectLockOwner) (waitOwner : WaitOwner) (relation : ObjectLockTarget)
    (mode : TableLockMode) (nowait : Bool) :
    LockState × Except SqlError Unit :=
  if invalidRoleLock relation mode then
    (locks, .error ⟨.invalidParameterValue, "invalid role-lock mode"⟩)
  else if locks.ownModes owner relation mode ≠ 0 ∧
      locks.ownModes owner relation (protection transactionMode owner relation mode) ≠ 0 then
    (locks, .ok ())
  else
    match locks.objectBlocker owner waitOwner relation mode
        (protection transactionMode owner relation mode) with
    | some lock =>
      if nowait then (locks, .error ⟨.lockNotAvailable, "could not obtain lock on relation"⟩)
      else
        match locks.row.waitFor waitOwner lock.waitOwner with
        | (row, .error e) => ({ locks with row }, .error e)
        | (row, .ok ()) =>
          ({ locks with row },
            .error ⟨.internalLockWait, "statement is waiting for a relation lock"⟩)
    | none =>
      locks.grantObject owner waitOwner relation mode
        (protection transactionMode owner relation mode)

/-- What a rollback makes of a relation lock, and whether that is a change.
Source: `rollback_locks_to`. -/
def rollbackObject (transactionId : UInt32) (mark : ℕ) (lock : ObjectLock) :
    Option ObjectLock × Bool :=
  if lock.owner != .transaction transactionId then (some lock, false)
  else
    (if TableLockMode.all.any fun m => LockManager.dropAfter mark lock.modes m != 0 then
        some { lock with modes := LockManager.dropAfter mark lock.modes }
      else none,
      TableLockMode.all.any fun m => decide (mark < lock.modes m))

/-- Source: `rollback_locks_to`. -/
def rollbackLocksTo (locks : LockState) (transactionId : UInt32) (waitOwner : WaitOwner)
    (mark : ℕ) :
    LockState :=
  let (table, tableChanged) := locks.table.sweep (rollbackObject transactionId mark)
  let (advisory, row) := locks.advisory.rollbackTo transactionId waitOwner mark
    (locks.row.rollbackTo transactionId waitOwner mark)
  { locks with
    table := table
    advisory := advisory
    row := if tableChanged then row.resourceReleased waitOwner else row }

/-- Remove relation locks, and wake those who wait for a wait owner if there were any.
Source: `release_object_locks`, `release_connection_object_locks`. -/
def removeObjects (locks : LockState) (gone : ObjectLock → Bool) (waitOwner : WaitOwner) :
    LockState :=
  let (table, changed) := locks.table.removeAll gone
  { locks with
    table := table
    row := if changed then locks.row.resourceReleased waitOwner else locks.row }

/-- Source: `release_object_locks`. -/
def releaseObjectLocks (locks : LockState) (transactionId : UInt32) (waitOwner : WaitOwner) :
    LockState :=
  locks.removeObjects (·.owner == .transaction transactionId) waitOwner

/-- Whether a lock is a hold of a connection. Source: `release_connection_object_locks`. -/
def isHoldOf (connection : Int32) (lock : ObjectLock) : Bool :=
  match lock.owner with
  | .session c _ => c == connection
  | .transaction _ => false

/-- Source: `release_connection_object_locks`. -/
def releaseConnectionObjectLocks (locks : LockState) (connection : Int32) : LockState :=
  locks.removeObjects (isHoldOf connection) (connectionWaitOwner connection)

/-- Source: `Drop for SessionTableLock`. -/
def dropTableHold (locks : LockState) (connection : Int32) (acquisition table : ℕ) : LockState :=
  match locks.table.items.find?
      (ObjectLock.isOwn (.session connection acquisition) (.table table)) with
  | none => locks
  | some lock =>
    { locks with
      table :=
        locks.table.eraseFirst (ObjectLock.isOwn (.session connection acquisition) (.table table))
      row := locks.row.resourceReleased lock.waitOwner }

/-! ## Who holds what -/

/-- An owner holds a relation in a mode, since a sequence number. -/
def HeldSince (table : List ObjectLock) (owner : ObjectLockOwner) (relation : ObjectLockTarget)
    (mode : TableLockMode) (sequence : ℕ) : Prop :=
  ∃ lock ∈ table, lock.owner = owner ∧ lock.relation = relation ∧ lock.modes mode = sequence ∧
    sequence ≠ 0

/-- An owner holds a relation in a mode. -/
def Holds (locks : LockState) (owner : ObjectLockOwner) (relation : ObjectLockTarget)
    (mode : TableLockMode) : Prop :=
  ∃ sequence, HeldSince locks.table.items owner relation mode sequence

/-- An owner has one lock at most on a relation. -/
def OneEach (table : List ObjectLock) : Prop :=
  table.Pairwise fun a b => ¬(a.owner = b.owner ∧ a.relation = b.relation)

section Requests

variable {locks : LockState} {tm : TransactionMode} {owner : ObjectLockOwner} {wo : WaitOwner}
  {rel : ObjectLockTarget} {mode protecting : TableLockMode} {seq : ℕ}

/-- **All that a request can do to the state**: nothing, wait for the owner of a lock, use up a
sequence number, or take the modes when nothing is in the way. -/
theorem lockObjectOwned_cases (nowait : Bool) :
    let after := (locks.lockObjectOwned tm owner wo rel mode nowait).1
    after = locks ∨ (∃ lock ∈ locks.table.items,
        after = { locks with row := (locks.row.setWait wo lock.waitOwner).1 }) ∨
      after = { locks with sequence := locks.sequence + 1 } ∨
      ∃ table, after = { locks with table, sequence := locks.sequence + 1 } ∧
        locks.sequence + 1 < 2 ^ 64 ∧
        grantTable locks.table owner wo rel mode
          (protection tm owner rel mode) (locks.sequence + 1) = some table ∧
        locks.objectBlocker owner wo rel mode (protection tm owner rel mode) = none ∧
        ¬(locks.ownModes owner rel mode ≠ 0 ∧
          locks.ownModes owner rel (protection tm owner rel mode) ≠ 0) := by
  intro after
  simp only [after, lockObjectOwned]
  split
  · exact .inl rfl
  split
  · exact .inl rfl
  rename_i hheld
  rcases hb : locks.objectBlocker owner wo rel mode (protection tm owner rel mode) with _ | lock
  · simp only [grantObject, nextSequence]
    split
    · rename_i hseq
      split at hseq <;> cases hseq
      exact .inl rfl
    rename_i hseq
    split at hseq <;> cases hseq
    rename_i hleft
    split
    · exact .inr (.inr (.inl rfl))
    · rename_i table htable
      exact .inr (.inr (.inr ⟨table, rfl, hleft, htable, trivial, hheld⟩))
  · simp only
    split
    · exact .inl rfl
    refine .inr (.inl ⟨lock, mem_of_find?_eq_some hb, ?_⟩)
    simp only [LockManager.waitFor]
    split
    · rename_i hw
      rw [hw]
    · rename_i hw
      rw [hw]

/-- A request that nothing stands against, of an owner who has a lock on the relation, is
granted. -/
lemma lockObjectOwned_granted {nowait : Bool} (hrole : invalidRoleLock rel mode = false)
    (hheld : ¬(locks.ownModes owner rel mode ≠ 0 ∧
      locks.ownModes owner rel (protection tm owner rel mode) ≠ 0))
    (hfree : locks.objectBlocker owner wo rel mode (protection tm owner rel mode) = none)
    (hleft : locks.sequence + 1 < 2 ^ 64)
    (hown : locks.table.items.any (ObjectLock.isOwn owner rel)) :
    ∃ table, grantTable locks.table owner wo rel mode
        (protection tm owner rel mode) (locks.sequence + 1) = some table ∧
      (locks.lockObjectOwned tm owner wo rel mode nowait).1 =
        { locks with table, sequence := locks.sequence + 1 } := by
  refine ⟨_, by rw [grantTable, if_pos hown], ?_⟩
  simp only [lockObjectOwned, hrole, Bool.false_eq_true, if_false, if_neg hheld, hfree, grantObject,
    nextSequence, if_pos hleft, grantTable, if_pos hown]

/-- Nothing in the way: what is asked for conflicts with nothing held for other wait owners. -/
lemma objectBlocker_eq_none (h : locks.objectBlocker owner wo rel mode protecting = none)
    {lock : ObjectLock} (hlock : lock ∈ locks.table.items) (hw : lock.waitOwner ≠ wo)
    (hrel : lock.relation = rel) {m held : TableLockMode} (hm : m = mode ∨ m = protecting)
    (hheld : lock.modes held ≠ 0) :
    modeConflicts m held = false := by
  have hfree := find?_eq_none.mp h lock hlock
  simp only [hrel, beq_self_eq_true, Bool.and_eq_true, bne_iff_ne, ne_eq, hw,
    not_false_eq_true, true_and, Bool.not_eq_true] at hfree
  refine objectLockModesConflict_eq_false.mp hfree m held ?_ ?_
  · rcases hm with rfl | rfl <;> simp
  · simpa [ObjectLock.mask] using hheld

lemma oneEach_iff {table : List ObjectLock} :
    OneEach table ↔ (table.map fun lock => (lock.owner, lock.relation)).Nodup := by
  simp only [OneEach, Nodup, pairwise_map, ne_eq, Prod.mk.injEq]

lemma ownModes_eq (h : OneEach locks.table.items) {lock : ObjectLock}
    (hlock : lock ∈ locks.table.items) :
    locks.ownModes lock.owner lock.relation = lock.modes := by
  have hfound : locks.table.items.find? (ObjectLock.isOwn lock.owner lock.relation) =
      some lock := by
    rcases hf : locks.table.items.find? (ObjectLock.isOwn lock.owner lock.relation) with _ | found
    · exact absurd (find?_eq_none.mp hf lock hlock) (by simp [ObjectLock.isOwn_iff])
    by_contra hne
    have : Std.Symm fun a b : ObjectLock =>
        ¬(a.owner = b.owner ∧ a.relation = b.relation) :=
      ⟨fun _ _ hab hba => hab ⟨hba.1.symm, hba.2.symm⟩⟩
    refine h.forall (mem_of_find?_eq_some hf) hlock (fun heq => hne (heq ▸ rfl)) ?_
    exact ObjectLock.isOwn_iff.mp (find?_some hf)
  funext mode
  simp only [ownModes, hfound]

lemma heldSince_iff (h : OneEach locks.table.items) :
    HeldSince locks.table.items owner rel mode seq ↔
      locks.ownModes owner rel mode = seq ∧ seq ≠ 0 := by
  constructor
  · rintro ⟨lock, hlock, rfl, rfl, hseq, hne⟩
    rw [ownModes_eq h hlock]
    exact ⟨hseq, hne⟩
  rintro ⟨hown, hne⟩
  rcases hf : locks.table.items.find? (ObjectLock.isOwn owner rel) with _ | lock
  · simp only [ownModes, hf] at hown
    exact absurd hown.symm hne
  · simp only [ownModes, hf] at hown
    obtain ⟨ho, hr⟩ := ObjectLock.isOwn_iff.mp (find?_some hf)
    exact ⟨lock, mem_of_find?_eq_some hf, ho, hr, hown, hne⟩

/-- **A grant changes the one lock of the owner on the relation**, or adds it. -/
theorem grantTable_spec {table after : FixedVec ObjectLock} (h : OneEach table.items)
    (hgrant : grantTable table owner wo rel mode protecting seq = some after) :
    OneEach after.items ∧ ∀ lock, lock ∈ after.items ↔
      (lock ∈ table.items ∧ (lock.owner, lock.relation) ≠ (owner, rel)) ∨
      (∃ old ∈ table.items, (old.owner, old.relation) = (owner, rel) ∧ lock = { old with
        modes := fun m => if m = mode ∨ m = protecting then seq else old.modes m }) ∨
      ((owner, rel) ∉ table.items.map (fun lock => (lock.owner, lock.relation)) ∧
        lock = ⟨owner, wo, rel, fun m => if m = mode ∨ m = protecting then seq else 0⟩) := by
  have hup : table.upsert (ObjectLock.isOwn owner rel) (fun lock => { lock with
        modes := fun m => if m = mode ∨ m = protecting then seq else lock.modes m })
      ⟨owner, wo, rel, fun m => if m = mode ∨ m = protecting then seq else 0⟩ = some after := hgrant
  obtain ⟨-, hone, hmem⟩ := FixedVec.upsert_spec hup
    (fun _ _ => ObjectLock.isOwn_iff.trans Prod.mk_inj.symm) (fun _ => rfl) (oneEach_iff.mp h)
  exact ⟨oneEach_iff.mpr hone, hmem⟩

/-- **A grant gives the mode and its protection the new sequence number**, and changes nothing
else. -/
theorem heldSince_grantTable {table after : FixedVec ObjectLock} (h : OneEach table.items)
    (hpos : seq ≠ 0) (hgrant : grantTable table owner wo rel mode protecting seq = some after)
    {o : ObjectLockOwner} {r : ObjectLockTarget} {m : TableLockMode} {n : ℕ} :
    HeldSince after.items o r m n ↔ (o = owner ∧ r = rel ∧ (m = mode ∨ m = protecting)) ∧ n = seq ∨
        ¬(o = owner ∧ r = rel ∧ (m = mode ∨ m = protecting)) ∧ HeldSince table.items o r m n := by
  have hmem := (grantTable_spec h hgrant).2
  constructor
  · rintro ⟨lock, hlock, rfl, rfl, hm, hn⟩
    rcases (hmem lock).mp hlock with ⟨hold, hne⟩ | ⟨old, hold, hsame, rfl⟩ | ⟨-, rfl⟩
    · exact .inr ⟨fun hc => hne (by rw [hc.1, hc.2.1]), lock, hold, rfl, rfl, hm, hn⟩
    · obtain ⟨hlo, hlr⟩ := Prod.mk.inj hsame
      by_cases hmode : m = mode ∨ m = protecting
      · simp only [if_pos hmode] at hm
        exact .inl ⟨⟨hlo, hlr, hmode⟩, hm.symm⟩
      · simp only [if_neg hmode] at hm
        exact .inr ⟨fun hc => hmode hc.2.2, old, hold, rfl, rfl, hm, hn⟩
    · by_cases hmode : m = mode ∨ m = protecting
      · simp only [if_pos hmode] at hm
        exact .inl ⟨⟨rfl, rfl, hmode⟩, hm.symm⟩
      · simp only [if_neg hmode] at hm
        exact absurd hm.symm hn
  rintro (⟨⟨rfl, rfl, hmode⟩, rfl⟩ | ⟨hother, lock, hlock, rfl, rfl, hm, hn⟩)
  · by_cases hpres : (o, r) ∈ table.items.map fun lock => (lock.owner, lock.relation)
    · obtain ⟨old, hold, hsame⟩ := mem_map.mp hpres
      exact ⟨_, (hmem _).mpr (.inr (.inl ⟨old, hold, hsame, rfl⟩)), (Prod.mk.inj hsame).1,
        (Prod.mk.inj hsame).2, if_pos hmode, hpos⟩
    · exact ⟨_, (hmem _).mpr (.inr (.inr ⟨hpres, rfl⟩)), rfl, rfl, if_pos hmode, hpos⟩
  by_cases hsame : (lock.owner, lock.relation) = (owner, rel)
  · obtain ⟨hlo, hlr⟩ := Prod.mk.inj hsame
    have hmode : ¬(m = mode ∨ m = protecting) := fun hmode => hother ⟨hlo, hlr, hmode⟩
    exact ⟨_, (hmem _).mpr (.inr (.inl ⟨lock, hlock, hsame, rfl⟩)), rfl, rfl,
      (if_neg hmode).trans hm, hn⟩
  · exact ⟨lock, (hmem lock).mpr (.inl ⟨hlock, hsame⟩), rfl, rfl, hm, hn⟩

end Requests

section Rollback

variable {table : FixedVec ObjectLock} {transactionId : UInt32} {mark : ℕ}

/-- The locks a rollback leaves are locks from before, with the same owner and fewer modes. -/
lemma rollbackObject_eq_some {lock kept : ObjectLock}
    (h : (rollbackObject transactionId mark lock).1 = some kept) :
    kept.owner = lock.owner ∧ kept.waitOwner = lock.waitOwner ∧ kept.relation = lock.relation ∧
      ∀ m, kept.modes m =
        if lock.owner = .transaction transactionId ∧ mark < lock.modes m then 0
        else lock.modes m := by
  unfold rollbackObject at h
  split at h
  · rename_i hother
    cases h
    have hne : lock.owner ≠ .transaction transactionId := by simpa using hother
    exact ⟨rfl, rfl, rfl, fun m => by simp [hne]⟩
  rename_i hown
  have heq : lock.owner = .transaction transactionId := by simpa using hown
  simp only at h
  split at h
  · cases h
    refine ⟨rfl, rfl, rfl, fun m => ?_⟩
    simp only [LockManager.dropAfter, heq, true_and]
  · cases h

lemma rollbackObject_isSome {lock : ObjectLock} {m : TableLockMode} (hm : lock.modes m ≠ 0)
    (hkeep : lock.owner = .transaction transactionId → lock.modes m ≤ mark) :
    ∃ kept, (rollbackObject transactionId mark lock).1 = some kept := by
  unfold rollbackObject
  split
  · exact ⟨lock, rfl⟩
  rename_i hown
  have heq : lock.owner = .transaction transactionId := by simpa using hown
  have hany : (TableLockMode.all.any fun m => LockManager.dropAfter mark lock.modes m != 0) := by
    refine any_eq_true.mpr ⟨m, m.mem_all, ?_⟩
    simp only [LockManager.dropAfter, if_neg (not_lt.mpr (hkeep heq)), bne_iff_ne]
    exact hm
  simp only [hany]
  exact ⟨_, rfl⟩

/-- **A rollback drops the modes its transaction took after the mark**, and nothing else. -/
theorem heldSince_rollbackTable {o : ObjectLockOwner} {r : ObjectLockTarget} {m : TableLockMode}
    {n : ℕ} :
    HeldSince (table.sweep (rollbackObject transactionId mark)).1.items o r m n ↔
      HeldSince table.items o r m n ∧ (o = .transaction transactionId → n ≤ mark) := by
  constructor
  · rintro ⟨kept, hkept, rfl, rfl, hm, hn⟩
    obtain ⟨lock, hlock, hstep⟩ := FixedVec.mem_sweep.mp hkept
    obtain ⟨ho, -, hr, hmodes⟩ := rollbackObject_eq_some hstep
    rw [hmodes m] at hm
    by_cases hdrop : lock.owner = .transaction transactionId ∧ mark < lock.modes m
    · rw [if_pos hdrop] at hm
      exact absurd hm.symm hn
    · rw [if_neg hdrop] at hm
      refine ⟨⟨lock, hlock, ho.symm, hr.symm, hm, hn⟩, fun hown => ?_⟩
      exact not_lt.mp fun hlt => hdrop ⟨ho.symm.trans hown, hm ▸ hlt⟩
  · rintro ⟨⟨lock, hlock, rfl, rfl, hm, hn⟩, hmark⟩
    obtain ⟨kept, hstep⟩ := @rollbackObject_isSome transactionId mark lock m (hm ▸ hn)
      fun hown => hm ▸ hmark hown
    obtain ⟨ho, -, hr, hmodes⟩ := rollbackObject_eq_some hstep
    refine ⟨kept, FixedVec.mem_sweep.mpr ⟨lock, hlock, hstep⟩, ho, hr, ?_, hn⟩
    rw [hmodes m, if_neg, hm]
    rintro ⟨hown, hlt⟩
    have := hmark hown
    omega

end Rollback

end LockState

end Pos3ql
