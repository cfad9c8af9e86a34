import Pos3ql.SqlError
import Pos3ql.Foundation.Exclusion
import Pos3ql.Foundation.FixedVec
import Pos3ql.Foundation.WaitGraph

/-!
# Row locks and the wait-for graph

The registry of row locks, and the graph of who waits for whom, which row, object and advisory waits
share. A lock keeps for each of its modes the sequence number of the acquisition, zero when absent.
Source: `sql/lock.rs` (`LockManager`).

* `LockManager.Holds`: the abstract view, an owner holding a row in a strength; `grantRow_holds`,
  `acquire_holds` say what an acquisition does to it.
* `LockManager.WaitsFor`, `LockManager.WaitsSound`: one wait for each waiter, and no cycle.
* **`setWait_deadlock_iff`**, `setWait_sound`: a wait is refused for a deadlock exactly when it
  would close a cycle and there is room for it, and an admitted one closes none.
-/

namespace Pos3ql

open Foundation Relation List FixedVec

/-! ## Wait owners -/

/-- A backend, or a prepared transaction. Source: `WaitOwner`. -/
abbrev WaitOwner := UInt64

/-- Source: `PREPARED_OWNER_BIT`. -/
def preparedOwnerBit : WaitOwner := (1 : UInt64) <<< 63

/-- Source: `connection_wait_owner`. -/
def connectionWaitOwner (connectionId : Int32) : WaitOwner := connectionId.toUInt32.toUInt64

/-- Source: `prepared_wait_owner`. -/
def preparedWaitOwner (transactionId : UInt32) : WaitOwner :=
  preparedOwnerBit ||| transactionId.toUInt64

lemma connectionWaitOwner_injective : Function.Injective connectionWaitOwner := by
  rintro ⟨c⟩ ⟨d⟩ h
  exact congrArg Int32.ofUInt32 (UInt32.toUInt64_inj.mp h)

lemma preparedWaitOwner_toNat (t : UInt32) : (preparedWaitOwner t).toNat = 2 ^ 63 + t.toNat := by
  have hlt : t.toNat < 2 ^ 63 := t.toNat_lt.trans (by decide)
  have hbit : preparedOwnerBit.toNat = 2 ^ 63 * 1 := by decide
  rw [preparedWaitOwner, UInt64.toNat_or, hbit, UInt32.toNat_toUInt64,
    ← Nat.two_pow_add_eq_or_of_lt hlt, mul_one]

lemma preparedWaitOwner_injective : Function.Injective preparedWaitOwner := by
  intro t u h
  have hnat := congrArg UInt64.toNat h
  rw [preparedWaitOwner_toNat, preparedWaitOwner_toNat] at hnat
  exact UInt32.toNat_inj.mp (by omega)

lemma connectionWaitOwner_ne_prepared (c : Int32) (t : UInt32) :
    connectionWaitOwner c ≠ preparedWaitOwner t := by
  intro h
  have hnat := congrArg UInt64.toNat h
  rw [preparedWaitOwner_toNat, connectionWaitOwner, UInt32.toNat_toUInt64] at hnat
  have hlt := c.toUInt32.toNat_lt
  omega

/-! ## Locks, waits and their registry -/

/-- Source: `LockStrength`. -/
inductive LockStrength
  | update
  | noKeyUpdate
  | share
  | keyShare
  deriving DecidableEq, Repr

/-- The four strengths, in the order of their bits. -/
def LockStrength.all : List LockStrength := [.update, .noKeyUpdate, .share, .keyShare]

@[simp]
lemma LockStrength.mem_all (str : LockStrength) : str ∈ LockStrength.all := by
  cases str <;> simp [LockStrength.all]

/-- Source: `LockWait`. -/
inductive LockWait
  | wait
  | noWait
  | skipLocked
  deriving DecidableEq, Repr

/-- Source: `LockDecision`. -/
inductive LockDecision
  | acquired
  | skipped
  | waiting
  deriving DecidableEq, Repr

/-- Source: `RowLock`; `modes` holds the sequence number of each strength, zero when absent. -/
structure RowLock where
  table : UInt32
  rowid : ℕ
  owner : UInt32
  waitOwner : WaitOwner
  modes : LockStrength → ℕ

/-- Source: `WaitEdge`. -/
structure WaitEdge where
  waiter : WaitOwner
  blocker : WaitOwner
  deriving DecidableEq, Repr

/-- Source: `LockManager`. -/
structure LockManager where
  locks : FixedVec RowLock
  waits : FixedVec WaitEdge
  generation : ℕ

/-- Source: `pair_conflicts`. -/
def pairConflicts (left right : LockStrength) : Bool :=
  left == .update || right == .update ||
    match left, right with
    | .noKeyUpdate, .noKeyUpdate => true
    | .noKeyUpdate, .share => true
    | .share, .noKeyUpdate => true
    | _, _ => false

lemma pairConflicts_symm (left right : LockStrength) :
    pairConflicts left right = pairConflicts right left := by
  cases left <;> cases right <;> rfl

/-- The strengths held. Source: `modes_mask`, a set of bits. -/
def modesMask (modes : LockStrength → ℕ) (strength : LockStrength) : Bool := modes strength != 0

/-- Source: `conflicts`. -/
def strengthsConflict (left right : LockStrength → Bool) : Bool :=
  LockStrength.all.any fun l => left l && LockStrength.all.any fun r => right r && pairConflicts l r

lemma strengthsConflict_eq_false {left right : LockStrength → Bool} :
    strengthsConflict left right = false ↔
      ∀ l r, left l → right r → pairConflicts l r = false := by
  constructor
  · intro h l r hl hr
    simp only [strengthsConflict, any_eq_false, Bool.and_eq_true, any_eq_true] at h
    rw [← Bool.not_eq_true]
    exact fun hlr => h l l.mem_all ⟨hl, r, r.mem_all, hr, hlr⟩
  intro h
  simp only [strengthsConflict, any_eq_false, Bool.and_eq_true, any_eq_true]
  rintro l - ⟨hl, r, -, hr, hlr⟩
  rw [h l r hl hr] at hlr
  cases hlr

namespace LockManager

/-- Source: `LockManager::new`. -/
def new (lockCapacity connectionCapacity : ℕ) : LockManager :=
  ⟨.empty lockCapacity, .empty connectionCapacity, 1⟩

/-- The next generation, never zero. Source: `generation.wrapping_add(1).max(1)`. -/
def bump (m : LockManager) : LockManager :=
  { m with generation := max ((m.generation + 1) % 2 ^ 64) 1 }

/-- Source: `clear_wait`. -/
def clearWait (m : LockManager) (owner : WaitOwner) : LockManager :=
  { m with waits := m.waits.eraseFirst (·.waiter == owner) }

/-- Whom a node waits for. Source: the look-up of an edge in `set_wait`. -/
def nextBlocker (waits : List WaitEdge) (cursor : WaitOwner) : Option WaitOwner :=
  (waits.find? (·.waiter == cursor)).map WaitEdge.blocker

/-- Source: `set_wait`, the errors. -/
def waitGraphFull (capacity : ℕ) : SqlError :=
  ⟨.programLimitExceeded, s!"lock wait graph is full ({capacity} transactions)"⟩

/-- Source: `set_wait`, the errors. -/
def deadlockDetected : SqlError := ⟨.deadlockDetected, "deadlock detected"⟩

/-- Source: `set_wait`, the edge. -/
def registerWait (waits : FixedVec WaitEdge) (waiter blocker : WaitOwner) :
    Option (FixedVec WaitEdge) :=
  if waits.items.any (·.waiter == waiter) then
    some (waits.updateFirst (·.waiter == waiter) fun edge => { edge with blocker })
  else waits.push ⟨waiter, blocker⟩

/-- Source: `set_wait`. -/
def setWait (m : LockManager) (waiter blocker : WaitOwner) : LockManager × Except SqlError Unit :=
  match registerWait m.waits waiter blocker with
  | none => (m, .error (waitGraphFull m.waits.capacity))
  | some waits =>
    if walk (nextBlocker waits.items) waiter (waits.items.length + 1) blocker then
      (clearWait { m with waits } waiter, .error deadlockDetected)
    else ({ m with waits }, .ok ())

/-- Source: `wait_for`. -/
def waitFor (m : LockManager) (waiter blocker : WaitOwner) : LockManager × Except SqlError Unit :=
  m.setWait waiter blocker

/-- The lock of an owner on a row. Source: `acquire` (`own_index`). -/
def isOwn (table : UInt32) (rowid : ℕ) (owner : UInt32) (lock : RowLock) : Bool :=
  lock.table == table && lock.rowid == rowid && lock.owner == owner

/-- The strengths to hold after a grant. Source: `acquire` (`combined`). -/
def combined (m : LockManager) (table : UInt32) (rowid : ℕ) (owner : UInt32)
    (strength : LockStrength) (asked : LockStrength) : Bool :=
  asked == strength ||
    match m.locks.items.find? (isOwn table rowid owner) with
    | none => false
    | some lock => modesMask lock.modes asked

/-- A lock that stands in the way. Source: `acquire` (`blocker`). -/
def blocker (m : LockManager) (table : UInt32) (rowid : ℕ) (owner : UInt32)
    (strength : LockStrength) : Option RowLock :=
  m.locks.items.find? fun lock =>
    lock.table == table && lock.rowid == rowid && lock.owner != owner &&
      strengthsConflict (m.combined table rowid owner strength) (modesMask lock.modes)

/-- Source: `acquire`, the error. -/
def rowNotAvailable : SqlError := ⟨.lockNotAvailable, "could not obtain lock on row in relation"⟩

/-- Source: `acquire`, the error. -/
def rowRegistryFull (capacity : ℕ) : SqlError :=
  ⟨.programLimitExceeded, s!"row-lock registry is full ({capacity} locks)"⟩

/-- The grant itself. Source: `acquire`. -/
def grantRow (m : LockManager) (table : UInt32) (rowid : ℕ) (owner : UInt32) (waitOwner : WaitOwner)
    (strength : LockStrength) (sequence : ℕ) : LockManager × Except SqlError LockDecision :=
  if m.locks.items.any (isOwn table rowid owner) then
    ({ m with
        locks := m.locks.updateFirst (isOwn table rowid owner) fun lock =>
          { lock with
            modes := fun s =>
              if s = strength ∧ lock.modes s = 0 then sequence else lock.modes s } },
      .ok .acquired)
  else
    match m.locks.push
        ⟨table, rowid, owner, waitOwner, fun s => if s = strength then sequence else 0⟩ with
    | none => (m, .error (rowRegistryFull m.locks.capacity))
    | some locks => ({ m with locks }, .ok .acquired)

/-- Source: `acquire`; the slot of the table is cut to 32 bits. -/
def acquire (m : LockManager) (table rowid : ℕ) (owner : UInt32) (waitOwner : WaitOwner)
    (strength : LockStrength) (mode : LockWait) (sequence : ℕ) :
    LockManager × Except SqlError LockDecision :=
  match m.blocker (UInt32.ofNat table) rowid owner strength with
  | some lock =>
    match mode with
    | .skipLocked => (m, .ok .skipped)
    | .noWait => (m, .error rowNotAvailable)
    | .wait =>
      ((m.setWait waitOwner lock.waitOwner).1,
        (m.setWait waitOwner lock.waitOwner).2.map fun _ => .waiting)
  | none =>
    (m.clearWait waitOwner).grantRow (UInt32.ofNat table) rowid owner waitOwner strength sequence

/-- Remove the waits for an owner. Source: `resource_released`. -/
def resourceReleased (m : LockManager) (owner : WaitOwner) : LockManager :=
  let (waits, changed) := m.waits.removeAll (·.blocker == owner)
  if changed then bump { m with waits } else { m with waits }

/-- Source: `publication_finished`. -/
def publicationFinished (m : LockManager) (owner : WaitOwner) : LockManager :=
  if (m.resourceReleased owner).generation = m.generation then (m.resourceReleased owner).bump
  else m.resourceReleased owner

/-- Source: `release`. -/
def release (m : LockManager) (owner : UInt32) (waitOwner : WaitOwner) : LockManager :=
  let (locks, released) := m.locks.removeAll (·.owner == owner)
  let cleared := clearWait { m with locks } waitOwner
  let (waits, woken) := cleared.waits.removeAll (·.blocker == waitOwner)
  if released || woken then bump { cleared with waits } else { cleared with waits }

/-- Modes acquired after a mark are dropped. Source: `rollback_to`. -/
def dropAfter {μ : Type} (mark : ℕ) (modes : μ → ℕ) (mode : μ) : ℕ :=
  if mark < modes mode then 0 else modes mode

/-- What a rollback makes of a lock, and whether that is a change. Source: `rollback_to`. -/
def rollbackLock (owner : UInt32) (mark : ℕ) (lock : RowLock) : Option RowLock × Bool :=
  if lock.owner != owner then (some lock, false)
  else
    (if LockStrength.all.any (modesMask (dropAfter mark lock.modes)) then
        some { lock with modes := dropAfter mark lock.modes }
      else none,
      LockStrength.all.any fun s => decide (mark < lock.modes s))

/-- Source: `rollback_to`. -/
def rollbackTo (m : LockManager) (owner : UInt32) (waitOwner : WaitOwner) (mark : ℕ) :
    LockManager :=
  let (locks, changed) := m.locks.sweep (rollbackLock owner mark)
  let cleared := clearWait { m with locks } waitOwner
  if changed then
    bump { cleared with waits := (cleared.waits.removeAll (·.blocker == waitOwner)).1 }
  else cleared

/-- Source: `rebind_wait_owner`. -/
def rebindWaitOwner (m : LockManager) (source target : WaitOwner) : LockManager :=
  { m with
    locks := m.locks.updateWhere (·.waitOwner == source) fun lock =>
      { lock with waitOwner := target }
    waits := m.waits.updateWhere (fun _ => true) fun edge =>
      ⟨if edge.waiter = source then target else edge.waiter,
        if edge.blocker = source then target else edge.blocker⟩ }

/-! ## Who holds what -/

/-- An owner holds a row in a strength. -/
def Holds (m : LockManager) (owner : UInt32) (row : UInt32 × ℕ) (strength : LockStrength) : Prop :=
  ∃ lock ∈ m.locks.items, (lock.table, lock.rowid) = row ∧ lock.owner = owner ∧
    lock.modes strength ≠ 0

section Holdings

variable {m : LockManager} {owner : UInt32} {strength : LockStrength}

variable {table : UInt32} {rowid seq : ℕ} {waitOwner : WaitOwner} {lock : RowLock}

/-- No lock in the way: what is asked for, and what is already held, conflicts with nothing that
others hold. -/
lemma blocker_eq_none (h : m.blocker table rowid owner strength = none)
    {other : UInt32} (hne : owner ≠ other) {held : LockStrength}
    (hheld : m.Holds other (table, rowid) held) : pairConflicts strength held = false := by
  obtain ⟨lock, hlock, hrow, rfl, hmode⟩ := hheld
  cases hrow
  have hfree := find?_eq_none.mp h lock hlock
  have hconflict : strengthsConflict (m.combined lock.table lock.rowid owner strength)
      (modesMask lock.modes) = false := by
    simpa [Ne.symm hne] using hfree
  refine strengthsConflict_eq_false.mp hconflict strength held ?_ ?_
  · simp [combined]
  · simp [modesMask, hmode]

/-- A grant changes the registry, or there is no room in it. -/
lemma grantRow_cases (m : LockManager) (table : UInt32) (rowid : ℕ) (owner : UInt32)
    (waitOwner : WaitOwner) (strength : LockStrength) (seq : ℕ) :
    let granted := m.locks.upsert (isOwn table rowid owner) (fun lock => { lock with
        modes := fun s => if s = strength ∧ lock.modes s = 0 then seq else lock.modes s })
      ⟨table, rowid, owner, waitOwner, fun s => if s = strength then seq else 0⟩
    let after := m.grantRow table rowid owner waitOwner strength seq
    granted = none ∧ after = (m, .error (rowRegistryFull m.locks.capacity)) ∨
      ∃ locks, granted = some locks ∧ after = ({ m with locks }, .ok .acquired) := by
  unfold grantRow upsert
  split
  · exact .inr ⟨_, rfl, rfl⟩
  · split <;> rename_i hpush
    · exact .inl ⟨hpush, rfl⟩
    · exact .inr ⟨_, hpush, rfl⟩

lemma mem_grantRow
    (h : lock ∈ (m.grantRow table rowid owner waitOwner strength seq).1.locks.items) :
    lock ∈ m.locks.items ∨ (∃ own ∈ m.locks.items, isOwn table rowid owner own ∧ lock = { own with
          modes := fun s => if s = strength ∧ own.modes s = 0 then seq else own.modes s }) ∨
      lock = ⟨table, rowid, owner, waitOwner, fun s => if s = strength then seq else 0⟩ := by
  rcases m.grantRow_cases table rowid owner waitOwner strength seq with
      ⟨-, hsame⟩ | ⟨locks, hup, hsame⟩
  · rw [hsame] at h
    exact .inl h
  · rw [hsame] at h
    exact mem_upsert hup h

lemma grantRow_holds {o : UInt32} {row : UInt32 × ℕ} {s : LockStrength}
    (h : (m.grantRow table rowid owner waitOwner strength seq).1.Holds o row s) :
    m.Holds o row s ∨ o = owner ∧ row = (table, rowid) ∧ s = strength := by
  obtain ⟨lock, hlock, hrow, ho, hmode⟩ := h
  by_cases hs : s = strength
  · rcases mem_grantRow hlock with hold | ⟨own, -, hown, rfl⟩ | rfl
    · exact .inl ⟨lock, hold, hrow, ho, hmode⟩
    · simp only [isOwn, Bool.and_eq_true, beq_iff_eq] at hown
      obtain ⟨⟨rfl, rfl⟩, rfl⟩ := hown
      exact .inr ⟨ho.symm, hrow.symm, hs⟩
    · exact .inr ⟨ho.symm, hrow.symm, hs⟩
  · rcases mem_grantRow hlock with hold | ⟨own, hold, -, rfl⟩ | rfl
    · exact .inl ⟨lock, hold, hrow, ho, hmode⟩
    · exact .inl ⟨own, hold, hrow, ho, by simpa [hs] using hmode⟩
    · simp [hs] at hmode

lemma setWait_locks (waiter blocker : WaitOwner) :
    (m.setWait waiter blocker).1.locks = m.locks := by
  unfold setWait
  split
  · rfl
  · split <;> rfl

/-- **An acquisition adds what was asked for, or nothing**, and only when nothing is in the way. -/
theorem acquire_holds {table : ℕ} {mode : LockWait}
    {o : UInt32} {row : UInt32 × ℕ} {s : LockStrength}
    (h : (m.acquire table rowid owner waitOwner strength mode seq).1.Holds o row s) :
    m.Holds o row s ∨ (o = owner ∧ row = (UInt32.ofNat table, rowid) ∧ s = strength) ∧
      m.blocker (UInt32.ofNat table) rowid owner strength = none := by
  unfold acquire at h
  rcases hb : m.blocker (UInt32.ofNat table) rowid owner strength with _ | lock
  · simp only [hb] at h
    rcases grantRow_holds h with h | h
    · exact .inl h
    · exact .inr ⟨h, rfl⟩
  simp only [hb] at h
  cases mode with
  | wait =>
    left
    simp only [Holds, setWait_locks] at h
    exact h
  | noWait => exact .inl h
  | skipLocked => exact .inl h

/-- The locks after an acquisition stand under the wait owners from before, or under that of the
request. -/
lemma mem_acquire {table : ℕ} {mode : LockWait}
    (h : lock ∈ (m.acquire table rowid owner waitOwner strength mode seq).1.locks.items) :
    (∃ was ∈ m.locks.items, lock.owner = was.owner ∧ lock.waitOwner = was.waitOwner) ∨
      lock.owner = owner ∧ lock.waitOwner = waitOwner := by
  unfold acquire at h
  rcases hb : m.blocker (UInt32.ofNat table) rowid owner strength with _ | found
  · simp only [hb] at h
    rcases @mem_grantRow (m.clearWait waitOwner) _ _ _ _ _ _ _ h with
        hold | ⟨own, hown, -, rfl⟩ | rfl
    · exact .inl ⟨lock, hold, rfl, rfl⟩
    · exact .inl ⟨own, hown, rfl, rfl⟩
    · exact .inr ⟨rfl, rfl⟩
  simp only [hb] at h
  cases mode with
  | wait =>
    simp only [setWait_locks] at h
    exact .inl ⟨lock, h, rfl, rfl⟩
  | noWait | skipLocked => exact .inl ⟨lock, h, rfl, rfl⟩

lemma release_locks (wo : WaitOwner) :
    (m.release owner wo).locks = (m.locks.removeAll (·.owner == owner)).1 := by
  unfold release
  simp only
  split <;> rfl

lemma rollbackTo_locks (wo : WaitOwner) (mark : ℕ) :
    (m.rollbackTo owner wo mark).locks = (m.locks.sweep (rollbackLock owner mark)).1 := by
  unfold rollbackTo
  simp only
  split <;> rfl

lemma resourceReleased_locks (wo : WaitOwner) : (m.resourceReleased wo).locks = m.locks := by
  unfold resourceReleased
  simp only
  split <;> rfl

lemma publicationFinished_locks (wo : WaitOwner) : (m.publicationFinished wo).locks = m.locks := by
  unfold publicationFinished
  split
  · exact resourceReleased_locks wo
  · exact resourceReleased_locks wo

/-- The locks a rollback leaves are locks from before, with the same owner and fewer modes. -/
lemma rollbackLock_eq_some {mark : ℕ} {kept : RowLock}
    (h : (rollbackLock owner mark lock).1 = some kept) :
    kept.table = lock.table ∧ kept.rowid = lock.rowid ∧ kept.owner = lock.owner ∧
      kept.waitOwner = lock.waitOwner ∧ ∀ s, kept.modes s ≠ 0 → lock.modes s ≠ 0 := by
  unfold rollbackLock at h
  split at h
  · cases h
    exact ⟨rfl, rfl, rfl, rfl, fun s hs => hs⟩
  split at h
  · cases h
    refine ⟨rfl, rfl, rfl, rfl, fun s hs => ?_⟩
    simp only [dropAfter] at hs
    split at hs
    · exact absurd rfl hs
    · exact hs
  · cases h

end Holdings

/-! ## Waits -/

/-- One node waits for another. -/
def WaitsFor (m : LockManager) (waiter blocker : WaitOwner) : Prop :=
  ⟨waiter, blocker⟩ ∈ m.waits.items

/-- **Every waiter waits for one node, and no node waits for itself through others.** -/
structure WaitsSound (m : LockManager) : Prop where
  single : m.waits.items.Pairwise fun a b => a.waiter ≠ b.waiter
  acyclic : Acyclic m.WaitsFor

/-- A new wait has a place: the waiter waits already, or the graph is not full. -/
def HasRoom (m : LockManager) (waiter : WaitOwner) : Prop :=
  (∃ blocker, m.WaitsFor waiter blocker) ∨ m.waits.items.length < m.waits.capacity

lemma any_waiter_iff {m : LockManager} {waiter : WaitOwner} :
    m.waits.items.any (·.waiter == waiter) ↔ ∃ blocker, m.WaitsFor waiter blocker := by
  simp only [any_eq_true, beq_iff_eq]
  constructor
  · rintro ⟨edge, hedge, rfl⟩
    exact ⟨edge.blocker, hedge⟩
  · rintro ⟨blocker, hedge⟩
    exact ⟨_, hedge, rfl⟩

section Graph

variable {m m' : LockManager}

lemma waiter_unique {waits : List WaitEdge} (h : waits.Pairwise fun a b => a.waiter ≠ b.waiter)
    (waiter : WaitOwner) :
    waits.Pairwise fun a b => ¬((a.waiter == waiter) ∧ (b.waiter == waiter)) := by
  refine h.imp fun {a b} hab hboth => hab ?_
  simp only [beq_iff_eq] at hboth
  exact hboth.1.trans hboth.2.symm

lemma single_of_subperm {waits waits' : List WaitEdge}
    (h : waits.Pairwise fun a b => a.waiter ≠ b.waiter) (hsub : waits'.Subperm waits) :
    waits'.Pairwise fun a b => a.waiter ≠ b.waiter := by
  obtain ⟨kept, hperm, hkept⟩ := hsub
  exact (hperm.pairwise_iff fun {a b} hab => Ne.symm hab).mp (h.sublist hkept)

lemma WaitsSound.of_subperm (h : m.WaitsSound) (hsub : m'.waits.items.Subperm m.waits.items) :
    m'.WaitsSound :=
  ⟨single_of_subperm h.single hsub, h.acyclic.mono fun _ _ hxy => hsub.subset hxy⟩

lemma waitsFor_iff_nextBlocker (h : m.waits.items.Pairwise fun a b => a.waiter ≠ b.waiter)
    {x y : WaitOwner} :
    nextBlocker m.waits.items x = some y ↔ m.WaitsFor x y := by
  simp only [nextBlocker, Option.map_eq_some_iff]
  constructor
  · rintro ⟨edge, hfound, rfl⟩
    have hx : edge.waiter = x := by simpa using find?_some hfound
    subst hx
    exact mem_of_find?_eq_some hfound
  intro hxy
  rcases hfound : m.waits.items.find? (·.waiter == x) with _ | edge
  · exact absurd (find?_eq_none.mp hfound _ hxy) (by simp)
  -- two edges of one waiter are one edge
  have hx : edge.waiter = x := by simpa using find?_some hfound
  refine ⟨edge, hfound, ?_⟩
  by_contra hne
  have hdiff : edge ≠ ⟨x, y⟩ := fun heq => hne (congrArg WaitEdge.blocker heq)
  have : Std.Symm fun a b : WaitEdge => a.waiter ≠ b.waiter := ⟨fun _ _ hab => Ne.symm hab⟩
  exact h.forall (mem_of_find?_eq_some hfound) hxy hdiff hx

variable {waiter blocker : WaitOwner}

/-- A registered wait replaces the waiter's own, and leaves one for each waiter. -/
lemma registerWait_spec (h : m.waits.items.Pairwise fun a b => a.waiter ≠ b.waiter)
    {waits : FixedVec WaitEdge}
    (hreg : registerWait m.waits waiter blocker = some waits) :
    (waits.items.Pairwise fun a b => a.waiter ≠ b.waiter) ∧
      ∀ x y, (⟨x, y⟩ : WaitEdge) ∈ waits.items ↔ Adding m.WaitsFor waiter blocker x y := by
  have hup := hreg
  obtain ⟨-, hsingle, hmem⟩ :=
    upsert_spec hup (fun _ _ => beq_iff_eq) (fun _ => rfl) (pairwise_map.mpr h)
  refine ⟨pairwise_map.mp hsingle, fun x y => (hmem _).trans ⟨?_, ?_⟩⟩
  · rintro (⟨hold, hne⟩ | ⟨old, -, hsame, heq⟩ | ⟨-, heq⟩)
    · exact .inr ⟨hne, hold⟩
    · cases heq
      exact .inl ⟨hsame, rfl⟩
    · cases heq
      exact .inl ⟨rfl, rfl⟩
  rintro (⟨rfl, rfl⟩ | ⟨hx, hxy⟩)
  · by_cases hpres : x ∈ m.waits.items.map WaitEdge.waiter
    · obtain ⟨old, hold, rfl⟩ := mem_map.mp hpres
      exact .inr (.inl ⟨old, hold, rfl, rfl⟩)
    · exact .inr (.inr ⟨hpres, rfl⟩)
  · exact .inl ⟨hxy, hx⟩

lemma registerWait_eq_none_iff :
    registerWait m.waits waiter blocker = none ↔ ¬m.HasRoom waiter := by
  unfold registerWait HasRoom
  rw [← any_waiter_iff]
  split
  · simp_all
  · rw [push_eq_none_iff]
    simp_all

lemma walk_registered (h : m.WaitsSound) {waits : FixedVec WaitEdge}
    (hreg : registerWait m.waits waiter blocker = some waits) :
    walk (nextBlocker waits.items) waiter (waits.items.length + 1) blocker ↔
      ¬Acyclic (Adding m.WaitsFor waiter blocker) := by
  obtain ⟨hsingle, hmem⟩ := registerWait_spec h.single hreg
  have hgraph : (fun x y => nextBlocker waits.items x = some y) =
      Adding m.WaitsFor waiter blocker := by
    funext x y
    exact propext ((waitsFor_iff_nextBlocker (m := { m with waits }) hsingle).trans (hmem x y))
  have hothers : Acyclic (Others (fun x y => nextBlocker waits.items x = some y) waiter) := by
    rw [hgraph]
    refine h.acyclic.mono fun x y hxy => ?_
    rcases hxy with ⟨hx, heq | hold⟩
    · exact absurd heq.1 hx
    · exact hold.2
  have hwaiters : ∀ x, (nextBlocker waits.items x).isSome →
      x ∈ waits.items.map WaitEdge.waiter := by
    intro x hx
    obtain ⟨y, hy⟩ := Option.isSome_iff_exists.mp hx
    exact mem_map.mpr
      ⟨⟨x, y⟩, (waitsFor_iff_nextBlocker (m := { m with waits }) hsingle).mp hy, rfl⟩
  rw [walk_eq_true_iff hwaiters hothers (by simp), hgraph, acyclic_adding_iff h.acyclic, not_not]

/-- **A wait is refused for a deadlock exactly when it has a place and would close a cycle.** -/
theorem setWait_deadlock_iff (h : m.WaitsSound) :
    (m.setWait waiter blocker).2 = .error deadlockDetected ↔
      m.HasRoom waiter ∧ ¬Acyclic (Adding m.WaitsFor waiter blocker) := by
  rcases hreg : registerWait m.waits waiter blocker with _ | waits
  · have hfull := registerWait_eq_none_iff.mp hreg
    simp only [setWait, hreg]
    constructor
    · intro heq
      exact absurd (congrArg SqlError.state (Except.error.inj heq))
        (by simp [waitGraphFull, deadlockDetected])
    · intro hroom
      exact absurd hroom.1 hfull
  have hroom : m.HasRoom waiter := by
    by_contra hfull
    rw [registerWait_eq_none_iff.mpr hfull] at hreg
    cases hreg
  rw [← walk_registered h hreg]
  simp only [setWait, hreg]
  split
  · simp_all
  · simp_all

/-- An admitted wait, and a refused one, leave the graph sound. -/
lemma setWait_sound (h : m.WaitsSound) (waiter blocker : WaitOwner) :
    (m.setWait waiter blocker).1.WaitsSound := by
  rcases hreg : registerWait m.waits waiter blocker with _ | waits
  · simpa only [setWait, hreg] using h
  obtain ⟨hsingle, hmem⟩ := registerWait_spec h.single hreg
  simp only [setWait, hreg]
  split
  · rename_i hwalk
    -- the walk came back: what is left are the waits of everybody else
    have hone := waiter_unique hsingle waiter
    refine ⟨?_, h.acyclic.mono fun x y hxy => ?_⟩
    · exact single_of_subperm hsingle (eraseFirst_subperm waits _)
    have hx : x ≠ waiter := by
      simpa using eraseFirst_clears hone hxy
    rcases (hmem x y).mp (mem_of_mem_eraseFirst hxy) with heq | hold
    · exact absurd heq.1 hx
    · exact hold.2
  · rename_i hwalk
    have hacyc := not_not.mp (mt (walk_registered h hreg).mpr hwalk)
    exact ⟨hsingle, hacyc.mono fun x y hxy => (hmem x y).mp hxy⟩

lemma setWait_waitsFor (h : m.WaitsSound) {x y : WaitOwner}
    (hxy : (m.setWait waiter blocker).1.WaitsFor x y) :
    m.WaitsFor x y ∨ x = waiter ∧ y = blocker := by
  rcases hreg : registerWait m.waits waiter blocker with _ | waits
  · left
    simpa only [setWait, hreg] using hxy
  have hmem : (⟨x, y⟩ : WaitEdge) ∈ waits.items := by
    simp only [setWait, hreg] at hxy
    split at hxy
    · exact mem_of_mem_eraseFirst hxy
    · exact hxy
  rcases ((registerWait_spec h.single hreg).2 x y).mp hmem with heq | hold
  · exact .inr heq
  · exact .inl hold.2

lemma clearWait_waits (owner : WaitOwner) : (m.clearWait owner).waits.items.Subperm m.waits.items :=
  eraseFirst_subperm m.waits _

lemma resourceReleased_waits (owner : WaitOwner) :
    (m.resourceReleased owner).waits = (m.waits.removeAll (·.blocker == owner)).1 := by
  unfold resourceReleased
  simp only
  split <;> rfl

lemma resourceReleased_subperm (owner : WaitOwner) :
    (m.resourceReleased owner).waits.items.Subperm m.waits.items := by
  rw [resourceReleased_waits]
  exact removeAll_subperm m.waits _

lemma publicationFinished_waits (owner : WaitOwner) :
    (m.publicationFinished owner).waits.items.Subperm m.waits.items := by
  unfold publicationFinished
  split
  · exact resourceReleased_subperm owner
  · exact resourceReleased_subperm owner

lemma release_waits (owner : UInt32) (wo : WaitOwner) :
    (m.release owner wo).waits.items.Subperm m.waits.items := by
  unfold release
  simp only
  split
  · exact (removeAll_subperm _ _).trans (clearWait_waits wo)
  · exact (removeAll_subperm _ _).trans (clearWait_waits wo)

lemma rollbackTo_waits (owner : UInt32) (wo : WaitOwner) (mark : ℕ) :
    (m.rollbackTo owner wo mark).waits.items.Subperm m.waits.items := by
  unfold rollbackTo
  simp only
  split
  · exact (removeAll_subperm _ _).trans (clearWait_waits wo)
  · exact clearWait_waits wo

lemma grantRow_waits (table : UInt32) (rowid : ℕ) (owner : UInt32) (wo : WaitOwner)
    (str : LockStrength) (seq : ℕ) :
    (m.grantRow table rowid owner wo str seq).1.waits = m.waits := by
  rcases m.grantRow_cases table rowid owner wo str seq with ⟨-, h⟩ | ⟨locks, -, h⟩ <;> rw [h]

/-- An acquisition removes waits, or registers one for the owner of a lock. -/
lemma acquire_waits (table rowid : ℕ) (owner : UInt32) (wo : WaitOwner)
    (str : LockStrength) (mode : LockWait) (seq : ℕ) :
    (m.acquire table rowid owner wo str mode seq).1.waits.items.Subperm m.waits.items ∨
      ∃ lock ∈ m.locks.items, (m.acquire table rowid owner wo str mode seq).1 =
        (m.setWait wo lock.waitOwner).1 := by
  unfold acquire
  rcases hb : m.blocker (UInt32.ofNat table) rowid owner str with _ | lock
  · simp only [grantRow_waits]
    exact .inl (clearWait_waits wo)
  · cases mode with
    | wait => exact .inr ⟨lock, mem_of_find?_eq_some hb, rfl⟩
    | noWait | skipLocked => exact .inl (.refl _)

lemma rebindWaitOwner_sound (h : m.WaitsSound) {source target : WaitOwner}
    (hfresh : ∀ x y, m.WaitsFor x y → x ≠ target ∧ y ≠ target) :
    (m.rebindWaitOwner source target).WaitsSound := by
  have hinj : Set.InjOn (fun x => if x = source then target else x) {x | x ≠ target} := by
    intro x hx y hy hxy
    simp only at hxy
    split at hxy <;> split at hxy <;> simp_all
  constructor
  · simp only [rebindWaitOwner, updateWhere, if_true, pairwise_map]
    refine h.single.imp_of_mem fun {a b} ha hb hab heq => hab ?_
    exact hinj (hfresh _ _ ha).1 (hfresh _ _ hb).1 heq
  refine (h.acyclic.map hfresh hinj).mono fun x y hxy => ?_
  simp only [WaitsFor, rebindWaitOwner, updateWhere, mem_map] at hxy
  obtain ⟨edge, hedge, heq⟩ := hxy
  cases heq
  exact ⟨edge.waiter, edge.blocker, hedge, rfl, rfl⟩

end Graph

end LockManager

end Pos3ql
