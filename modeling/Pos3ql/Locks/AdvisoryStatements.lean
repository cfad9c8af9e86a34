import Pos3ql.Locks.Invariants

/-!
# The advisory calls of a statement

A statement's advisory calls are recorded, so that a parked statement can be executed again from its
start. The record is made after the locks have changed, into a table of its own.

* `LockCall.answer`: what an advisory call returns.
* `LockCall.Unrecorded`: the call changes a lock and finds the table of records full.
* **`advisory_failure_atomic_iff`**: a failed call leaves every lock and count as it was exactly
  when it is not one of those; `unrecorded_unlock_takes_effect` is a run with one.
-/

namespace Pos3ql

open Foundation List AdvisoryLockManager

/-- What an advisory call returns; nothing when the caller is to wait. -/
def LockCall.answer : LockCall → LockSystem → Except SqlError (Option Bool)
  | lockAdvisory c t key mode transactionScope tryOnly, s =>
    (s.acquireAdvisoryLock c t key mode transactionScope tryOnly).2.map fun
      | .acquired => some true
      | .unavailable => some false
      | .waiting => none
  | unlockAdvisory c key mode, s => (s.unlockAdvisorySession c key mode).2.map some
  | unlockAllAdvisory c, s => (s.unlockAllAdvisorySession c).2.map fun _ => some true
  | _, _ => .ok none

/-! ## Calls that fail -/

/-- **A call that changes a lock and cannot be recorded.** -/
def LockCall.Unrecorded : LockCall → LockSystem → Prop
  | lockAdvisory c _ key mode transactionScope _, s =>
    s.locks.advisory.RecordsFull c ∧ s.locks.advisory.Past c ∧ transactionScope = false ∧ 0 < c ∧
      s.locks.sequence + 1 < 2 ^ 64 ∧ s.locks.advisory.HasRoom key (.session c) mode ∧
      s.locks.advisory.blocker key (connectionWaitOwner c) mode = none
  | unlockAdvisory c key mode, s =>
    s.locks.advisory.RecordsFull c ∧ s.locks.advisory.Past c ∧
      ∃ lock ∈ s.locks.advisory.locks.items, isOwn key (.session c) mode lock = true
  | unlockAllAdvisory c, s =>
    s.locks.advisory.RecordsFull c ∧ s.locks.advisory.Past c ∧
      ∃ lock ∈ s.locks.advisory.locks.items, lock.owner = .session c
  | _, _ => False

/-- What a failed call is to keep: every lock, with its holder and count. -/
def LockCall.KeepsLocks (call : LockCall) (s : LockSystem) : Prop :=
  (∃ e, call.answer s = .error e) →
    (call.run s).locks.advisory.locks.items.Perm s.locks.advisory.locks.items

/-- A call that has changed the locks, and fails when there is no room for its record. -/
lemma changed_iff {fails keeps full made : Prop} (hfails : fails ↔ full) (hmade : made)
    (hchanged : ¬ keeps) : (fails → keeps) ↔ ¬ (full ∧ made) := by
  rw [hfails]
  exact ⟨fun h hfull => hchanged (h hfull.1), fun h hfull => absurd ⟨hfull, hmade⟩ h⟩

section

variable {m : AdvisoryLockManager} {c : Int32} {key : AdvisoryKey} {mode : AdvisoryMode}

/-- A grant changes the locks: one is counted once more, or there is one more. -/
lemma not_perm_grantedLocks {w : WaitOwner} {seq : ℕ} {locks : FixedVec AdvisoryLock}
    (h : m.grantedLocks key (.session c) w mode seq = some locks) :
    ¬ locks.items.Perm m.locks.items := by
  unfold grantedLocks at h
  split at h
  · rename_i lock hlock
    split at h
    · cases h
    · cases h
      exact FixedVec.not_perm_modifyFirst AdvisoryLock.count hlock (Nat.succ_ne_self lock.count)
  · intro hperm
    have hlen := hperm.length_eq
    simp [FixedVec.push_items h] at hlen

lemma not_perm_unlockedLocks {own : AdvisoryLock → Bool} {lock : AdvisoryLock}
    (h : m.locks.items.find? own = some lock) :
    ¬ (m.unlockedLocks own lock).items.Perm m.locks.items := by
  unfold unlockedLocks
  split
  · exact FixedVec.not_perm_modifyFirst AdvisoryLock.count h (by dsimp only; omega)
  rcases FixedVec.eraseFirst_perm m.locks own with ⟨hnone, -⟩ | ⟨pre, a, rest, hsplit, -, hperm⟩
  · simpa [hnone lock (mem_of_find?_eq_some h)] using find?_some h
  · intro hsame
    have hlen := (hperm.symm.trans hsame).length_eq
    simp [hsplit] at hlen

lemma removeAll_perm_iff :
    (m.locks.removeAll (·.owner == .session c)).1.items.Perm m.locks.items ↔
      ¬ ∃ lock ∈ m.locks.items, lock.owner = .session c := by
  rw [(FixedVec.removeAll_perm m.locks _).congr_left]
  constructor
  · rintro hsame ⟨lock, hlock, howner⟩
    have := hsame.mem_iff.mpr hlock
    simp [howner] at this
  intro hnone
  rw [filter_eq_self.mpr]
  intro lock hlock
  simpa using fun howner => hnone ⟨lock, hlock, howner⟩

end

/-- **A failed advisory call leaves every lock and count as it was exactly when it is not one that
changed a lock before its record found no room.** -/
theorem advisory_failure_atomic_iff (call : LockCall) (s : LockSystem) :
    call.KeepsLocks s ↔ ¬ call.Unrecorded s := by
  cases call with
  | lockAdvisory c t key mode transactionScope tryOnly =>
    simp only [LockCall.KeepsLocks, LockCall.Unrecorded, LockCall.answer, LockCall.run,
      LockSystem.acquireAdvisoryLock, LockState.nextSequence, exists_map_eq_error]
    by_cases hc : c ≤ 0
    · rw [if_pos hc]
      exact iff_of_true (fun _ => .refl _) fun h => Int32.not_lt.mpr hc h.2.2.2.1
    by_cases hseq : s.locks.sequence + 1 < 2 ^ 64
    · rw [if_neg hc, if_pos hseq]
      dsimp only
      rcases @acquire_cases s.locks.advisory s.locks.row
          (if transactionScope then .transaction t else .session c) (connectionWaitOwner c) key mode
          tryOnly (s.locks.sequence + 1) with ⟨hlocks, hnot, -⟩ | ⟨locks, hrep, hb, hlocks, hafter⟩
      · refine iff_of_true (fun _ => by rw [hlocks]) ?_
        rintro ⟨-, hpast, rfl, -, -, hroom, hb⟩
        exact hnot ⟨replay_past hpast _, hb, hroom⟩
      cases transactionScope with
      | true =>
        -- nothing is recorded for a transaction, so its grant does not fail
        rw [hafter]
        simp [noted]
      | false =>
        have hroom := not_not.mp (grantedLocks_eq_none.not.mp (by rw [hlocks]; simp))
        rw [hafter, (noted_eq _ _ _).1]
        refine changed_iff ?_ ⟨(replay_none hrep).2, rfl, Int32.not_le.mp hc, hseq, hroom, hb⟩
          (not_perm_grantedLocks hlocks)
        exact exists_map_eq_error.trans recordReplay_fails_iff
    · rw [if_neg hc, if_neg hseq]
      exact iff_of_true (fun _ => .refl _) fun h => hseq h.2.2.2.2.1
  | unlockAdvisory c key mode =>
    simp only [LockCall.KeepsLocks, LockCall.Unrecorded, LockCall.answer, LockCall.run,
      LockSystem.unlockAdvisorySession, exists_map_eq_error]
    rcases (@unlockSession_cases s.locks.advisory s.locks.row key mode c).2 with
      ⟨hlocks, hnot⟩ | ⟨lock, hpast, hfound, hlocks, hfails⟩
    · exact iff_of_true (fun _ => by rw [hlocks]) fun h => hnot h.2
    · rw [hlocks]
      exact changed_iff hfails ⟨hpast, lock, mem_of_find?_eq_some hfound, find?_some hfound⟩
        (not_perm_unlockedLocks hfound)
  | unlockAllAdvisory c =>
    simp only [LockCall.KeepsLocks, LockCall.Unrecorded, LockCall.answer, LockCall.run,
      LockSystem.unlockAllAdvisorySession, exists_map_eq_error]
    rcases (@unlockAllSession_cases s.locks.advisory s.locks.row c).2 with
      ⟨hlocks, hnot⟩ | ⟨hpast, hlocks, hfails⟩
    · exact iff_of_true (fun _ => by rw [hlocks]) fun h => hnot h.2.1
    · rw [hlocks, hfails, removeAll_perm_iff, not_and]
      exact forall_congr' fun _ => not_congr (and_iff_right hpast).symm
  | _ => simp [LockCall.KeepsLocks, LockCall.Unrecorded, LockCall.answer]

/-- A session locks a key in a statement with room for one record, and unlocks it: the call fails,
and the lock is gone. -/
theorem unrecorded_unlock_takes_effect :
    let key : AdvisoryKey := ⟨0, 7, 1⟩
    let s := LockSystem.runAll [.beginStatement 1, .lockAdvisory 1 1 key .exclusive false false]
      (.new ⟨1, 1, 1, 1, 1⟩ .mvcc)
    s.Reachable ∧ s.locks.advisory.locks.items.length = 1 ∧
      (∃ e, (LockCall.unlockAdvisory 1 key .exclusive).answer s = .error e) ∧
      ((LockCall.unlockAdvisory 1 key .exclusive).run s).locks.advisory.locks.items = [] :=
  ⟨⟨⟨1, 1, 1, 1, 1⟩, _, _, by decide +kernel, rfl⟩, by decide +kernel, ⟨_, rfl⟩, by decide +kernel⟩

end Pos3ql
