import Pos3ql.Locks.Invariants

/-!
# Transactions never hold conflicting locks

Whatever the interleaving of acquisitions, releases, rollbacks to savepoints, waits, preparations
and ends of transactions, two transactions never hold modes of one relation, or strengths of one
row, that conflict. The row registry compares transactions when it looks for a blocker; the relation
registry compares wait owners, which tell live transactions apart.

* `LockState.excludes_lockObjectOwned`, `LockManager.excludes_acquire`: a grant keeps exclusion.
* **`conflicting_modes_excluded`**: no conflicting modes in any state reached.
-/

namespace Pos3ql

open Foundation Relation LockManager LockState

/-! ## Relations -/

/-- Owners that are different transactions. -/
def DifferentTransactions (a b : ObjectLockOwner) : Prop :=
  ∃ t u, a = .transaction t ∧ b = .transaction u ∧ t ≠ u

/-- Relation locks of owners that are apart do not conflict. -/
def LockState.ModesExclude (apart : ObjectLockOwner → ObjectLockOwner → Prop) (locks : LockState) :
    Prop :=
  Excludes apart (fun m m' => modeConflicts m m' = true) locks.Holds

/-- Row locks of different transactions do not conflict. -/
def LockManager.StrengthsExclude (m : LockManager) : Prop :=
  Excludes (fun t u : UInt32 => t ≠ u) (fun st st' => pairConflicts st st' = true) m.Holds

namespace LockState

variable {locks after : LockState} {apart : ObjectLockOwner → ObjectLockOwner → Prop}

lemma Shrinks.holds (h : Shrinks locks after) {owner : ObjectLockOwner}
    {rel : ObjectLockTarget} {mode : TableLockMode} (hholds : after.Holds owner rel mode) :
    locks.Holds owner rel mode := by
  obtain ⟨n, kept, hkept, rfl, rfl, hm, hn⟩ := hholds
  obtain ⟨lock, hlock, ho, -, hr, hmodes⟩ := h.table kept hkept
  rcases hmodes mode with hzero | hsame
  · exact absurd (hm.symm.trans hzero) hn
  · exact ⟨n, lock, hlock, ho.symm, hr.symm, hsame.symm.trans hm, hn⟩

/-- **A request keeps relations exclusive** between owners that are apart and have different wait
owners. -/
theorem excludes_lockObjectOwned {tm : TransactionMode} {owner : ObjectLockOwner}
    {wo : WaitOwner} {rel : ObjectLockTarget} {mode : TableLockMode} {nowait : Bool}
    (hone : OneEach locks.table.items) (hsymm : ∀ a b, apart a b → apart b a)
    (hself : ¬apart owner owner)
    (hapart : ∀ lock ∈ locks.table.items, apart owner lock.owner → lock.waitOwner ≠ wo)
    (hx : locks.ModesExclude apart) :
    (locks.lockObjectOwned tm owner wo rel mode nowait).1.ModesExclude
      apart := by
  rcases @lockObjectOwned_cases locks tm owner wo rel mode nowait with
    h | ⟨lock, -, h⟩ | h | ⟨table, h, -, hgrant, hfree, -⟩
  · rwa [h]
  · rw [h]
    exact hx
  · rw [h]
    exact hx
  rw [h]
  refine hx.grant (fun m m' hm => (modeConflicts_symm m' m).trans hm) hsymm owner rel
    (fun m => m = mode ∨ m = protection tm owner rel mode) hself ?_ ?_
  · rintro o r m ⟨n, hheld⟩
    rcases (heldSince_grantTable hone (by omega) hgrant).mp hheld with
      ⟨hnew, -⟩ | ⟨-, hold⟩
    · exact .inr hnew
    · exact .inl ⟨n, hold⟩
  · rintro o m m' hne ⟨n, lock, hlock, rfl, hr, hm, hn⟩ hasked
    rw [Bool.not_eq_true]
    exact objectBlocker_eq_none hfree hlock (hapart lock hlock hne) hr hasked (hm ▸ hn)

end LockState

/-! ## Rows -/

namespace LockManager

variable {m : LockManager}

/-- **An acquisition keeps rows exclusive.** -/
theorem excludes_acquire (hx : m.StrengthsExclude) (table rowid : ℕ) (t : UInt32)
    (wo : WaitOwner) (str : LockStrength) (mode : LockWait) (seq : ℕ) :
    (m.acquire table rowid t wo str mode seq).1.StrengthsExclude := by
  rcases hb : m.blocker (UInt32.ofNat table) rowid t str with _ | lock
  · refine hx.grant (fun st st' h => (pairConflicts_symm st' st).trans h) (fun _ _ h => h.symm)
      t (UInt32.ofNat table, rowid) (fun st => st = str) (fun h => h rfl) ?_ ?_
    · intro o row st hholds
      rcases acquire_holds hholds with hold | ⟨hnew, -⟩
      · exact .inl hold
      · exact .inr hnew
    · rintro o st st' hne hholds rfl
      rw [Bool.not_eq_true]
      exact blocker_eq_none hb hne hholds
  · refine hx.mono (fun _ _ h => h) fun o row st hholds => ?_
    rcases acquire_holds hholds with hold | ⟨-, hnone⟩
    · exact hold
    · rw [hb] at hnone
      cases hnone

lemma Holds.of_rowsShrink {m' : LockManager} (h : RowsShrink m.locks.items m'.locks.items)
    {o : UInt32} {row : UInt32 × ℕ} {st : LockStrength} (hholds : m'.Holds o row st) :
    m.Holds o row st := by
  obtain ⟨kept, hkept, rfl, rfl, hmode⟩ := hholds
  obtain ⟨lock, hlock, htable, hrowid, ho, -, hmodes⟩ := h kept hkept
  exact ⟨lock, hlock, by rw [htable, hrowid], ho.symm, hmodes st hmode⟩

lemma excludes_of_locks {m' : LockManager} (hx : m.StrengthsExclude) (h : m'.locks = m.locks) :
    m'.StrengthsExclude := by
  refine hx.mono (fun _ _ h => h) fun o row st hholds => ?_
  unfold Holds at hholds ⊢
  rwa [h] at hholds

lemma excludes_rebindWaitOwner (hx : m.StrengthsExclude) (source target : WaitOwner) :
    (m.rebindWaitOwner source target).StrengthsExclude := by
  refine hx.mono (fun _ _ h => h) fun o row st hholds => ?_
  obtain ⟨lock, hlock, hrow, ho, hmode⟩ := hholds
  obtain ⟨was, hwas, rfl⟩ := List.mem_map.mp hlock
  refine ⟨was, hwas, ?_⟩
  split at hrow <;> split at ho <;> split at hmode <;> exact ⟨hrow, ho, hmode⟩

end LockManager

/-! ## Every state reached -/

section Calls

variable {s : LockSystem}

/-- Owners that are apart, in a symmetric way, have their locks under different wait owners. -/
structure SeparatesOwners (apart : ObjectLockOwner → ObjectLockOwner → Prop)
    (identities : TransactionIdentityState) : Prop where
  symm : ∀ a b, apart a b → apart b a
  irrefl : ∀ a, ¬apart a a
  waitOwner_ne :
    ∀ a b w w', apart a b → identities.OwnsObject a w → identities.OwnsObject b w' → w ≠ w'

variable {ids : TransactionIdentityState}

lemma separates_differentTransactions (hids : ids.Sound) :
    SeparatesOwners DifferentTransactions ids where
  symm := by
    rintro _ _ ⟨t, u, rfl, rfl, hne⟩
    exact ⟨u, t, rfl, rfl, hne.symm⟩
  irrefl := by
    rintro _ ⟨t, u, rfl, heq, hne⟩
    exact hne (ObjectLockOwner.transaction.inj heq)
  waitOwner_ne := by
    rintro _ _ w w' ⟨t, u, rfl, rfl, hne⟩ hw hw'
    exact TransactionIdentityState.Owns.ne hids hw hw' hne

variable {apart : ObjectLockOwner → ObjectLockOwner → Prop}

/-- Every change keeps relations exclusive between owners that are apart. -/
lemma LockState.Change.modesExclude {tm : TransactionMode} {locks after : LockState}
    (hapart : SeparatesOwners apart ids) (hi : locks.Inv ids) (h : Change tm ids locks after)
    (hx : locks.ModesExclude apart) :
    after.ModesExclude apart := by
  cases h with
  | shrinks h => exact hx.mono (fun _ _ h => h) fun _ _ _ hholds => h.holds hholds
  | lockObject owner waitOwner relation mode nowait ho =>
    refine excludes_lockObjectOwned hi.oneEach hapart.symm (hapart.irrefl owner) ?_ hx
    intro lock hlock hne
    exact hapart.waitOwner_ne _ _ _ _ (hapart.symm _ _ hne) (hi.table lock hlock) ho
  | lockRow table rowid t waitOwner strength mode sequence ho => exact hx
  | lockAdvisory key owner waitOwner mode tryOnly sequence ho => exact hx
  | wait waiter blocker hwaiter hblocker => exact hx

lemma LockState.Change.strengthsExclude {tm : TransactionMode} {locks after : LockState}
    (h : Change tm ids locks after) (hx : locks.row.StrengthsExclude) :
    after.row.StrengthsExclude := by
  cases h with
  | shrinks h => exact hx.mono (fun _ _ h => h) fun _ _ _ hholds => hholds.of_rowsShrink h.rows
  | lockObject owner waitOwner relation mode nowait ho =>
    rcases @lockObjectOwned_cases locks tm owner waitOwner relation mode
        nowait with h | ⟨lock, -, h⟩ | h | ⟨table, h, -⟩
    · rwa [h]
    · rw [h]
      exact excludes_of_locks hx (setWait_locks _ _)
    · rw [h]
      exact hx
    · rw [h]
      exact hx
  | lockRow table rowid t waitOwner strength mode sequence ho =>
    exact excludes_acquire hx table rowid t waitOwner strength mode sequence
  | lockAdvisory key owner waitOwner mode tryOnly sequence ho =>
    rcases @AdvisoryLockManager.acquire_waitGraph locks.advisory locks.row key owner waitOwner mode
        tryOnly sequence with hunwaits | ⟨lock, -, hset⟩
    · exact excludes_of_locks hx hunwaits.locks
    · rw [hset]
      exact excludes_of_locks hx (setWait_locks _ _)
  | wait waiter blocker hwaiter hblocker =>
    exact excludes_of_locks hx (setWait_locks _ _)

/-- A preparation changes nobody's relation locks, but for their wait owner. -/
lemma heldSince_prepare {t : UInt32} {o : ObjectLockOwner} {r : ObjectLockTarget}
    {m : TableLockMode} {n : ℕ} :
    HeldSince (s.prepareTransactionLocks t).locks.table.items o r m n ↔
      HeldSince s.locks.table.items o r m n := by
  rcases prepare_cases (s := s) t with ⟨-, h⟩ | ⟨identity, -, ⟨-, h⟩ | ⟨-, h⟩⟩
  · rw [h]
  · rw [h]
  rw [h]
  simp only [HeldSince, FixedVec.updateWhere, List.mem_map]
  constructor
  · rintro ⟨_, ⟨was, hwas, rfl⟩, ho, hr, hm, hn⟩
    refine ⟨was, hwas, ?_⟩
    split at ho <;> split at hr <;> split at hm <;> exact ⟨ho, hr, hm, hn⟩
  · rintro ⟨was, hwas, ho, hr, hm, hn⟩
    refine ⟨_, ⟨was, hwas, rfl⟩, ?_⟩
    split <;> exact ⟨ho, hr, hm, hn⟩

/-- **Every allowed call keeps relations exclusive** between owners that are apart. -/
theorem LockCall.run_modesExclude (hi : s.Inv) (hapart : SeparatesOwners apart s.identities)
    (hx : s.locks.ModesExclude apart) {call : LockCall} (hall : call.allowed s) :
    (call.run s).locks.ModesExclude apart := by
  by_cases hsteady : call.steady = true
  · obtain ⟨-, -, hchgs⟩ := call.changes hi hall hsteady
    exact (Inv.of_changes (P := fun l => l.ModesExclude apart) hi.identities
      (fun _ _ hinv hstep hp => hstep.modesExclude hapart hinv hp) hchgs hi.locks hx).2
  cases call with
  | start connectionId => exact hx
  | finish t =>
    have hshrinks := (shrinks_finishTransaction (s := s) t).1
    exact hx.mono (fun _ _ h => h) fun _ _ _ hholds => hshrinks.holds hholds
  | prepare t =>
    exact hx.mono (fun _ _ h => h) fun _ _ _ ⟨n, hheld⟩ => ⟨n, heldSince_prepare.mp hheld⟩
  | _ => exact absurd rfl hsteady

/-- **Every allowed call keeps rows exclusive.** -/
theorem LockCall.run_strengthsExclude (hi : s.Inv) (hx : s.locks.row.StrengthsExclude)
    {call : LockCall} (hall : call.allowed s) :
    (call.run s).locks.row.StrengthsExclude := by
  by_cases hsteady : call.steady = true
  · obtain ⟨-, -, hchgs⟩ := call.changes hi hall hsteady
    exact (Inv.of_changes (P := fun l => l.row.StrengthsExclude) hi.identities
      (fun _ _ _ hstep hp => hstep.strengthsExclude hp) hchgs hi.locks hx).2
  cases call with
  | start connectionId => exact hx
  | finish t =>
    have hshrinks := (shrinks_finishTransaction (s := s) t).1
    exact hx.mono (fun _ _ h => h) fun _ _ _ hholds => hholds.of_rowsShrink hshrinks.rows
  | prepare t =>
    simp only [run]
    rcases prepare_cases (s := s) t with ⟨-, h⟩ | ⟨identity, -, ⟨-, h⟩ | ⟨-, h⟩⟩
    · rwa [h]
    · rw [h]
      exact hx
    · rw [h]
      refine excludes_rebindWaitOwner ?_ _ _
      exact excludes_of_locks hx (resourceReleased_locks _)
  | _ => exact absurd rfl hsteady

end Calls

lemma LockSystem.Reachable.excludes {s : LockSystem} (h : s.Reachable) :
    s.locks.ModesExclude DifferentTransactions ∧ s.locks.row.StrengthsExclude := by
  obtain ⟨limits, transactionMode, calls, hprop, rfl⟩ := h
  refine (hprop.induct (P := fun s => s.Inv ∧ s.locks.ModesExclude DifferentTransactions ∧
    s.locks.row.StrengthsExclude) ?_ ⟨new_inv limits transactionMode, ?_, ?_⟩).2
  · rintro s call ⟨hi, hrelations, hrows⟩ hall
    exact ⟨LockCall.run_inv hi hall,
      LockCall.run_modesExclude hi (separates_differentTransactions hi.identities) hrelations hall,
      LockCall.run_strengthsExclude hi hrows hall⟩
  · exact fun _ _ _ _ _ _ ⟨_, _, hlock, _⟩ => (nomatch hlock)
  · exact fun _ _ _ _ _ _ ⟨_, hlock, _⟩ => (nomatch hlock)

/-- **No two transactions hold conflicting modes of a relation, or conflicting strengths of a row**,
in any state that any interleaving of calls reaches. -/
theorem conflicting_modes_excluded {s : LockSystem} (h : s.Reachable) :
    (∀ t u : UInt32, t ≠ u → ∀ relation m m',
      s.locks.Holds (.transaction t) relation m → s.locks.Holds (.transaction u) relation m' →
        modeConflicts m m' = false) ∧
    ∀ t u : UInt32, t ≠ u → ∀ row st st',
      s.locks.row.Holds t row st → s.locks.row.Holds u row st' → pairConflicts st st' = false := by
  constructor
  · intro t u hne relation m m' ht hu
    rw [← Bool.not_eq_true]
    exact h.excludes.1 _ _ relation m m' ⟨t, u, rfl, rfl, hne⟩ ht hu
  · intro t u hne row st st' ht hu
    rw [← Bool.not_eq_true]
    exact h.excludes.2 t u row st st' hne ht hu

/-- Two backends that share a table and a row. -/
def sharingCalls : List LockCall :=
  [.start 1, .start 2, .lockObject 1 (.table 0) .rowExclusive false,
    .lockObject 2 (.table 0) .rowExclusive false, .lockObject 2 (.table 0) .share true,
    .lockRow 1 0 7 .keyShare .wait, .lockRow 2 0 7 .noKeyUpdate .wait,
    .lockRow 2 0 7 .update .noWait]

/-- The state they reach. -/
def sharingSystem : LockSystem :=
  LockSystem.runAll sharingCalls (LockSystem.new ⟨4, 8, 8, 8, 4⟩ .mvcc)

theorem conflicting_modes_excluded_sharing :
    sharingSystem.Reachable ∧ sharingSystem.locks.table.items.length = 2 ∧
      sharingSystem.locks.row.locks.items.length = 2 ∧
      ∀ relation m m', sharingSystem.locks.Holds (.transaction 1) relation m →
        sharingSystem.locks.Holds (.transaction 2) relation m' → modeConflicts m m' = false := by
  have hreach : sharingSystem.Reachable :=
    ⟨⟨4, 8, 8, 8, 4⟩, .mvcc, sharingCalls, by decide +kernel, rfl⟩
  exact ⟨hreach, by decide +kernel, by decide +kernel,
    (conflicting_modes_excluded hreach).1 1 2 (by decide)⟩

end Pos3ql
