import Pos3ql.Locks.Invariants

/-!
# Advisory keys across PREPARE TRANSACTION

A session and its transaction have one wait owner, so a key can be held by both, in any modes.
PREPARE TRANSACTION gives the transaction's locks a wait owner of their own and leaves the session's
where they are. From then on the two are different owners, and nothing was checked between them.

* `LockSystem.KeysExclusive`: a key held in exclusive mode is held by one owner.
* `LockSystem.PreparesApart`: a transaction is prepared only when its session shares no key with it
  in exclusive mode.
* **`keys_exclusive_iff`**: a run keeps keys exclusive exactly when its preparations are apart.
* **`prepared_key_shared`**: a run that holds a key in exclusive mode twice.
-/

namespace Pos3ql

open Foundation Relation List LockSystem

namespace LockSystem

/-- A wait owner holds a key in a mode. -/
def HoldsKey (s : LockSystem) (waitOwner : WaitOwner) (key : AdvisoryKey) (mode : AdvisoryMode) :
    Prop :=
  ∃ owner, s.locks.advisory.Holds owner waitOwner key mode

/-- **No key is held in exclusive mode by one owner while another holds it.** -/
def KeysExclusive (s : LockSystem) : Prop :=
  ∀ w w' key mode, w ≠ w' → s.HoldsKey w key .exclusive → ¬s.HoldsKey w' key mode

/-- A transaction to be prepared shares no key with its session, unless both hold it in shared
mode. -/
def PreparesApart (call : LockCall) (s : LockSystem) : Prop :=
  ∀ t identity c, call = .prepare t → s.identities.find t = some identity →
    identity.connectionId = some c → ∀ w w' key mode mode',
      s.locks.advisory.Holds (.transaction t) w key mode →
      s.locks.advisory.Holds (.session c) w' key mode' → advisoryConflicts mode mode' = false

/-- A property of every state of a run. -/
def Always (P : LockSystem → Prop) : List LockCall → LockSystem → Prop
  | [], s => P s
  | call :: rest, s => P s ∧ Always P rest (call.run s)

lemma Always.start {P : LockSystem → Prop} {calls : List LockCall} {s : LockSystem}
    (h : Always P calls s) : P s := by
  cases calls with
  | nil => exact h
  | cons call rest => exact h.1

end LockSystem

/-! ## Calls other than a preparation -/

/-- Keys of different wait owners do not conflict. -/
def AdvisoryLockManager.KeysExclude (m : AdvisoryLockManager) : Prop :=
  Excludes (fun w w' : WaitOwner => w ≠ w') (fun md md' => advisoryConflicts md md' = true)
    fun w key md => ∃ owner, m.Holds owner w key md

section Calls

variable {s : LockSystem}

lemma LockSystem.keysExclusive_iff : s.KeysExclusive ↔ s.locks.advisory.KeysExclude := by
  constructor
  · intro h w w' key md md' hne hw hw' hconflict
    simp only [advisoryConflicts, Bool.or_eq_true, beq_iff_eq] at hconflict
    rcases hconflict with rfl | rfl
    · exact h w w' key md' hne hw hw'
    · exact h w' w key md hne.symm hw' hw
  · intro h w w' key md hne hw hw'
    exact h w w' key .exclusive md hne hw hw' rfl

lemma LockState.lockObjectOwned_advisory {locks : LockState} {tm : TransactionMode}
    {owner : ObjectLockOwner} {wo : WaitOwner} {rel : ObjectLockTarget}
    {mode : TableLockMode} {nowait : Bool} :
    (locks.lockObjectOwned tm owner wo rel mode nowait).1.advisory = locks.advisory := by
  rcases @LockState.lockObjectOwned_cases locks tm owner wo rel mode nowait
    with h | ⟨_, -, h⟩ | h | ⟨_, h, -⟩ <;> rw [h]

/-- **An acquisition keeps keys exclusive.** -/
theorem AdvisoryLockManager.KeysExclude.acquire {m : AdvisoryLockManager} (hx : m.KeysExclude)
    (key : AdvisoryKey) (owner : AdvisoryOwner) (wo : WaitOwner) (mode : AdvisoryMode) (tr : Bool)
    (seq : ℕ) (wg : LockManager) :
    (m.acquire key owner wo mode tr seq wg).1.1.KeysExclude := by
  rcases hb : m.blocker key wo mode with _ | lock
  · refine hx.grant (fun md md' h => (advisoryConflicts_symm md' md).trans h) (fun _ _ h => h.symm)
      wo key (fun md => md = mode) (fun h => h rfl) ?_ ?_
    · rintro w k md ⟨o, hholds⟩
      rcases acquire_holds hholds with hold | ⟨⟨-, hw, hk, hmd⟩, -⟩
      · exact .inl ⟨o, hold⟩
      · exact .inr ⟨hw, hk, hmd⟩
    · rintro w md md' hne ⟨o, hholds⟩ rfl
      rw [Bool.not_eq_true]
      exact blocker_eq_none hb hne hholds
  · refine hx.mono (fun _ _ h => h) ?_
    rintro w k md ⟨o, hholds⟩
    rcases acquire_holds hholds with hold | ⟨-, hnone⟩
    · exact ⟨o, hold⟩
    · rw [hb] at hnone
      cases hnone

lemma LockState.Shrinks.keysExclude {locks after : LockState} (h : LockState.Shrinks locks after)
    (hx : locks.advisory.KeysExclude) : after.advisory.KeysExclude :=
  hx.mono (fun _ _ h => h) fun w k md ⟨o, hholds⟩ => ⟨o, h.advisory o w k md hholds⟩

lemma LockState.Change.keysExclude {tm : TransactionMode}
    {ids : TransactionIdentityState} {locks after : LockState}
    (h : LockState.Change tm ids locks after)
    (hx : locks.advisory.KeysExclude) : after.advisory.KeysExclude := by
  cases h with
  | shrinks h => exact h.keysExclude hx
  | lockObject owner waitOwner relation mode nowait ho =>
    rw [LockState.lockObjectOwned_advisory]
    exact hx
  | lockRow table rowid t waitOwner strength mode sequence ho => exact hx
  | lockAdvisory key owner waitOwner mode tryOnly sequence ho => exact hx.acquire _ _ _ _ _ _ _
  | wait waiter blocker hwaiter hblocker => exact hx

/-! ## Preparations -/

/-- The locks of a prepared transaction, and all others, after the preparation. -/
lemma holds_rebind {m : AdvisoryLockManager} {t : UInt32} {source target : WaitOwner}
    {o : AdvisoryOwner} {w : WaitOwner} {key : AdvisoryKey} {mode : AdvisoryMode} :
    (m.rebindTransactionWaitOwner t source target).Holds o w key mode ↔
      (o = .transaction t ∧ m.Holds o source key mode) ∧ w = target ∨
        ¬(o = .transaction t ∧ w = source) ∧ m.Holds o w key mode := by
  simp only [AdvisoryLockManager.Holds, AdvisoryLockManager.rebindTransactionWaitOwner,
    FixedVec.updateWhere, mem_map]
  constructor
  · rintro ⟨_, ⟨lock, hlock, rfl⟩, ho, hw, hk, hmd⟩
    by_cases hmine : lock.owner = .transaction t ∧ lock.waitOwner = source
    · have hcond : (lock.owner == .transaction t && lock.waitOwner == source) := by
        simpa using hmine
      simp only [hcond, if_true] at ho hw hk hmd
      exact .inl ⟨⟨ho.symm.trans hmine.1, lock, hlock, ho, hmine.2, hk, hmd⟩, hw.symm⟩
    have hcond : (lock.owner == .transaction t && lock.waitOwner == source) = false := by
      simpa using hmine
    simp only [hcond] at ho hw hk hmd
    subst ho hw
    exact .inr ⟨hmine, lock, hlock, rfl, rfl, hk, hmd⟩
  · rintro (⟨⟨rfl, lock, hlock, ho, hw, hk, hmd⟩, rfl⟩ | ⟨hother, lock, hlock, rfl, rfl, hk, hmd⟩)
    · exact ⟨_, ⟨lock, hlock, rfl⟩, by simp [ho, hw, hk, hmd]⟩
    refine ⟨_, ⟨lock, hlock, rfl⟩, ?_⟩
    have hcond : (lock.owner == .transaction t && lock.waitOwner == source) = false := by
      simpa using hother
    simp [hcond, hk, hmd]

/-- **A preparation keeps keys exclusive exactly when the transaction and its session are
apart.** -/
theorem keysExclude_prepare_iff (hi : s.Inv) (hx : s.locks.advisory.KeysExclude) (t : UInt32) :
    (s.prepareTransactionLocks t).locks.advisory.KeysExclude ↔
      LockSystem.PreparesApart (.prepare t) s := by
  rcases prepare_cases (s := s) t with ⟨hnone, h⟩ | ⟨identity, hfound, hcase⟩
  · rw [h]
    refine ⟨fun _ u identity c hu hfound => ?_, fun _ => hx⟩
    cases hu
    rw [hnone] at hfound
    cases hfound
  rcases hcase with ⟨hsame, h⟩ | ⟨hdiff, h⟩
  · -- no backend, so no session to share with
    rw [h]
    refine ⟨fun _ u found c hu hu' hconn => ?_, fun _ => hx⟩
    cases hu
    rw [hfound] at hu'
    cases hu'
    simp only [ActiveTransactionIdentity.waitOwner, hconn] at hsame
    exact absurd hsame (connectionWaitOwner_ne_prepared c t)
  rw [h]
  obtain ⟨hmem, hid⟩ := TransactionIdentityState.find_eq_some hfound
  obtain ⟨c, hconn⟩ : ∃ c, identity.connectionId = some c := by
    rcases hconn : identity.connectionId with _ | c
    · exact absurd (by simp only [ActiveTransactionIdentity.waitOwner, hconn, hid]) hdiff
    · exact ⟨c, rfl⟩
  have hwait : identity.waitOwner = connectionWaitOwner c := by
    simp only [ActiveTransactionIdentity.waitOwner, hconn]
  -- the transaction's locks stand under the backend
  have hmine : ∀ {w key md}, s.locks.advisory.Holds (.transaction t) w key md →
      w = identity.waitOwner := fun hholds =>
    TransactionIdentityState.Owns.eq_waitOwner hi.identities (hi.locks.advisory _ _ _ _ hholds)
      hfound
  constructor
  · intro hafter u found d hu hu' hd w w' key md md' ht hc
    cases hu
    rw [hfound] at hu'
    cases hu'
    obtain rfl := Option.some.inj (hd.symm.trans hconn)
    have hsession := hi.locks.advisory _ _ _ _ hc
    rw [← Bool.not_eq_true]
    refine hafter (preparedWaitOwner t) w' key md md' ?_ ?_ ?_
    · rw [hsession]
      exact (connectionWaitOwner_ne_prepared d t).symm
    · exact ⟨.transaction t, holds_rebind.mpr (.inl ⟨⟨rfl, hmine ht ▸ ht⟩, rfl⟩)⟩
    · exact ⟨.session d, holds_rebind.mpr (.inr ⟨by simp, hc⟩)⟩
  intro hapart
  -- a pair that is new is the transaction and its session; every other pair was there before
  have hpair : ∀ w w' key md md' o o', w ≠ w' →
      (o = .transaction t ∧ s.locks.advisory.Holds o identity.waitOwner key md) ∧
        w = preparedWaitOwner t →
      ¬(o' = .transaction t ∧ w' = identity.waitOwner) ∧
        s.locks.advisory.Holds o' w' key md' → advisoryConflicts md md' = false := by
    rintro w w' key md md' o o' hne ⟨⟨rfl, ht⟩, rfl⟩ ⟨hother, ho'⟩
    by_cases hw' : w' = identity.waitOwner
    · cases o' with
      | transaction u =>
        have hu := hi.locks.advisory _ _ _ _ ho'
        have hut : u = t := by
          by_contra hut
          exact TransactionIdentityState.Owns.ne hi.identities hu ⟨identity, hmem, hid, rfl⟩ hut hw'
        exact absurd ⟨congrArg _ hut, hw'⟩ hother
      | session d =>
        have hd := hi.locks.advisory _ _ _ _ ho'
        obtain rfl : d = c :=
          connectionWaitOwner_injective (hd.symm.trans (hw'.trans hwait))
        exact hapart t identity d rfl hfound hconn _ _ key md md' ht ho'
    · rw [← Bool.not_eq_true]
      exact hx identity.waitOwner w' key md md' (Ne.symm hw') ⟨_, ht⟩ ⟨o', ho'⟩
  rintro w w' key md md' hne ⟨o, ho⟩ ⟨o', ho'⟩
  rw [Bool.not_eq_true]
  rcases holds_rebind.mp ho with hnew | hold
  · rcases holds_rebind.mp ho' with hnew' | hold'
    · exact absurd (hnew.2.trans hnew'.2.symm) hne
    · exact hpair w w' key md md' o o' hne hnew hold'
  rcases holds_rebind.mp ho' with hnew' | hold'
  · rw [advisoryConflicts_symm]
    exact hpair w' w key md' md o' o hne.symm hnew' hold
  · rw [← Bool.not_eq_true]
    exact hx w w' key md md' hne ⟨o, hold.2⟩ ⟨o', hold'.2⟩

/-- A call keeps keys exclusive exactly when it is no preparation, or one that is apart. -/
lemma LockCall.run_keysExclude_iff (hi : s.Inv) (hx : s.locks.advisory.KeysExclude)
    {call : LockCall} (hall : call.allowed s) :
    (call.run s).locks.advisory.KeysExclude ↔ LockSystem.PreparesApart call s := by
  by_cases hsteady : call.steady = true
  · obtain ⟨-, -, hchgs⟩ := call.changes hi hall hsteady
    refine ⟨fun _ t _ _ hcall => ?_, fun _ => ?_⟩
    · subst hcall
      cases hsteady
    · exact (LockState.Inv.of_changes (P := fun l => l.advisory.KeysExclude) hi.identities
        (fun _ _ _ hstep hp => hstep.keysExclude hp) hchgs hi.locks hx).2
  cases call with
  | start connectionId => exact ⟨nofun, fun _ => hx⟩
  | finish t =>
    refine ⟨nofun, fun _ => ?_⟩
    exact (shrinks_finishTransaction (s := s) t).1.keysExclude hx
  | prepare t => exact keysExclude_prepare_iff hi hx t
  | _ => exact absurd rfl hsteady

end Calls

/-! ## Runs -/

/-- **In every run, keys are exclusive in all states exactly when every preparation is apart from
the session it leaves.** -/
theorem keys_exclusive_iff (limits : LockLimits) (transactionMode : TransactionMode)
    (calls : List LockCall) (hproper : Proper calls (new limits transactionMode)) :
    LockSystem.Always LockSystem.KeysExclusive calls (new limits transactionMode) ↔
      Throughout LockSystem.PreparesApart calls (new limits transactionMode) := by
  have hinv := new_inv limits transactionMode
  have hnew : (new limits transactionMode).KeysExclusive :=
    fun _ _ _ _ _ ⟨_, _, hlock, _⟩ => (nomatch hlock)
  -- from any state that has both properties
  generalize new limits transactionMode = s at hproper hinv hnew ⊢
  induction calls generalizing s with
  | nil => exact ⟨fun _ => trivial, fun _ => hnew⟩
  | cons call rest ih =>
    have hstep := LockCall.run_keysExclude_iff hinv (keysExclusive_iff.mp hnew) hproper.1
    have hrest := ih (call.run s) hproper.2 (LockCall.run_inv hinv hproper.1)
    constructor
    · rintro ⟨-, halways⟩
      have hafter := halways.start
      exact ⟨hstep.mp (keysExclusive_iff.mp hafter), (hrest hafter).mp halways⟩
    · rintro ⟨hapart, hthroughout⟩
      have hafter := keysExclusive_iff.mpr (hstep.mpr hapart)
      exact ⟨hnew, (hrest hafter).mpr hthroughout⟩

/-- A key of the example. -/
def exampleKey : AdvisoryKey := ⟨0, 7, 1⟩

/-- A session locks a key, its transaction locks it too, and the transaction is prepared. -/
def sharedKeyCalls : List LockCall :=
  [.start 1, .lockAdvisory 1 1 exampleKey .exclusive false false,
    .lockAdvisory 1 1 exampleKey .exclusive true false, .prepare 1]

/-- The state they reach. -/
def sharedKeySystem : LockSystem :=
  runAll sharedKeyCalls (new ⟨4, 8, 8, 8, 4⟩ .mvcc)

/-- **A key held in exclusive mode by a session and by a prepared transaction.** -/
theorem prepared_key_shared :
    Proper sharedKeyCalls (new ⟨4, 8, 8, 8, 4⟩ .mvcc) ∧
      connectionWaitOwner 1 ≠ preparedWaitOwner 1 ∧
      sharedKeySystem.HoldsKey (connectionWaitOwner 1) exampleKey .exclusive ∧
      sharedKeySystem.HoldsKey (preparedWaitOwner 1) exampleKey .exclusive := by
  have hlocks : sharedKeySystem.locks.advisory.locks.items =
      [⟨exampleKey, .session 1, connectionWaitOwner 1, .exclusive, 1, 1⟩,
        ⟨exampleKey, .transaction 1, preparedWaitOwner 1, .exclusive, 1, 2⟩] := by
    decide +kernel
  refine ⟨by decide +kernel, connectionWaitOwner_ne_prepared 1 1, ⟨.session 1, ?_⟩,
    ⟨.transaction 1, ?_⟩⟩
  · rw [AdvisoryLockManager.Holds, hlocks]
    exact ⟨_, mem_cons_self, rfl, rfl, rfl, rfl⟩
  · rw [AdvisoryLockManager.Holds, hlocks]
    exact ⟨_, mem_cons_of_mem _ mem_cons_self, rfl, rfl, rfl, rfl⟩

/-- A session and its transaction lock different keys, and the transaction is prepared. -/
def apartKeyCalls : List LockCall :=
  [.start 1, .lockAdvisory 1 1 exampleKey .exclusive false false,
    .lockAdvisory 1 1 { exampleKey with objectId := 8 } .exclusive true false, .prepare 1]

theorem keys_exclusive_iff_apart :
    LockSystem.Always LockSystem.KeysExclusive apartKeyCalls (new ⟨4, 8, 8, 8, 4⟩ .mvcc) := by
  refine (keys_exclusive_iff _ _ _ (by decide +kernel)).mpr ⟨nofun, nofun, nofun, ?_, trivial⟩
  intro t identity c hcall hfound hconn w w' key md md' ht hc
  have hlocks : (runAll (apartKeyCalls.take 3)
      (new ⟨4, 8, 8, 8, 4⟩ .mvcc)).locks.advisory.locks.items =
      [⟨exampleKey, .session 1, connectionWaitOwner 1, .exclusive, 1, 1⟩,
        ⟨{ exampleKey with objectId := 8 }, .transaction 1, connectionWaitOwner 1, .exclusive, 1,
          2⟩] := by
    decide +kernel
  -- the only lock of the transaction is on the one key, the only lock of a session on the other
  obtain ⟨lock, hlock, ho, -, rfl, -⟩ := ht
  obtain ⟨other, hother, ho', -, hkey, -⟩ := hc
  change lock ∈ (runAll (apartKeyCalls.take 3) _).locks.advisory.locks.items at hlock
  change other ∈ (runAll (apartKeyCalls.take 3) _).locks.advisory.locks.items at hother
  rw [hlocks, mem_cons, mem_singleton] at hlock hother
  rcases hlock with rfl | rfl
  · cases ho
  · rcases hother with rfl | rfl
    · cases hkey
    · cases ho'

end Pos3ql
