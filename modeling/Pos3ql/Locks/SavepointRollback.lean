import Pos3ql.Locks.Conflicts

/-!
# Relation locks across ROLLBACK TO SAVEPOINT

A mark is the last sequence number given out; a rollback drops the modes whose number lies above it.
A grant gives its number to the mode asked for and to the protection mode, also to the one of the
two that was held before. Where transactions exclude one another by locking, several modes share a
protection mode, so a request after the mark can take over the number of a protection mode held at
the mark, and the rollback then drops a mode that was there.

* `LockCall.leaves`: a call that does not end, prepare or roll back the transaction.
* `heldSince_call`: calls of others leave a transaction's relation locks alone.
* `LockSystem.Spares`: a request whose protection mode was held at the mark asks for a mode that
  was.
* **`rollback_restores_iff`**: a rollback restores the modes exactly when the requests are sparing.
* **`rollback_drops_protection`**: a run in which it does not.
-/

namespace Pos3ql

open Foundation Relation List LockSystem LockState LockCall TransactionIdentityState

/-! ## What a call does to the relation locks of one transaction -/

/-- A call that does not end, prepare or roll back the transaction. -/
def LockCall.leaves (t : UInt32) : LockCall → Bool
  | .rollbackLocksTo u _ | .finish u | .prepare u => u != t
  | _ => true

/-- A relation-lock request of the transaction. -/
def LockCall.requestOf (t : UInt32) : LockCall → Bool
  | .lockObject u _ _ _ => u == t
  | _ => false

section Calls

variable {s : LockSystem} {t : UInt32} {call : LockCall} {r : ObjectLockTarget} {m : TableLockMode}
  {n : ℕ}

lemma heldSince_lockObjectOwned {locks : LockState} (hone : OneEach locks.table.items)
    {tm : TransactionMode} {owner : ObjectLockOwner} (hne : owner ≠ .transaction t) {wo : WaitOwner}
    {rel : ObjectLockTarget} {mode : TableLockMode} {nowait : Bool} :
    HeldSince (locks.lockObjectOwned tm owner wo rel mode nowait).1.table.items (.transaction t) r m
      n ↔ HeldSince locks.table.items (.transaction t) r m n := by
  rcases @LockState.lockObjectOwned_cases locks tm owner wo rel mode nowait
    with h | ⟨_, -, h⟩ | h | ⟨table, h, -, hgrant, -⟩
  · rw [h]
  · rw [h]
  · rw [h]
  rw [h, heldSince_grantTable hone (by omega) hgrant]
  have hother : ¬(ObjectLockOwner.transaction t = owner ∧ r = rel ∧
      (m = mode ∨ m = protection tm owner rel mode)) := fun h => hne h.1.symm
  simp only [hother, false_and, false_or, not_false_eq_true, true_and]

lemma heldSince_removeAll {table : FixedVec ObjectLock} {gone : ObjectLock → Bool}
    (hgone : ∀ lock : ObjectLock, lock.owner = .transaction t → gone lock = false) :
    HeldSince (table.removeAll gone).1.items (.transaction t) r m n ↔
      HeldSince table.items (.transaction t) r m n := by
  constructor
  · rintro ⟨lock, hlock, hheld⟩
    exact ⟨lock, (FixedVec.mem_removeAll.mp hlock).1, hheld⟩
  · rintro ⟨lock, hlock, ho, hheld⟩
    exact ⟨lock, FixedVec.mem_removeAll.mpr ⟨hlock, hgone lock ho⟩, ho, hheld⟩

/-- **Calls that are no requests of the transaction leave its relation locks alone.** -/
theorem heldSince_call (hi : s.Inv) (hlvs : call.leaves t) (hreq : call.requestOf t = false) :
    HeldSince (call.run s).locks.table.items (.transaction t) r m n ↔
      HeldSince s.locks.table.items (.transaction t) r m n := by
  cases call with
  | lockObject u relation mode nowait =>
    have hne : u ≠ t := by simpa [requestOf] using hreq
    refine heldSince_lockObjectOwned hi.locks.oneEach fun heq => hne ?_
    exact ObjectLockOwner.transaction.inj heq
  | holdTable u table visible =>
    simp only [LockCall.run, holdTableAcrossCommits]
    split
    · rfl
    rename_i connection hfound
    split
    · rcases s.locks.nextSequence_cases with ⟨e, hseq⟩ | hseq
      · rw [hseq]
      rw [hseq]
      have hsession : ObjectLockOwner.session connection (s.locks.sequence + 1) ≠ .transaction t :=
        by simp
      exact @heldSince_lockObjectOwned t r m n { s.locks with sequence := s.locks.sequence + 1 }
        hi.locks.oneEach s.transactionMode _ hsession _ _ _ _
    · rfl
  | dropTableHold connection acquisition table =>
    simp only [LockCall.run, LockState.dropTableHold]
    split
    · rfl
    constructor
    · rintro ⟨lock, hlock, hheld⟩
      exact ⟨lock, FixedVec.mem_of_mem_eraseFirst hlock, hheld⟩
    · rintro ⟨lock, hlock, ho, hheld⟩
      refine ⟨lock, FixedVec.mem_eraseFirst_of_not hlock ?_, ho, hheld⟩
      simp [ObjectLock.isOwn, ho]
  | rollbackLocksTo u mark =>
    have hne : u ≠ t := by simpa [leaves] using hlvs
    refine heldSince_rollbackTable.trans (and_iff_left fun heq => ?_)
    exact absurd (ObjectLockOwner.transaction.inj heq).symm hne
  | finish u =>
    have hne : u ≠ t := by simpa [leaves] using hlvs
    exact heldSince_removeAll fun lock ho => by simpa [ho] using Ne.symm hne
  | prepare u => exact heldSince_prepare
  | releaseConnection connectionId =>
    exact heldSince_removeAll fun lock ho => by simp [isHoldOf, ho]
  | lockRow u table rowid strength mode =>
    simp only [LockCall.run, acquireRowLock]
    rcases s.locks.nextSequence_cases with ⟨e, hseq⟩ | hseq
    · rw [hseq]
    · rw [hseq]
  | lockAdvisory connectionId u key mode transactionScope tryOnly =>
    simp only [LockCall.run, acquireAdvisoryLock]
    split
    · rfl
    · rcases s.locks.nextSequence_cases with ⟨e, hseq⟩ | hseq
      · rw [hseq]
      · rw [hseq]
  | _ => rfl

lemma LockState.Change.sequence_le {tm : TransactionMode}
    {ids : TransactionIdentityState} {locks after : LockState}
    (h : Change tm ids locks after) :
    locks.sequence ≤ after.sequence := by
  cases h with
  | shrinks h => exact h.sequence
  | lockObject owner waitOwner relation mode nowait ho =>
    rcases @LockState.lockObjectOwned_cases locks tm owner waitOwner relation mode
        nowait with h | ⟨lock, -, h⟩ | h | ⟨table, h, -⟩
    · rw [h]
    · rw [h]
    · rw [h]
      exact Nat.le_succ _
    · rw [h]
      exact Nat.le_succ _
  | lockRow | lockAdvisory | wait => exact le_rfl

/-- The counter never goes back. -/
lemma LockCall.sequence_le (hi : s.Inv) (hall : call.allowed s) :
    s.locks.sequence ≤ (call.run s).locks.sequence := by
  by_cases hsteady : call.steady = true
  · obtain ⟨-, -, hchgs⟩ := call.changes hi hall hsteady
    exact (Inv.of_changes (P := fun l => s.locks.sequence ≤ l.sequence) hi.identities
      (fun _ _ _ hstep hp => hp.trans hstep.sequence_le) hchgs hi.locks le_rfl).2
  cases call with
  | start connectionId => exact le_rfl
  | finish u => exact (shrinks_finishTransaction (s := s) u).1.sequence
  | prepare u =>
    simp only [run]
    rcases prepare_cases (s := s) u with ⟨-, h⟩ | ⟨identity, -, ⟨-, h⟩ | ⟨-, h⟩⟩ <;> rw [h]
  | _ => exact absurd rfl hsteady

lemma LockCall.transactionMode_eq (hi : s.Inv) (hall : call.allowed s) :
    (call.run s).transactionMode = s.transactionMode := by
  by_cases hsteady : call.steady = true
  · exact (call.changes hi hall hsteady).2.1
  cases call with
  | start connectionId => rfl
  | finish u => rfl
  | prepare u =>
    simp only [run]
    rcases prepare_cases (s := s) u with ⟨-, h⟩ | ⟨identity, -, ⟨-, h⟩ | ⟨-, h⟩⟩ <;> rw [h]
  | _ => exact absurd rfl hsteady

/-- The transaction stays registered. -/
lemma LockCall.identity_mem (hi : s.Inv) (hall : call.allowed s) (hlvs : call.leaves t)
    {conn : Option Int32} (hmem : ⟨t, conn⟩ ∈ s.identities.active.items) :
    ⟨t, conn⟩ ∈ (call.run s).identities.active.items := by
  by_cases hsteady : call.steady = true
  · rw [(call.changes hi hall hsteady).1]
    exact hmem
  cases call with
  | start connectionId =>
    simp only [run, startTransaction]
    rcases @TransactionIdentityState.start_cases s.identities connectionId with
      h | ⟨active, u, hpush, -, h⟩
    · rwa [h]
    · rw [h, FixedVec.push_items hpush]
      exact mem_append_left _ hmem
  | finish u =>
    have hne : u ≠ t := by simpa [leaves] using hlvs
    exact FixedVec.mem_eraseFirst_of_not hmem (by simpa using Ne.symm hne)
  | prepare u =>
    have hne : u ≠ t := by simpa [leaves] using hlvs
    have hdetach : ⟨t, conn⟩ ∈ (s.identities.detach u).active.items := by
      rw [detach_items hi.identities, mem_map]
      exact ⟨_, hmem, by simp [Ne.symm hne]⟩
    simp only [run]
    rcases prepare_cases (s := s) u with ⟨-, h⟩ | ⟨identity, -, ⟨-, h⟩ | ⟨-, h⟩⟩
    · rwa [h]
    · rwa [h]
    · rwa [h]
  | _ => exact absurd rfl hsteady

end Calls

/-- What calls that leave a transaction keep holds after a run of them. -/
lemma runAll_leaving {t : UInt32} {P : LockSystem → Prop}
    (hstep : ∀ s call, P s → allowed call s → leaves t call → P (call.run s))
    {calls : List LockCall} {s : LockSystem} (hprop : Proper calls s)
    (hlvs : ∀ call ∈ calls, leaves t call) (hs : P s) :
    P (runAll calls s) := by
  induction calls generalizing s with
  | nil => exact hs
  | cons call rest ih =>
    exact ih hprop.2 (forall_mem_cons.mp hlvs).2 (hstep s call hs hprop.1 (hlvs call mem_cons_self))

/-! ## A transaction against everybody else -/

/-- Everybody whose wait owner is not that of the transaction. -/
def OtherOwner (t : UInt32) (connection : Option Int32) : ObjectLockOwner → Prop
  | .transaction u => u ≠ t
  | .session c _ => connection ≠ some c

/-- The transaction on one side, and somebody else on the other. -/
def AgainstOthers (t : UInt32) (connection : Option Int32) (a b : ObjectLockOwner) : Prop :=
  a = .transaction t ∧ OtherOwner t connection b ∨ b = .transaction t ∧ OtherOwner t connection a

variable {conn : Option Int32}

lemma waitOwner_eq_iff {ids : TransactionIdentityState} (hids : ids.Sound) {t : UInt32}
    (hmem : ⟨t, conn⟩ ∈ ids.active.items)
    {owner : ObjectLockOwner} {w : WaitOwner} (hw : ids.OwnsObject owner w) :
    w ≠ ActiveTransactionIdentity.waitOwner ⟨t, conn⟩ ↔ OtherOwner t conn owner := by
  cases owner with
  | transaction u =>
    constructor
    · rintro hne rfl
      obtain ⟨a, ha, haid, rfl⟩ := hw
      exact hne (congrArg _ (hids.eq_of_transactionId ha hmem haid))
    · exact fun hne => Owns.ne hids hw ⟨_, hmem, rfl, rfl⟩ hne
  | session c acquisition =>
    obtain rfl := hw
    cases conn with
    | none =>
      refine ⟨nofun, fun _ => ?_⟩
      exact connectionWaitOwner_ne_prepared c t
    | some d =>
      constructor
      · rintro hne heq
        exact hne (congrArg connectionWaitOwner (Option.some.inj heq).symm)
      · intro hne heq
        exact hne (congrArg some (connectionWaitOwner_injective heq).symm)

lemma separates_againstOthers {ids : TransactionIdentityState} (hids : ids.Sound)
    {t : UInt32} (hmem : ⟨t, conn⟩ ∈ ids.active.items) :
    SeparatesOwners (AgainstOthers t conn) ids where
  symm := fun _ _ h => h.symm
  irrefl := by
    rintro a (⟨rfl, h⟩ | ⟨rfl, h⟩)
    · exact h rfl
    · exact h rfl
  waitOwner_ne := by
    have hmine : ∀ {w}, ids.OwnsObject (.transaction t) w →
        w = ActiveTransactionIdentity.waitOwner ⟨t, conn⟩ := by
      intro w hw
      by_contra hne
      exact (waitOwner_eq_iff hids hmem hw).mp hne rfl
    rintro a b w w' (⟨rfl, hb⟩ | ⟨rfl, ha⟩) hw hw'
    · rw [hmine hw]
      exact ((waitOwner_eq_iff hids hmem hw').mpr hb).symm
    · rw [hmine hw']
      exact (waitOwner_eq_iff hids hmem hw).mpr ha

/-! ## From the start of the transaction to the mark -/

/-- What holds of a live transaction that has only requested relation locks: nobody else conflicts
with it, and what it holds it holds with the protection. -/
structure Unrolled (t : UInt32) (connection : Option Int32) (s : LockSystem) : Prop where
  inv : s.Inv
  live : ⟨t, connection⟩ ∈ s.identities.active.items
  excludes : s.locks.ModesExclude (AgainstOthers t connection)
  closed : ∀ r m, s.locks.Holds (.transaction t) r m →
    s.locks.Holds (.transaction t) r (protection s.transactionMode (.transaction t) r m)

lemma protection_protection (tm : TransactionMode) (owner : ObjectLockOwner)
    (rel : ObjectLockTarget) (mode : TableLockMode) :
    protection tm owner rel (protection tm owner rel mode) = protection tm owner rel mode := by
  cases owner <;> cases rel <;> cases tm <;> cases mode <;> rfl

section Steps

variable {s : LockSystem} {t : UInt32} {connection : Option Int32}

lemma heldSince_request (hi : s.Inv) {rel : ObjectLockTarget} {mode : TableLockMode}
    {nowait : Bool} :
    (∀ r m n, HeldSince ((LockCall.lockObject t rel mode nowait).run s).locks.table.items
          (.transaction t) r m n ↔
        HeldSince s.locks.table.items (.transaction t) r m n) ∨
      s.locks.sequence + 1 < 2 ^ 64 ∧
      ¬(s.locks.Holds (.transaction t) rel mode ∧ s.locks.Holds (.transaction t) rel
        (protection s.transactionMode (.transaction t) rel mode)) ∧
      ∀ r m n, HeldSince ((LockCall.lockObject t rel mode nowait).run s).locks.table.items
          (.transaction t) r m n ↔
        (r = rel ∧ (m = mode ∨ m = protection s.transactionMode (.transaction t) rel mode)) ∧
            n = s.locks.sequence + 1 ∨
          ¬(r = rel ∧ (m = mode ∨ m = protection s.transactionMode (.transaction t) rel mode)) ∧
            HeldSince s.locks.table.items (.transaction t) r m n := by
  simp only [LockCall.run, LockSystem.lockObject]
  rcases @LockState.lockObjectOwned_cases s.locks s.transactionMode (.transaction t)
      (s.identities.transactionWaitOwner t) rel mode nowait
    with h | ⟨_, -, h⟩ | h | ⟨table, h, hleft, hgrant, -, hheld⟩
  · exact .inl fun r m n => by rw [h]
  · exact .inl fun r m n => by rw [h]
  · exact .inl fun r m n => by rw [h]
  refine .inr ⟨hleft, fun hboth => hheld ?_, fun r m n => ?_⟩
  · obtain ⟨⟨n, hn⟩, n', hn'⟩ := hboth
    have hn := (heldSince_iff hi.locks.oneEach).mp hn
    have hn' := (heldSince_iff hi.locks.oneEach).mp hn'
    exact ⟨hn.1 ▸ hn.2, hn'.1 ▸ hn'.2⟩
  · rw [h, heldSince_grantTable hi.locks.oneEach (by omega) hgrant]
    simp only [true_and]

/-- **Calls that leave the transaction keep what holds of it.** -/
theorem Unrolled.run (h : Unrolled t connection s) {call : LockCall} (hall : call.allowed s)
    (hlvs : call.leaves t) :
    Unrolled t connection (call.run s) where
  inv := run_inv h.inv hall
  live := identity_mem h.inv hall hlvs h.live
  excludes :=
    run_modesExclude h.inv (separates_againstOthers h.inv.identities h.live) h.excludes hall
  closed := by
    rw [transactionMode_eq h.inv hall]
    by_cases hreq : call.requestOf t = true
    · cases call with
      | lockObject u relation mode nowait =>
        obtain rfl : u = t := by simpa [requestOf] using hreq
        rcases heldSince_request h.inv (t := u) with hsame | ⟨-, -, hgrant⟩
        · rintro r m ⟨n, hn⟩
          obtain ⟨n', hn'⟩ := h.closed r m ⟨n, (hsame r m n).mp hn⟩
          exact ⟨n', (hsame _ _ _).mpr hn'⟩
        rintro r m ⟨n, hn⟩
        rcases (hgrant r m n).mp hn with ⟨⟨rfl, hm⟩, -⟩ | ⟨-, hold⟩
        · -- the mode asked for, or its protection: the protection was taken along
          refine ⟨_, (hgrant _ _ _).mpr (.inl ⟨⟨rfl, .inr ?_⟩, rfl⟩)⟩
          rcases hm with rfl | rfl
          · rfl
          · exact protection_protection _ _ _ _
        obtain ⟨n', hn'⟩ := h.closed r m ⟨n, hold⟩
        by_cases hasked : r = relation ∧ (protection s.transactionMode (.transaction u) r m = mode ∨
            protection s.transactionMode (.transaction u) r m =
              protection s.transactionMode (.transaction u) relation mode)
        · exact ⟨_, (hgrant _ _ _).mpr (.inl ⟨hasked, rfl⟩)⟩
        · exact ⟨n', (hgrant _ _ _).mpr (.inr ⟨hasked, hn'⟩)⟩
      | _ => cases hreq
    · rw [Bool.not_eq_true] at hreq
      rintro r m ⟨n, hn⟩
      obtain ⟨n', hn'⟩ := h.closed r m ⟨n, (heldSince_call h.inv hlvs hreq).mp hn⟩
      exact ⟨n', (heldSince_call h.inv hlvs hreq).mpr hn'⟩

end Steps

/-! ## From the mark to the rollback -/

/-- A request after the mark whose protection mode was held at the mark asks for a mode that was
held at the mark; requests that find no sequence number left do not matter. -/
def LockSystem.Spares (t : UInt32) (marked : LockSystem) (call : LockCall) (s : LockSystem) :
    Prop :=
  ∀ relation mode nowait, call = .lockObject t relation mode nowait →
    s.locks.sequence + 1 < 2 ^ 64 →
    marked.locks.Holds (.transaction t) relation
      (protection marked.transactionMode (.transaction t) relation mode) →
    marked.locks.Holds (.transaction t) relation mode

/-- What sparing requests keep, between the mark and the rollback. -/
structure Spared (t : UInt32) (connection : Option Int32) (marked s : LockSystem) : Prop where
  unrolled : Unrolled t connection s
  transactionMode : s.transactionMode = marked.transactionMode
  after : marked.locks.sequence ≤ s.locks.sequence
  kept : ∀ r m n, HeldSince marked.locks.table.items (.transaction t) r m n →
    HeldSince s.locks.table.items (.transaction t) r m n
  added : ∀ r m n, HeldSince s.locks.table.items (.transaction t) r m n →
    HeldSince marked.locks.table.items (.transaction t) r m n ∨ marked.locks.sequence < n
  sparing : ∀ r m, s.locks.Holds (.transaction t) r m → marked.locks.Holds (.transaction t) r
      (protection marked.transactionMode (.transaction t) r m) →
    marked.locks.Holds (.transaction t) r m

section Marked

variable {marked s : LockSystem} {t : UInt32} {connection : Option Int32} {rel : ObjectLockTarget}

/-- At the mark. -/
lemma Spared.refl (h : Unrolled t connection s) : Spared t connection s s where
  unrolled := h
  transactionMode := rfl
  after := le_rfl
  kept _ _ _ := id
  added _ _ _ := .inl
  sparing _ _ hholds _ := hholds

lemma Spared.of_heldSince (h : Spared t connection marked s) {call : LockCall}
    (hall : call.allowed s) (hlvs : call.leaves t)
    (hsame : ∀ r m n, HeldSince (call.run s).locks.table.items (.transaction t) r m n ↔
      HeldSince s.locks.table.items (.transaction t) r m n) :
    Spared t connection marked (call.run s) where
  unrolled := h.unrolled.run hall hlvs
  transactionMode := (transactionMode_eq h.unrolled.inv hall).trans h.transactionMode
  after := h.after.trans (sequence_le h.unrolled.inv hall)
  kept r m n hn := (hsame r m n).mpr (h.kept r m n hn)
  added r m n hn := h.added r m n ((hsame r m n).mp hn)
  sparing := fun r m ⟨n, hn⟩ => h.sparing r m ⟨n, (hsame r m n).mp hn⟩

/-- **Sparing calls keep what was held at the mark.** -/
theorem Spared.run (hmarked : Unrolled t connection marked) (h : Spared t connection marked s)
    {call : LockCall} (hall : call.allowed s) (hlvs : call.leaves t)
    (hspares : Spares t marked call s) : Spared t connection marked (call.run s) := by
  by_cases hreq : call.requestOf t = true
  · cases call with
    | lockObject u relation mode nowait =>
      obtain rfl : u = t := by simpa [requestOf] using hreq
      rcases heldSince_request h.unrolled.inv (t := u) with hsame | ⟨hleft, hnot, hgrant⟩
      · exact h.of_heldSince hall hlvs hsame
      have hspare := hspares relation mode nowait rfl hleft
      rw [h.transactionMode] at hnot hgrant
      have hheld : ∀ m, marked.locks.Holds (.transaction u) relation m →
          s.locks.Holds (.transaction u) relation m := fun m ⟨n, hn⟩ => ⟨n, h.kept _ _ _ hn⟩
      -- neither of the two modes was held at the mark, else both were, and there was no grant
      have hnew : ∀ m, (m = mode ∨
          m = protection marked.transactionMode (.transaction u) relation mode) →
            ¬marked.locks.Holds (.transaction u) relation m := by
        rintro m (rfl | rfl) hmark
        · exact hnot ⟨hheld _ hmark, hheld _ (hmarked.closed relation _ hmark)⟩
        · exact hnot ⟨hheld _ (hspare hmark), hheld _ hmark⟩
      refine ⟨h.unrolled.run hall hlvs, (transactionMode_eq h.unrolled.inv hall).trans
        h.transactionMode,
        h.after.trans (sequence_le h.unrolled.inv hall), ?_, ?_, ?_⟩
      · intro r m n hn
        refine (hgrant r m n).mpr (.inr ⟨?_, h.kept r m n hn⟩)
        rintro ⟨rfl, hm⟩
        exact hnew m hm ⟨n, hn⟩
      · intro r m n hn
        rcases (hgrant r m n).mp hn with ⟨-, rfl⟩ | ⟨-, hold⟩
        · exact .inr (Nat.lt_succ_of_le h.after)
        · exact h.added r m n hold
      rintro r m ⟨n, hn⟩ hprot
      rcases (hgrant r m n).mp hn with ⟨⟨rfl, rfl | rfl⟩, -⟩ | ⟨-, hold⟩
      · exact hspare hprot
      · rwa [protection_protection] at hprot
      · exact h.sparing r m ⟨n, hold⟩ hprot
    | _ => cases hreq
  · rw [Bool.not_eq_true] at hreq
    exact h.of_heldSince hall hlvs fun _ _ _ =>
      heldSince_call h.unrolled.inv hlvs hreq

/-- The rollback restores what was held at the mark. -/
def Restores (t : UInt32) (marked s : LockSystem) : Prop :=
  ∀ r m, (s.rollbackLocksTo t marked.locks.sequence).locks.Holds (.transaction t) r m ↔
    marked.locks.Holds (.transaction t) r m

/-- What a rollback leaves. -/
lemma holds_rollbackLocksTo {mark : ℕ} {r : ObjectLockTarget} {m : TableLockMode} :
    (s.rollbackLocksTo t mark).locks.Holds (.transaction t) r m ↔
      ∃ n, HeldSince s.locks.table.items (.transaction t) r m n ∧ n ≤ mark := by
  constructor
  · rintro ⟨n, hn⟩
    obtain ⟨hheld, hmark⟩ := heldSince_rollbackTable.mp hn
    exact ⟨n, hheld, hmark rfl⟩
  · rintro ⟨n, hheld, hmark⟩
    exact ⟨n, heldSince_rollbackTable.mpr ⟨hheld, fun _ => hmark⟩⟩

/-- **What is spared is restored.** -/
lemma Spared.restores (hmarked : Unrolled t connection marked)
    (h : Spared t connection marked s) : Restores t marked s := by
  intro r m
  rw [holds_rollbackLocksTo]
  constructor
  · rintro ⟨n, hheld, hmark⟩
    rcases h.added r m n hheld with hn | hlt
    · exact ⟨n, hn⟩
    · exact absurd hmark (not_le.mpr hlt)
  rintro ⟨n, hn⟩
  refine ⟨n, h.kept r m n hn, ?_⟩
  obtain ⟨lock, hlock, -, -, hm, -⟩ := hn
  exact hm ▸ hmarked.inv.locks.sequences lock hlock m

/-! ## A request that is not sparing -/

/-- A mode is held since the mark at best, and stays so. -/
structure Lost (t : UInt32) (relation : ObjectLockTarget) (lost : TableLockMode)
    (marked s : LockSystem) :
    Prop where
  inv : s.Inv
  after : marked.locks.sequence ≤ s.locks.sequence
  late :
    ∀ n, HeldSince s.locks.table.items (.transaction t) relation lost n → marked.locks.sequence < n

/-- What is lost stays lost. -/
lemma Lost.run {lost : TableLockMode} (h : Lost t rel lost marked s)
    {call : LockCall} (hall : call.allowed s) (hlvs : call.leaves t) :
    Lost t rel lost marked (call.run s) where
  inv := run_inv h.inv hall
  after := h.after.trans (sequence_le h.inv hall)
  late := by
    by_cases hreq : call.requestOf t = true
    · cases call with
      | lockObject u asked mode nowait =>
        obtain rfl : u = t := by simpa [requestOf] using hreq
        rcases heldSince_request h.inv (t := u) with hsame | ⟨-, -, hgrant⟩
        · exact fun n hn => h.late n ((hsame _ _ n).mp hn)
        intro n hn
        rcases (hgrant _ _ n).mp hn with ⟨-, rfl⟩ | ⟨-, hold⟩
        · exact Nat.lt_succ_of_le h.after
        · exact h.late n hold
      | _ => cases hreq
    · rw [Bool.not_eq_true] at hreq
      exact fun n hn => h.late n ((heldSince_call h.inv hlvs hreq).mp hn)

/-- What is lost is not restored. -/
lemma Lost.not_restores {lost : TableLockMode} (h : Lost t rel lost marked s)
    (hheld : marked.locks.Holds (.transaction t) rel lost) :
    ¬Restores t marked s := by
  intro hrestores
  obtain ⟨n, hn, hle⟩ := holds_rollbackLocksTo.mp ((hrestores rel lost).mpr hheld)
  exact absurd (h.late n hn) (not_lt.mpr hle)

/-- **A request that is not sparing is granted**, and takes the protection mode's number over. -/
theorem Spared.lost (h : Spared t connection marked s) {mode : TableLockMode} {nowait : Bool}
    (hall : (LockCall.lockObject t rel mode nowait).allowed s)
    (hleft : s.locks.sequence + 1 < 2 ^ 64)
    (hprot : marked.locks.Holds (.transaction t) rel
      (protection marked.transactionMode (.transaction t) rel mode))
    (hmode : ¬marked.locks.Holds (.transaction t) rel mode) :
    Lost t rel (protection marked.transactionMode (.transaction t) rel mode) marked
      ((LockCall.lockObject t rel mode nowait).run s) := by
  have hinv := h.unrolled.inv
  have hone := hinv.locks.oneEach
  have hne : protection marked.transactionMode (.transaction t) rel mode ≠ mode :=
    fun heq => hmode (heq ▸ hprot)
  have hrole : invalidRoleLock rel mode = false := by
    cases rel with
    | role oid => exact absurd rfl hne
    | table | view => rfl
  obtain ⟨n, hn⟩ := hprot
  have hheld := h.kept _ _ _ hn
  -- the mode asked for is not held, for every mode taken since the mark was spared
  have hnot : ¬s.locks.Holds (.transaction t) rel mode := fun hholds =>
    hmode (h.sparing rel mode hholds ⟨n, hn⟩)
  have hzero : s.locks.ownModes (.transaction t) rel mode = 0 := by
    by_contra hpos
    exact hnot ⟨_, (heldSince_iff hone).mpr ⟨rfl, hpos⟩⟩
  obtain ⟨lock, hlock, ho, hr, hmode', hpos⟩ := hheld
  have hwait : s.identities.transactionWaitOwner t =
      ActiveTransactionIdentity.waitOwner ⟨t, connection⟩ := by
    have howns := owns_transactionWaitOwner hall
    obtain ⟨a, ha, haid, haw⟩ := howns
    rw [← haw, hinv.identities.eq_of_transactionId ha h.unrolled.live haid]
  -- nothing is in the way: whoever conflicts with the mode conflicts with the protection held
  have hfree : s.locks.objectBlocker (.transaction t) (s.identities.transactionWaitOwner t) rel
      mode (protection marked.transactionMode (.transaction t) rel mode) = none := by
    refine find?_eq_none.mpr fun other hother => ?_
    simp only [Bool.and_eq_true, bne_iff_ne, beq_iff_eq, not_and, Bool.not_eq_true, and_imp]
    intro hw hrel
    rw [hwait] at hw
    have hothers :=
      (waitOwner_eq_iff hinv.identities h.unrolled.live (hinv.locks.table other hother)).mp hw
    have hagainst : ∀ m m', s.locks.Holds (.transaction t) rel m → other.modes m' ≠ 0 →
        modeConflicts m m' = false := by
      intro m m' hholds hm'
      rw [← Bool.not_eq_true]
      exact h.unrolled.excludes _ _ rel m m' (.inl ⟨rfl, hothers⟩) hholds
        ⟨_, other, hother, rfl, hrel, rfl, hm'⟩
    refine objectLockModesConflict_eq_false.mpr fun m m' hm hm' => ?_
    have hm' : other.modes m' ≠ 0 := by simpa [ObjectLock.mask] using hm'
    have hprotection := hagainst _ m' ⟨n, lock, hlock, ho, hr, hmode', hpos⟩ hm'
    simp only [Bool.or_eq_true, beq_iff_eq, bne_iff_ne] at hm
    rcases hm with (rfl | rfl) | hown
    · exact modeConflicts_protection hprotection
    · exact hprotection
    · exact hagainst m m' ⟨_, (heldSince_iff hone).mpr ⟨rfl, hown⟩⟩ hm'
  rw [← h.transactionMode] at hfree ⊢
  have hany : s.locks.table.items.any (ObjectLock.isOwn (.transaction t) rel) :=
    any_eq_true.mpr ⟨lock, hlock, ObjectLock.isOwn_iff.mpr ⟨ho, hr⟩⟩
  obtain ⟨table, hgrant, hrun⟩ := @LockState.lockObjectOwned_granted s.locks s.transactionMode
    (.transaction t) (s.identities.transactionWaitOwner t) rel mode nowait hrole
    (fun hboth => hboth.1 hzero) hfree hleft hany
  refine ⟨run_inv hinv hall, h.after.trans (sequence_le hinv hall), ?_⟩
  intro k hk
  simp only [LockCall.run, LockSystem.lockObject, hrun] at hk
  rcases (heldSince_grantTable hone (by omega) hgrant).mp hk with
    ⟨-, rfl⟩ | ⟨hother, -⟩
  · exact Nat.lt_succ_of_le h.after
  · exact absurd ⟨rfl, rfl, .inr rfl⟩ hother

/-- The run from the mark: the modes are restored exactly when every request is sparing. -/
lemma Spared.restores_iff (hmarked : Unrolled t connection marked) {calls : List LockCall}
    (h : Spared t connection marked s) (hprop : Proper calls s)
    (hlvs : ∀ call ∈ calls, leaves t call) :
    Restores t marked (runAll calls s) ↔ Throughout (Spares t marked) calls s := by
  induction calls generalizing s with
  | nil => exact ⟨fun _ => trivial, fun _ => h.restores hmarked⟩
  | cons call rest ih =>
    obtain ⟨hallowed, hrest⟩ := hprop
    have hcall := hlvs call mem_cons_self
    have hothers : ∀ c ∈ rest, leaves t c :=
      (forall_mem_cons.mp hlvs).2
    by_cases hspares : Spares t marked call s
    · have hiff := ih (h.run hmarked hallowed hcall hspares) hrest hothers
      exact hiff.trans (and_iff_right hspares).symm
    -- the first request that is not sparing: what it takes over stays lost
    refine ⟨fun hrestores => ?_, fun hall => absurd hall.1 hspares⟩
    simp only [Spares, not_forall] at hspares
    obtain ⟨relation, mode, nowait, rfl, hleft, hprot, hmode⟩ := hspares
    have hlost := h.lost hallowed hleft hprot hmode
    have hend :=
      runAll_leaving (fun _ _ hl hallowed hlvs => Lost.run hl hallowed hlvs) hrest hothers hlost
    exact absurd hrestores (hend.not_restores hprot)

end Marked

lemma unrolled_of_none {s : LockSystem} {t : UInt32} (hinv : s.Inv)
    (hlive : ⟨t, conn⟩ ∈ s.identities.active.items)
    (hnone : ∀ r m, ¬s.locks.Holds (.transaction t) r m) : Unrolled t conn s where
  inv := hinv
  live := hlive
  excludes := by
    rintro a b r m m' (⟨rfl, -⟩ | ⟨rfl, -⟩) ha hb
    · exact absurd ha (hnone r m)
    · exact absurd hb (hnone r m')
  closed r m hholds := absurd hholds (hnone r m)

/-- **Rolling back to a mark restores a transaction's relation locks exactly when every request
after the mark, whose protection mode was held at the mark, asked for a mode that was held at the
mark.** The transaction starts without relation locks and makes any requests before and after the
mark, between any calls of others. -/
theorem rollback_restores_iff {s : LockSystem} (hreach : s.Reachable) {t : UInt32}
    (hlive : (s.identities.find t).isSome) (hnone : ∀ r m, ¬s.locks.Holds (.transaction t) r m)
    {before after : List LockCall} (hproper : Proper (before ++ after) s)
    (hleaves : ∀ call ∈ before ++ after, leaves t call = true) :
    Restores t (runAll before s) (runAll (before ++ after) s) ↔
      Throughout (Spares t (runAll before s)) after (runAll before s) := by
  obtain ⟨⟨u, connection⟩, hfound⟩ := Option.isSome_iff_exists.mp hlive
  obtain ⟨hmem, rfl⟩ := find_eq_some hfound
  obtain ⟨hbefore, hafter⟩ := proper_append.mp hproper
  have hmarked := runAll_leaving (fun _ _ h hall hleaves => Unrolled.run h hall hleaves)
    hbefore (fun call hc => hleaves call (mem_append_left _ hc))
    (unrolled_of_none hreach.inv hmem hnone)
  rw [runAll_append]
  exact (Spared.refl hmarked).restores_iff hmarked hafter
    fun call hc => hleaves call (mem_append_right _ hc)

/-! ## A protection mode that is dropped -/

/-- A transaction that excludes others by locking. -/
def lockingSystem : LockSystem := (LockCall.start 1).run (new ⟨4, 8, 8, 8, 4⟩ .locking)

/-- It locks a table for writing. -/
def writeCalls : List LockCall := [.lockObject 1 (.table 0) .rowExclusive false]

/-- After the savepoint it locks the table once more, in a weaker mode. -/
def relockCalls : List LockCall := [.lockObject 1 (.table 0) .rowShare false]

lemma lockingSystem_reachable : lockingSystem.Reachable :=
  ⟨⟨4, 8, 8, 8, 4⟩, .locking, [.start 1], by decide +kernel, rfl⟩

lemma lockingSystem_none (r : ObjectLockTarget) (m : TableLockMode) :
    ¬lockingSystem.locks.Holds (.transaction 1) r m := by
  rintro ⟨n, lock, hlock, -⟩
  have hempty : lockingSystem.locks.table.items.length = 0 := by decide +kernel
  rw [length_eq_zero_iff] at hempty
  cases hlock

lemma writeSystem_inv : (runAll writeCalls lockingSystem).Inv :=
  Reachable.inv ⟨⟨4, 8, 8, 8, 4⟩, .locking, .start 1 :: writeCalls, by decide +kernel, rfl⟩

lemma relockSystem_inv : (runAll (writeCalls ++ relockCalls) lockingSystem).Inv :=
  Reachable.inv
    ⟨⟨4, 8, 8, 8, 4⟩, .locking, .start 1 :: (writeCalls ++ relockCalls), by decide +kernel, rfl⟩

/-- **The rollback drops a mode that was held at the mark**: the writer no longer excludes
others. -/
theorem rollback_drops_protection :
    Proper (writeCalls ++ relockCalls) lockingSystem ∧
      (runAll writeCalls lockingSystem).locks.Holds (.transaction 1) (.table 0) .exclusive ∧
      ¬((runAll (writeCalls ++ relockCalls) lockingSystem).rollbackLocksTo 1
        (runAll writeCalls lockingSystem).locks.sequence).locks.Holds (.transaction 1) (.table 0)
        .exclusive := by
  refine ⟨by decide +kernel, ?_, ?_⟩
  · refine ⟨1, (heldSince_iff writeSystem_inv.locks.oneEach).mpr ⟨?_, by decide⟩⟩
    decide +kernel
  rw [holds_rollbackLocksTo]
  rintro ⟨n, hheld, hle⟩
  obtain ⟨hown, -⟩ := (heldSince_iff relockSystem_inv.locks.oneEach).mp hheld
  have htwo : (runAll (writeCalls ++ relockCalls) lockingSystem).locks.ownModes
      (.transaction 1) (.table 0) .exclusive = 2 := by decide +kernel
  have hone : (runAll writeCalls lockingSystem).locks.sequence = 1 := by decide +kernel
  omega

/-- A lock on another table is sparing. -/
theorem rollback_restores_iff_other_table :
    Restores 1 (runAll writeCalls lockingSystem)
      (runAll (writeCalls ++ [.lockObject 1 (.table 1) .rowExclusive false]) lockingSystem) := by
  refine (rollback_restores_iff lockingSystem_reachable (by decide +kernel) lockingSystem_none
    (by decide +kernel) (by decide)).mpr ⟨?_, trivial⟩
  rintro relation mode nowait hcall - ⟨n, hheld⟩
  obtain ⟨hown, hpos⟩ := (heldSince_iff writeSystem_inv.locks.oneEach).mp hheld
  cases hcall
  have hzero : (runAll writeCalls lockingSystem).locks.ownModes (.transaction 1) (.table 1)
      (protection (runAll writeCalls lockingSystem).transactionMode (.transaction 1)
        (.table 1) .rowExclusive) = 0 := by decide +kernel
  exact absurd (hown.symm.trans hzero) hpos

end Pos3ql
