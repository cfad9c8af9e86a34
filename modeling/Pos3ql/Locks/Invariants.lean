import Pos3ql.Locks.System

/-!
# What holds in every state of the lock system

Every lock stands under a wait owner: that of the live transaction that took it, or that of the
session. Wait owners tell live transactions apart, because a connection runs one at a time and the
names of prepared transactions are those of nobody else. This is what makes the conflict checks,
which compare wait owners, checks between transactions.

* `TransactionIdentityState.Owns`, `Owns.ne`: a live transaction and its wait owner.
* `LockState.Shrinks`, `LockState.Change`: what the calls do to the locks.
* **`LockSystem.Inv`**, `LockCall.run_inv`, `LockSystem.Reachable.inv`: the invariant and its proof.
-/

namespace Pos3ql

open Foundation Relation List AdvisoryLockManager LockManager FixedVec TransactionIdentityState

/-! ## Identities -/

namespace TransactionIdentityState

/-- A live transaction and its wait owner. -/
def Owns (identities : TransactionIdentityState) (transactionId : UInt32) (waitOwner : WaitOwner) :
    Prop :=
  ∃ identity ∈ identities.active.items,
    identity.transactionId = transactionId ∧ identity.waitOwner = waitOwner

/-- Active transactions have been started, once each, and share no connection. -/
structure Sound (identities : TransactionIdentityState) : Prop where
  unique : identities.active.items.Pairwise fun a b => a.transactionId ≠ b.transactionId
  connections : identities.active.items.Pairwise fun a b =>
    ∀ c, a.connectionId = some c → b.connectionId ≠ some c
  started : ∀ identity ∈ identities.active.items, identity.transactionId.toNat ≤ identities.latest

/-- A name that no preparation hands out any more. -/
def Settled (identities : TransactionIdentityState) (waitOwner : WaitOwner) : Prop :=
  ∀ t, waitOwner = preparedWaitOwner t → t.toNat ≤ identities.latest ∧
    ∀ identity ∈ identities.active.items, identity.transactionId = t → identity.connectionId = none

variable {identities : TransactionIdentityState} {t u : UInt32} {w w' : WaitOwner}

section

variable (h : identities.Sound)
include h

/-- A transaction is registered once. -/
lemma Sound.eq_of_transactionId {a b : ActiveTransactionIdentity} (ha : a ∈ identities.active.items)
    (hb : b ∈ identities.active.items) (hab : a.transactionId = b.transactionId) :
    a = b := by
  by_contra hne
  have : Std.Symm fun a b : ActiveTransactionIdentity => a.transactionId ≠ b.transactionId :=
    ⟨fun _ _ h => Ne.symm h⟩
  exact h.unique.forall ha hb hne hab

/-- A connection has one transaction. -/
lemma Sound.eq_of_connectionId {a b : ActiveTransactionIdentity}
    (ha : a ∈ identities.active.items) (hb : b ∈ identities.active.items) {c : Int32}
    (hac : a.connectionId = some c) (hbc : b.connectionId = some c) : a = b := by
  by_contra hne
  have : Std.Symm fun a b : ActiveTransactionIdentity =>
      ∀ c, a.connectionId = some c → b.connectionId ≠ some c :=
    ⟨fun _ _ h c hb ha => h c ha hb⟩
  exact h.connections.forall ha hb hne c hac hbc

omit h in
/-- What is found is registered under the id. -/
lemma find_eq_some {ident : ActiveTransactionIdentity} (h : identities.find t = some ident) :
    ident ∈ identities.active.items ∧ ident.transactionId = t := by
  refine ⟨mem_of_find?_eq_some h, ?_⟩
  simpa using find?_some h

omit h in
/-- A registered transaction owns its wait owner. -/
lemma owns_transactionWaitOwner (h : (identities.find t).isSome) :
    identities.Owns t (identities.transactionWaitOwner t) := by
  obtain ⟨identity, hfound⟩ := Option.isSome_iff_exists.mp h
  obtain ⟨hmem, hid⟩ := find_eq_some hfound
  refine ⟨identity, hmem, hid, ?_⟩
  simp only [transactionWaitOwner, hfound]

/-- **Live transactions have different wait owners.** -/
theorem Owns.ne (ht : identities.Owns t w) (hu : identities.Owns u w') (hne : t ≠ u) : w ≠ w' := by
  obtain ⟨a, ha, rfl, rfl⟩ := ht
  obtain ⟨b, hb, rfl, rfl⟩ := hu
  intro heq
  simp only [ActiveTransactionIdentity.waitOwner] at heq
  rcases hac : a.connectionId with _ | c <;> rcases hbc : b.connectionId with _ | d
  · rw [hac, hbc] at heq
    exact hne (preparedWaitOwner_injective heq)
  · rw [hac, hbc] at heq
    exact connectionWaitOwner_ne_prepared d _ heq.symm
  · rw [hac, hbc] at heq
    exact connectionWaitOwner_ne_prepared c _ heq
  · rw [hac, hbc] at heq
    obtain rfl := connectionWaitOwner_injective heq
    exact hne (congrArg _ (h.eq_of_connectionId ha hb hac hbc))

omit h in
/-- A connection's wait owner is settled. -/
lemma settled_connection (c : Int32) : identities.Settled (connectionWaitOwner c) :=
  fun t heq => absurd heq (connectionWaitOwner_ne_prepared c t)

/-- What is owned is settled. -/
lemma Owns.settled (ht : identities.Owns t w) : identities.Settled w := by
  obtain ⟨a, ha, rfl, rfl⟩ := ht
  intro t heq
  rcases hac : a.connectionId with _ | c
  · simp only [ActiveTransactionIdentity.waitOwner, hac] at heq
    obtain rfl := preparedWaitOwner_injective heq
    refine ⟨h.started a ha, fun b hb hid => ?_⟩
    rw [h.eq_of_transactionId hb ha hid, hac]
  · simp only [ActiveTransactionIdentity.waitOwner, hac] at heq
    exact absurd heq (connectionWaitOwner_ne_prepared c t)

/-- The wait owner of an assigned id is settled. -/
lemma settled_transactionWaitOwner (ht : t.toNat ≤ identities.latest) :
    identities.Settled (identities.transactionWaitOwner t) := by
  rcases hfound : identities.find t with _ | identity
  · simp only [transactionWaitOwner, hfound]
    intro u heq
    obtain rfl := preparedWaitOwner_injective heq
    refine ⟨ht, fun b hb hid => ?_⟩
    exact absurd hid (by simpa using find?_eq_none.mp hfound b hb)
  · exact (owns_transactionWaitOwner (by rw [hfound]; rfl)).settled h

omit h in
/-- A start fails, or registers the next id. -/
lemma start_cases (conn : Int32) :
    (identities.start conn).1 = identities ∨
      ∃ active t, identities.active.push ⟨t, if 0 < conn then some conn else none⟩ = some active ∧
        t.toNat = identities.latest + 1 ∧
        (identities.start conn).1 = ⟨active, identities.latest + 1⟩ := by
  unfold start
  split
  · exact .inl rfl
  unfold next
  split
  · rename_i hnext
    split at hnext
    · cases hnext
    · exact .inl rfl
  rename_i transactionId hnext
  split at hnext
  · rename_i hfits
    have ht : transactionId.toNat = identities.latest + 1 := by
      cases hnext
      exact UInt32.toNat_ofNat_of_lt' hfits
    unfold register
    split
    · exact .inl rfl
    split
    · exact .inl rfl
    rcases hpush : identities.active.push
        ⟨transactionId, if 0 < conn then some conn else none⟩ with _ | active
    · exact .inl rfl
    · refine .inr ⟨active, transactionId, hpush, ht, ?_⟩
      simp only [ht]
      rw [max_eq_right (Nat.le_succ _)]
  · cases hnext

/-- A start keeps the registry sound. -/
lemma start_sound {conn : Int32}
    (hfree : conn ≤ 0 ∨ ∀ identity ∈ identities.active.items, identity.connectionId ≠ some conn) :
    (identities.start conn).1.Sound := by
  rcases start_cases conn with hsame | ⟨active, t, hpush, ht, hstart⟩
  · rwa [hsame]
  rw [hstart]
  refine ⟨?_, ?_, ?_⟩
  · rw [push_items hpush, pairwise_append]
    refine ⟨h.unique, pairwise_singleton _ _, fun a ha b hb heq => ?_⟩
    rw [mem_singleton] at hb
    subst hb
    have hle := h.started a ha
    rw [heq, ht] at hle
    omega
  · rw [push_items hpush, pairwise_append]
    refine ⟨h.connections, pairwise_singleton _ _, fun a ha b hb c hac hbc => ?_⟩
    rw [mem_singleton] at hb
    subst hb
    simp only [Option.ite_none_right_eq_some, Option.some.injEq] at hbc
    obtain ⟨hpos, rfl⟩ := hbc
    rcases hfree with hneg | hfree
    · exact absurd hpos (Int32.not_lt.mpr hneg)
    · exact hfree a ha hac
  · intro identity hmem
    rw [push_items hpush, mem_append, mem_singleton] at hmem
    rcases hmem with hmem | rfl
    · exact (h.started identity hmem).trans (Nat.le_succ _)
    · exact ht.le

omit h in
/-- A start keeps ownership. -/
lemma Owns.start (ht : identities.Owns t w) (conn : Int32) :
    (identities.start conn).1.Owns t w := by
  rcases start_cases conn with hsame | ⟨active, _, hpush, -, hstart⟩
  · rwa [hsame]
  · obtain ⟨a, ha, hid⟩ := ht
    rw [hstart]
    exact ⟨a, by rw [push_items hpush]; exact mem_append_left _ ha, hid⟩

omit h in
/-- A start keeps what is settled. -/
lemma Settled.start (hw : identities.Settled w) (conn : Int32) :
    (identities.start conn).1.Settled w := by
  rcases start_cases conn with hsame | ⟨active, u, hpush, hu, hstart⟩
  · rwa [hsame]
  rw [hstart]
  intro t heq
  obtain ⟨hle, hnone⟩ := hw t heq
  refine ⟨hle.trans (Nat.le_succ _), fun identity hmem hid => ?_⟩
  rw [push_items hpush, mem_append, mem_singleton] at hmem
  rcases hmem with hmem | rfl
  · exact hnone identity hmem hid
  · simp only at hid
    rw [hid] at hu
    omega

/-- The end of a transaction keeps it sound. -/
lemma finish_sound (t : UInt32) : (identities.finish t).Sound := by
  have hsub := eraseFirst_subperm identities.active (·.transactionId == t)
  obtain ⟨kept, hperm, hkept⟩ := hsub
  refine ⟨?_, ?_, fun identity hmem => h.started identity (mem_of_mem_eraseFirst hmem)⟩
  · exact (hperm.pairwise_iff fun {a b} hab => Ne.symm hab).mp (h.unique.sublist hkept)
  · exact (hperm.pairwise_iff fun {a b} hab c hb ha => hab c ha hb).mp (h.connections.sublist hkept)

omit h in
/-- It keeps the others' ownership. -/
lemma Owns.finish (hu : identities.Owns u w) (hne : u ≠ t) : (identities.finish t).Owns u w := by
  obtain ⟨a, ha, rfl, rfl⟩ := hu
  exact ⟨a, mem_eraseFirst_of_not ha (by simpa using hne), rfl, rfl⟩

omit h in
/-- It keeps what is settled. -/
lemma Settled.finish (hw : identities.Settled w) (t : UInt32) :
    (identities.finish t).Settled w := by
  intro u heq
  obtain ⟨hle, hnone⟩ := hw u heq
  exact ⟨hle, fun identity hmem => hnone identity (mem_of_mem_eraseFirst hmem)⟩

/-- A detached transaction has no connection. -/
lemma detach_items (t : UInt32) :
    (identities.detach t).active.items = identities.active.items.map fun identity =>
      if identity.transactionId == t then { identity with connectionId := none } else identity := by
  refine modifyFirst_eq_map _ _ (h.unique.imp fun {a b} hab hboth => hab ?_)
  simp only [beq_iff_eq] at hboth
  exact hboth.1.trans hboth.2.symm

/-- Otherwise the registry is the same. -/
lemma mem_detach {t : UInt32} {ident : ActiveTransactionIdentity}
    (hmem : ident ∈ (identities.detach t).active.items) :
    ∃ before ∈ identities.active.items, ident.transactionId = before.transactionId ∧
      (ident.connectionId = none ∨ ident = before) := by
  rw [detach_items h, mem_map] at hmem
  obtain ⟨before, hbefore, rfl⟩ := hmem
  refine ⟨before, hbefore, ?_⟩
  split
  · exact ⟨rfl, .inl rfl⟩
  · exact ⟨rfl, .inr rfl⟩

/-- Detaching keeps the registry sound. -/
lemma detach_sound (t : UInt32) : (identities.detach t).Sound := by
  refine ⟨?_, ?_, fun identity hmem => ?_⟩
  · rw [detach_items h, pairwise_map]
    refine h.unique.imp fun {a b} hab => ?_
    split <;> split <;> exact hab
  · rw [detach_items h, pairwise_map]
    refine h.connections.imp fun {a b} hab c hac hbc => ?_
    split at hac
    · cases hac
    · split at hbc
      · cases hbc
      · exact hab c hac hbc
  · obtain ⟨before, hbefore, hid, -⟩ := mem_detach h hmem
    rw [hid]
    exact h.started before hbefore

/-- It keeps the others' ownership. -/
lemma Owns.detach (hu : identities.Owns u w) (hne : u ≠ t) : (identities.detach t).Owns u w := by
  obtain ⟨a, ha, rfl, rfl⟩ := hu
  refine ⟨a, ?_, rfl, rfl⟩
  rw [detach_items h, mem_map]
  exact ⟨a, ha, by simp [hne]⟩

/-- The detached transaction waits as a prepared one. -/
lemma owns_detach (ht : identities.Owns t w) :
    (identities.detach t).Owns t (preparedWaitOwner t) := by
  obtain ⟨a, ha, rfl, -⟩ := ht
  refine ⟨{ a with connectionId := none }, ?_, rfl, rfl⟩
  rw [detach_items h, mem_map]
  exact ⟨a, ha, by simp⟩

/-- Detaching keeps what is settled. -/
lemma Settled.detach (hw : identities.Settled w) (t : UInt32) :
    (identities.detach t).Settled w := by
  intro u heq
  obtain ⟨hle, hnone⟩ := hw u heq
  refine ⟨hle, fun identity hmem hid => ?_⟩
  obtain ⟨before, hbefore, hsame, hconn | rfl⟩ := mem_detach h hmem
  · exact hconn
  · exact hnone _ hbefore hid

/-- The wait owner of a relation lock's owner. -/
def OwnsObject (identities : TransactionIdentityState) (owner : ObjectLockOwner)
    (waitOwner : WaitOwner) : Prop :=
  match owner with
  | .transaction t => identities.Owns t waitOwner
  | .session c _ => waitOwner = connectionWaitOwner c

/-- The wait owner of an advisory lock's owner. -/
def OwnsAdvisory (identities : TransactionIdentityState) (owner : AdvisoryOwner)
    (waitOwner : WaitOwner) : Prop :=
  match owner with
  | .transaction t => identities.Owns t waitOwner
  | .session c => waitOwner = connectionWaitOwner c

/-- The owner of an object lock is settled. -/
lemma OwnsObject.settled {owner : ObjectLockOwner}
    (ho : identities.OwnsObject owner w) : identities.Settled w := by
  cases owner with
  | transaction t => exact Owns.settled h ho
  | session c _ => exact (show w = connectionWaitOwner c from ho) ▸ settled_connection c

/-- The owner of an advisory lock is settled. -/
lemma OwnsAdvisory.settled {owner : AdvisoryOwner}
    (ho : identities.OwnsAdvisory owner w) : identities.Settled w := by
  cases owner with
  | transaction t => exact Owns.settled h ho
  | session c => exact (show w = connectionWaitOwner c from ho) ▸ settled_connection c

end

end TransactionIdentityState

/-! ## What the calls do to the locks -/

/-- Relation locks were removed or weakened. -/
def TableShrinks (before after : List ObjectLock) : Prop :=
  ∀ kept ∈ after, ∃ lock ∈ before, kept.owner = lock.owner ∧ kept.waitOwner = lock.waitOwner ∧
    kept.relation = lock.relation ∧ ∀ m, kept.modes m = 0 ∨ kept.modes m = lock.modes m

/-- Row locks were removed or weakened. -/
def RowsShrink (before after : List RowLock) : Prop :=
  ∀ kept ∈ after, ∃ lock ∈ before, kept.table = lock.table ∧ kept.rowid = lock.rowid ∧
    kept.owner = lock.owner ∧ kept.waitOwner = lock.waitOwner ∧
    ∀ s, kept.modes s ≠ 0 → lock.modes s ≠ 0

/-- Fewer object locks. -/
lemma TableShrinks.of_subset {bef after : List ObjectLock} (h : after ⊆ bef) :
    TableShrinks bef after :=
  fun kept hkept => ⟨kept, h hkept, rfl, rfl, rfl, fun _ => .inr rfl⟩

/-- Fewer row locks. -/
lemma RowsShrink.of_subset {bef after : List RowLock} (h : after ⊆ bef) : RowsShrink bef after :=
  fun kept hkept => ⟨kept, h hkept, rfl, rfl, rfl, rfl, fun _ hs => hs⟩

namespace LockState

/-- Locks and waits were removed or weakened, and nothing was added. -/
structure Shrinks (before after : LockState) : Prop where
  table : TableShrinks before.table.items after.table.items
  oneEach : OneEach before.table.items → OneEach after.table.items
  rows : RowsShrink before.row.locks.items after.row.locks.items
  advisory : ∀ o w k md, after.advisory.Holds o w k md → before.advisory.Holds o w k md
  waits : after.row.waits.items.Subperm before.row.waits.items
  sequence : before.sequence ≤ after.sequence

/-- Fewer locks are still one for each owner. -/
lemma oneEach_of_subperm {bef after : List ObjectLock} (h : OneEach bef)
    (hsub : after.Subperm bef) : OneEach after := by
  obtain ⟨kept, hperm, hkept⟩ := hsub
  refine (hperm.pairwise_iff fun {a b} hab hba => ?_).mp (h.sublist hkept)
  exact hab ⟨hba.1.symm, hba.2.symm⟩

section Shrinking

variable {locks : LockState}

/-- Nothing is given up. -/
lemma Shrinks.refl (locks : LockState) : Shrinks locks locks where
  table := .of_subset (List.Subset.refl _)
  oneEach := id
  rows := .of_subset (List.Subset.refl _)
  advisory _ _ _ _ := id
  waits := .refl _
  sequence := le_rfl

/-- Fewer object locks and waits. -/
lemma shrinks_table {table : FixedVec ObjectLock} {row : LockManager}
    (htable : table.items.Subperm locks.table.items) (hrow : OnlyUnwaits locks.row row) :
    Shrinks locks { locks with table, row } where
  table := .of_subset htable.subset
  oneEach h := oneEach_of_subperm h htable
  rows := .of_subset (by rw [hrow.locks]; exact List.Subset.refl _)
  advisory _ _ _ _ := id
  waits := hrow.waits
  sequence := le_rfl

/-- Fewer advisory locks and waits. -/
lemma shrinks_advisory {advisory : AdvisoryLockManager} {row : LockManager}
    (hadv : ∀ o w k md, advisory.Holds o w k md → locks.advisory.Holds o w k md)
    (hrow : OnlyUnwaits locks.row row) :
    Shrinks locks { locks with advisory, row } where
  table := .of_subset (List.Subset.refl _)
  oneEach := id
  rows := .of_subset (by rw [hrow.locks]; exact List.Subset.refl _)
  advisory := hadv
  waits := hrow.waits
  sequence := le_rfl

/-- A removal gives locks up. -/
lemma shrinks_removeObjects (gone : ObjectLock → Bool) (wo : WaitOwner) :
    Shrinks locks (locks.removeObjects gone wo) := by
  refine shrinks_table (removeAll_subperm locks.table gone) ?_
  split
  · exact onlyUnwaits_resourceReleased _ _
  · exact .refl _

/-- So does dropping a hold. -/
lemma shrinks_dropTableHold (conn : Int32) (acquisition table : ℕ) :
    Shrinks locks (locks.dropTableHold conn acquisition table) := by
  unfold dropTableHold
  split
  · exact .refl _
  · exact shrinks_table (eraseFirst_subperm _ _) (onlyUnwaits_resourceReleased _ _)

/-- A rollback leaves one lock for each owner. -/
lemma oneEach_rollback {table : FixedVec ObjectLock} (h : OneEach table.items) (t : UInt32)
    (mark : ℕ) : OneEach (table.sweep (rollbackObject t mark)).1.items := by
  have hsymm : ∀ {a b : ObjectLock}, ¬(a.owner = b.owner ∧ a.relation = b.relation) →
      ¬(b.owner = a.owner ∧ b.relation = a.relation) :=
    fun hab hba => hab ⟨hba.1.symm, hba.2.symm⟩
  refine ((sweep_perm table _).pairwise_iff hsymm).mpr ?_
  rw [pairwise_filterMap]
  refine h.imp fun {a b} hab a' ha' b' hb' heq => hab ?_
  obtain ⟨hao, -, har, -⟩ := rollbackObject_eq_some ha'
  obtain ⟨hbo, -, hbr, -⟩ := rollbackObject_eq_some hb'
  exact ⟨hao.symm.trans (heq.1.trans hbo), har.symm.trans (heq.2.trans hbr)⟩

/-- It only takes object locks away. -/
lemma tableShrinks_rollback (table : FixedVec ObjectLock) (t : UInt32) (mark : ℕ) :
    TableShrinks table.items (table.sweep (rollbackObject t mark)).1.items := by
  intro kept hkept
  obtain ⟨lock, hlock, hstep⟩ := mem_sweep.mp hkept
  obtain ⟨ho, hw, hr, hmodes⟩ := rollbackObject_eq_some hstep
  refine ⟨lock, hlock, ho, hw, hr, fun m => ?_⟩
  rw [hmodes m]
  split
  · exact .inl rfl
  · exact .inr rfl

/-- It only takes row locks away. -/
lemma rowsShrink_rollback (locks : FixedVec RowLock) (t : UInt32) (mark : ℕ) :
    RowsShrink locks.items (locks.sweep (rollbackLock t mark)).1.items := by
  intro kept hkept
  obtain ⟨lock, hlock, hstep⟩ := mem_sweep.mp hkept
  exact ⟨lock, hlock, rollbackLock_eq_some hstep⟩

/-- A rollback gives locks up and takes none. -/
lemma shrinks_rollbackLocksTo (t : UInt32) (wo : WaitOwner) (mark : ℕ) :
    Shrinks locks (locks.rollbackLocksTo t wo mark) := by
  -- the waits: first those of the row registry, then those of the advisory one, then the woken
  have hrows : (locks.row.rollbackTo t wo mark).locks =
      (locks.row.locks.sweep (rollbackLock t mark)).1 :=
    rollbackTo_locks wo mark
  have hadv :=
    @AdvisoryLockManager.onlyUnwaits_removeLocks locks.advisory (locks.row.rollbackTo t wo mark)
    (fun lock => lock.owner == .transaction t && decide (mark < lock.acquiredAt)) wo
  have hrow : OnlyUnwaits (locks.row.rollbackTo t wo mark)
      (locks.rollbackLocksTo t wo mark).row := by
    simp only [rollbackLocksTo]
    split
    · exact hadv.trans (onlyUnwaits_resourceReleased _ _)
    · exact hadv
  exact
    { table := tableShrinks_rollback locks.table t mark
      oneEach := fun h => oneEach_rollback h t mark
      rows := by
        rw [hrow.locks, hrows]
        exact rowsShrink_rollback locks.row.locks t mark
      advisory := fun _ _ _ _ h =>
        @AdvisoryLockManager.removeLocks_holds _ (locks.row.rollbackTo t wo mark) _ _ _ _ _ _ h
      waits := hrow.waits.trans (rollbackTo_waits t wo mark)
      sequence := le_rfl }

end Shrinking

/-- What the calls do to the locks, with the identities as they are. -/
inductive Change (transactionMode : TransactionMode) (identities : TransactionIdentityState) :
    LockState → LockState → Prop
  | shrinks {locks after : LockState} (h : Shrinks locks after) :
      Change transactionMode identities locks after
  | lockObject (locks : LockState) (owner : ObjectLockOwner) (waitOwner : WaitOwner)
      (relation : ObjectLockTarget) (mode : TableLockMode) (nowait : Bool)
      (h : identities.OwnsObject owner waitOwner) :
      Change transactionMode identities locks
        (locks.lockObjectOwned transactionMode owner waitOwner relation mode nowait).1
  | lockRow (locks : LockState) (table rowid : ℕ) (t : UInt32) (waitOwner : WaitOwner)
      (strength : LockStrength) (mode : LockWait) (sequence : ℕ) (h : identities.Owns t waitOwner) :
      Change transactionMode identities locks
        { locks with
          row := (locks.row.acquire table rowid t waitOwner strength mode sequence).1 }
  | lockAdvisory (locks : LockState) (key : AdvisoryKey) (owner : AdvisoryOwner)
      (waitOwner : WaitOwner) (mode : AdvisoryMode) (tryOnly : Bool) (sequence : ℕ)
      (h : identities.OwnsAdvisory owner waitOwner) :
      Change transactionMode identities locks
        { locks with
          advisory :=
            (locks.advisory.acquire key owner waitOwner mode tryOnly sequence locks.row).1.1
          row := (locks.advisory.acquire key owner waitOwner mode tryOnly sequence locks.row).1.2 }
  | wait (locks : LockState) (waiter blocker : WaitOwner) (hwaiter : identities.Settled waiter)
      (hblocker : identities.Settled blocker) :
      Change transactionMode identities locks
        { locks with row := (locks.row.setWait waiter blocker).1 }

/-! ## The invariant -/

/-- **What holds of the locks**, given the identities. -/
structure Inv (identities : TransactionIdentityState) (locks : LockState) : Prop where
  table : ∀ lock ∈ locks.table.items, identities.OwnsObject lock.owner lock.waitOwner
  oneEach : OneEach locks.table.items
  sequences : ∀ lock ∈ locks.table.items, ∀ m, lock.modes m ≤ locks.sequence
  rows : ∀ lock ∈ locks.row.locks.items, identities.Owns lock.owner lock.waitOwner
  advisory : ∀ o w k md, locks.advisory.Holds o w k md → identities.OwnsAdvisory o w
  waits : locks.row.WaitsSound
  settled : ∀ x y, locks.row.WaitsFor x y → identities.Settled x ∧ identities.Settled y

section Keeping

variable {tm : TransactionMode} {identities : TransactionIdentityState} {locks after : LockState}
  {wo : WaitOwner}

/-- The identities change, and nobody who holds a lock or waits loses the name it has. -/
lemma Inv.of_identities {now : TransactionIdentityState} {P : UInt32 → Prop}
    (hi : locks.Inv identities) (howns : ∀ {u w}, P u → identities.Owns u w → now.Owns u w)
    (hsettled : ∀ {x}, identities.Settled x → now.Settled x)
    (htable : ∀ lock ∈ locks.table.items, ∀ u, lock.owner = .transaction u → P u)
    (hrows : ∀ lock ∈ locks.row.locks.items, P lock.owner)
    (hadv : ∀ o w k md, locks.advisory.Holds o w k md → ∀ u, o = .transaction u → P u) :
    locks.Inv now := by
  refine { hi with table := ?_, rows := ?_, advisory := ?_, settled := ?_ }
  · intro lock hlock
    have howner := hi.table lock hlock
    cases hown : lock.owner with
    | session c a => rwa [hown] at howner
    | transaction u =>
      rw [hown] at howner
      exact howns (htable lock hlock u hown) howner
  · intro lock hlock
    exact howns (hrows lock hlock) (hi.rows lock hlock)
  · intro o w k md h
    have howner := hi.advisory o w k md h
    cases o with
    | session c => exact howner
    | transaction u => exact howns (hadv _ w k md h u rfl) howner
  · intro x y hxy
    exact (hi.settled x y hxy).imp hsettled hsettled

/-- **Giving up locks keeps the invariant.** -/
lemma Shrinks.inv (h : Shrinks locks after) (hi : locks.Inv identities) : after.Inv identities where
  table kept hkept := by
    obtain ⟨lock, hlock, ho, hw, -⟩ := h.table kept hkept
    rw [ho, hw]
    exact hi.table lock hlock
  oneEach := h.oneEach hi.oneEach
  sequences kept hkept m := by
    obtain ⟨lock, hlock, -, -, -, hmodes⟩ := h.table kept hkept
    have hle := (hi.sequences lock hlock m).trans h.sequence
    rcases hmodes m with hm | hm <;> omega
  rows kept hkept := by
    obtain ⟨lock, hlock, -, -, ho, hw, -⟩ := h.rows kept hkept
    rw [ho, hw]
    exact hi.rows lock hlock
  advisory o w k md hholds := hi.advisory o w k md (h.advisory o w k md hholds)
  waits := hi.waits.of_subperm h.waits
  settled x y hxy := hi.settled x y (h.waits.subset hxy)

/-- A wait of settled owners keeps it. -/
lemma Inv.setWait (hi : locks.Inv identities) {waiter blocker : WaitOwner}
    (hwaiter : identities.Settled waiter) (hblocker : identities.Settled blocker) :
    Inv identities { locks with row := (locks.row.setWait waiter blocker).1 } where
  table := hi.table
  oneEach := hi.oneEach
  sequences := hi.sequences
  rows lock hlock := hi.rows lock (setWait_locks (m := locks.row) waiter blocker ▸ hlock)
  advisory := hi.advisory
  waits := setWait_sound hi.waits waiter blocker
  settled x y hxy := by
    rcases setWait_waitsFor hi.waits hxy with hold | ⟨rfl, rfl⟩
    · exact hi.settled x y hold
    · exact ⟨hwaiter, hblocker⟩

section

variable (hids : identities.Sound)
include hids

/-- An object lock keeps it. -/
lemma Inv.lockObjectOwned (hi : locks.Inv identities)
    {owner : ObjectLockOwner} (ho : identities.OwnsObject owner wo)
    (rel : ObjectLockTarget) (mode : TableLockMode) (nowait : Bool) :
    Inv identities (locks.lockObjectOwned tm owner wo rel mode nowait).1 := by
  rcases @lockObjectOwned_cases locks tm owner wo rel mode nowait with
    h | ⟨lock, hlock, h⟩ | h | ⟨table, h, -, hgrant, -, -⟩
  · rwa [h]
  · rw [h]
    exact hi.setWait (ho.settled hids) ((hi.table lock hlock).settled hids)
  · rw [h]
    exact { hi with sequences :=
      fun lock hlock m => (hi.sequences lock hlock m).trans (Nat.le_succ _) }
  rw [h]
  obtain ⟨hone, hmem⟩ := grantTable_spec hi.oneEach hgrant
  have hold : ∀ lock ∈ locks.table.items, ∀ m, lock.modes m ≤ locks.sequence + 1 :=
    fun lock hlock m => (hi.sequences lock hlock m).trans (Nat.le_succ _)
  refine { hi with table :=
    fun lock hlock => ?_, oneEach := hone, sequences := fun lock hlock m => ?_ }
  · rcases (hmem lock).mp hlock with ⟨hlock, -⟩ | ⟨own, hown, -, rfl⟩ | ⟨-, rfl⟩
    · exact hi.table lock hlock
    · exact hi.table own hown
    · exact ho
  rcases (hmem lock).mp hlock with ⟨hlock, -⟩ | ⟨own, hown, -, rfl⟩ | ⟨-, rfl⟩
  · exact hold lock hlock m
  · simp only
    split
    · exact le_rfl
    · exact hold own hown m
  · simp only
    split
    · exact le_rfl
    · exact zero_le

/-- A row lock keeps it. -/
lemma Inv.acquireRow (hi : locks.Inv identities) {t : UInt32} (ho : identities.Owns t wo)
    (table rowid : ℕ) (str : LockStrength) (mode : LockWait) (seq : ℕ) :
    Inv identities { locks with
      row := (locks.row.acquire table rowid t wo str mode seq).1 } := by
  have hrows : ∀ lock ∈ (locks.row.acquire table rowid t wo str mode
      seq).1.locks.items, identities.Owns lock.owner lock.waitOwner := by
    intro lock hlock
    rcases mem_acquire hlock with ⟨was, hwas, hown, hwait⟩ | ⟨hown, hwait⟩
    · rw [hown, hwait]
      exact hi.rows was hwas
    · rw [hown, hwait]
      exact ho
  rcases @LockManager.acquire_waits locks.row table rowid t wo str mode seq with
    hsub | ⟨lock, hlock, hset⟩
  · exact
      { table := hi.table
        oneEach := hi.oneEach
        sequences := hi.sequences
        rows := hrows
        advisory := hi.advisory
        waits := hi.waits.of_subperm hsub
        settled := fun x y hxy => hi.settled x y (hsub.subset hxy) }
  · rw [hset]
    exact hi.setWait (ho.settled hids) ((hi.rows lock hlock).settled hids)

/-- An advisory lock keeps it. -/
lemma Inv.acquireAdvisory (hi : locks.Inv identities)
    {owner : AdvisoryOwner} (ho : identities.OwnsAdvisory owner wo)
    (key : AdvisoryKey) (mode : AdvisoryMode) (tr : Bool) (seq : ℕ) :
    Inv identities { locks with
      advisory := (locks.advisory.acquire key owner wo mode tr seq locks.row).1.1
      row := (locks.advisory.acquire key owner wo mode tr seq locks.row).1.2 } := by
  have hholds : ∀ o w k md,
      (locks.advisory.acquire key owner wo mode tr seq locks.row).1.1.Holds o w k md →
        identities.OwnsAdvisory o w := by
    intro o w k md h
    rcases acquire_holds h with hold | ⟨⟨rfl, rfl, -, -⟩, -⟩
    · exact hi.advisory o w k md hold
    · exact ho
  rcases @AdvisoryLockManager.acquire_waitGraph locks.advisory locks.row key owner wo mode
      tr seq with hunwaits | ⟨lock, hlock, hset⟩
  · exact
      { table := hi.table
        oneEach := hi.oneEach
        sequences := hi.sequences
        rows := fun lock hlock => hi.rows lock (hunwaits.locks ▸ hlock)
        advisory := hholds
        waits := hi.waits.of_subperm hunwaits.waits
        settled := fun x y hxy => hi.settled x y (hunwaits.waits.subset hxy) }
  · have hset' := hi.setWait (ho.settled hids)
      ((hi.advisory _ _ _ _ ⟨lock, hlock, rfl, rfl, rfl, rfl⟩).settled hids)
    rw [hset]
    exact { hset' with advisory := hholds }

/-- **Every change keeps the invariant.** -/
theorem Change.inv (h : Change tm identities locks after)
    (hi : locks.Inv identities) : after.Inv identities := by
  cases h with
  | shrinks h => exact h.inv hi
  | lockObject owner waitOwner relation mode nowait h => exact hi.lockObjectOwned hids h _ _ _
  | lockRow table rowid t waitOwner strength mode sequence h => exact hi.acquireRow hids h _ _ _ _ _
  | lockAdvisory key owner waitOwner mode tryOnly sequence h =>
    exact hi.acquireAdvisory hids h _ _ _ _
  | wait waiter blocker hwaiter hblocker => exact hi.setWait hwaiter hblocker

end

end Keeping

end LockState

/-! ## Every call keeps the invariant -/

/-- **What holds of the lock system.** -/
structure LockSystem.Inv (s : LockSystem) : Prop where
  identities : s.identities.Sound
  locks : s.locks.Inv s.identities

/-- A call that neither starts nor ends nor prepares a transaction. -/
def LockCall.steady : LockCall → Bool
  | .start _ | .finish _ | .prepare _ => false
  | _ => true

section Calls

variable {s : LockSystem} {ids : TransactionIdentityState}

/-- The counter gives nothing up. -/
lemma LockState.shrinks_sequence (locks : LockState) :
    LockState.Shrinks locks { locks with sequence := locks.sequence + 1 } :=
  { LockState.Shrinks.refl locks with sequence := Nat.le_succ _ }

/-- The counter is used up, or goes on by one. -/
lemma LockState.nextSequence_cases (locks : LockState) :
    (∃ e, locks.nextSequence = (locks, .error e)) ∨ locks.nextSequence =
        ({ locks with sequence := locks.sequence + 1 }, .ok (locks.sequence + 1)) := by
  unfold LockState.nextSequence
  split
  · exact .inr rfl
  · exact .inl ⟨_, rfl⟩

/-- Replay states hold no locks. -/
lemma shrinks_replayOnly {advisory : AdvisoryLockManager}
    (h : advisory.locks = s.locks.advisory.locks) :
    LockState.Shrinks s.locks { s.locks with advisory } :=
  LockState.shrinks_advisory (fun _ _ _ _ hholds => hholds.congr h) (.refl _)

/-- A new statement keeps the advisory locks. -/
lemma beginStatement_locks (m : AdvisoryLockManager) (conn : Int32) :
    (m.beginStatement conn).1.locks = m.locks := by
  unfold AdvisoryLockManager.beginStatement
  split
  · split <;> rfl
  · split <;> rfl

/-- **What a steady call does**: the identities stay, and the locks change step by step. -/
theorem LockCall.changes (hi : s.Inv) {call : LockCall} (hall : call.allowed s)
    (hsteady : call.steady) :
    (call.run s).identities = s.identities ∧ (call.run s).transactionMode = s.transactionMode ∧
      ReflTransGen (LockState.Change s.transactionMode s.identities) s.locks
        (call.run s).locks := by
  cases call with
  | start | finish | prepare => cases hsteady
  | lockObject t relation mode nowait =>
    have ho := owns_transactionWaitOwner hall
    exact ⟨rfl, rfl, .single (.lockObject s.locks (.transaction t) _ relation mode nowait ho)⟩
  | holdTable t table visible =>
    simp only [run, LockSystem.holdTableAcrossCommits]
    split
    · exact ⟨rfl, rfl, .refl⟩
    rename_i connection hfound
    split
    · rcases s.locks.nextSequence_cases with ⟨e, hseq⟩ | hseq
      · rw [hseq]
        exact ⟨rfl, rfl, .refl⟩
      · rw [hseq]
        refine ⟨rfl, rfl, .head (.shrinks s.locks.shrinks_sequence) (.single ?_)⟩
        exact .lockObject _ (.session connection _) _ _ _ _ rfl
    · exact ⟨rfl, rfl, .refl⟩
  | dropTableHold connection acquisition table =>
    exact ⟨rfl, rfl, .single (.shrinks (LockState.shrinks_dropTableHold _ _ _))⟩
  | lockRow t table rowid strength mode =>
    simp only [run, LockSystem.acquireRowLock]
    rcases s.locks.nextSequence_cases with ⟨e, hseq⟩ | hseq
    · rw [hseq]
      exact ⟨rfl, rfl, .refl⟩
    rw [hseq]
    refine ⟨rfl, rfl, .head (.shrinks s.locks.shrinks_sequence) (.single ?_)⟩
    exact .lockRow _ table rowid t _ strength mode _ (owns_transactionWaitOwner hall)
  | lockAdvisory connectionId t key mode transactionScope tryOnly =>
    simp only [run, LockSystem.acquireAdvisoryLock]
    split
    · exact ⟨rfl, rfl, .refl⟩
    rcases s.locks.nextSequence_cases with ⟨e, hseq⟩ | hseq
    · rw [hseq]
      exact ⟨rfl, rfl, .refl⟩
    rw [hseq]
    refine ⟨rfl, rfl, .head (.shrinks s.locks.shrinks_sequence) (.single ?_)⟩
    refine .lockAdvisory _ key _ _ mode tryOnly _ ?_
    cases transactionScope with
    | false => rfl
    | true =>
      -- a transaction takes advisory locks on its own connection
      simp only [allowed, Bool.not_true, Bool.false_or, Option.any_eq_true, beq_iff_eq]
        at hall
      obtain ⟨identity, hfound, hconn⟩ := hall
      obtain ⟨hmem, hid⟩ := find_eq_some hfound
      refine ⟨identity, hmem, hid, ?_⟩
      simp only [ActiveTransactionIdentity.waitOwner, hconn]
  | unlockAdvisory connectionId key mode =>
    refine ⟨rfl, rfl, .single (.shrinks (LockState.shrinks_advisory (fun _ _ _ _ h => ?_) ?_))⟩
    · exact unlockSession_holds h
    · exact (unlockSession_cases _).1
  | unlockAllAdvisory connectionId =>
    refine ⟨rfl, rfl, .single (.shrinks (LockState.shrinks_advisory (fun _ _ _ _ h => ?_) ?_))⟩
    · exact unlockAllSession_holds h
    · exact (unlockAllSession_cases _).1
  | beginStatement connectionId =>
    exact ⟨rfl, rfl, .single (.shrinks (shrinks_replayOnly (beginStatement_locks _ _)))⟩
  | preserveStatement connectionId =>
    exact ⟨rfl, rfl, .single (.shrinks (shrinks_replayOnly rfl))⟩
  | cancelStatement connectionId =>
    refine ⟨rfl, rfl, .single (.shrinks (LockState.shrinks_advisory (fun _ _ _ _ h => h) ?_))⟩
    exact onlyUnwaits_clearWait _ _
  | waitForTransaction waiter blocker =>
    simp only [allowed, Bool.and_eq_true, decide_eq_true_eq] at hall
    refine ⟨rfl, rfl, .single (.wait s.locks _ _ ?_ ?_)⟩
    · exact (owns_transactionWaitOwner hall.1).settled hi.identities
    · exact settled_transactionWaitOwner hi.identities hall.2
  | waitForConnection waiter connectionId =>
    refine ⟨rfl, rfl, .single (.wait s.locks _ _ ?_ ?_)⟩
    · exact (owns_transactionWaitOwner hall).settled hi.identities
    · exact settled_connection connectionId
  | wakeTransactionWaiters t =>
    refine ⟨rfl, rfl, .single (.shrinks (LockState.shrinks_table (.refl _) ?_))⟩
    exact onlyUnwaits_resourceReleased _ _
  | finishPublication owner =>
    refine ⟨rfl, rfl, .single (.shrinks (LockState.shrinks_table (.refl _) ?_))⟩
    exact ⟨publicationFinished_locks owner, publicationFinished_waits owner⟩
  | rollbackLocksTo t mark =>
    exact ⟨rfl, rfl, .single (.shrinks (LockState.shrinks_rollbackLocksTo _ _ _))⟩
  | releaseConnection connectionId =>
    refine ⟨rfl, rfl,
      .head (.shrinks ?_) (.single (.shrinks (LockState.shrinks_removeObjects _ _)))⟩
    refine LockState.shrinks_advisory (fun o w k md h => ?_) ?_
    · have hdropped : (s.locks.advisory.dropConnection connectionId).Holds o w k md :=
        unlockAllSession_holds h
      exact hdropped.congr rfl
    · exact (unlockAllSession_cases _).1

/-- What every change keeps, given the invariant, holds after any number of changes. -/
lemma LockState.Inv.of_changes {tm : TransactionMode}
    {locks after : LockState} {P : LockState → Prop}
    (hids : ids.Sound)
    (hstep : ∀ l l', LockState.Inv ids l → LockState.Change tm ids l l' → P l → P l')
    (h : ReflTransGen (LockState.Change tm ids) locks after)
    (hi : locks.Inv ids) (hp : P locks) : after.Inv ids ∧ P after := by
  induction h with
  | refl => exact ⟨hi, hp⟩
  | tail _ hchange ih => exact ⟨hchange.inv hids ih.1, hstep _ _ ih.1 hchange ih.2⟩

/-- The end of a transaction gives up all its locks. -/
lemma shrinks_finishTransaction (t : UInt32) :
    LockState.Shrinks s.locks (s.finishTransaction t).locks ∧
      (∀ lock ∈ (s.finishTransaction t).locks.table.items, lock.owner ≠ .transaction t) ∧
      (∀ lock ∈ (s.finishTransaction t).locks.row.locks.items, lock.owner ≠ t) ∧
      ∀ o w k md, (s.finishTransaction t).locks.advisory.Holds o w k md → o ≠ .transaction t := by
  simp only [LockSystem.finishTransaction, LockSystem.releaseTransactionLocks]
  generalize hw : (s.identities.finish t).transactionWaitOwner t = waitOwner
  have hobjects := @LockState.shrinks_removeObjects s.locks (·.owner == .transaction t) waitOwner
  have hkept : (s.locks.releaseObjectLocks t waitOwner).row.locks = s.locks.row.locks := by
    simp only [LockState.releaseObjectLocks, LockState.removeObjects]
    split
    · exact resourceReleased_locks waitOwner
    · rfl
  have hadv :=
    @AdvisoryLockManager.onlyUnwaits_removeLocks (s.locks.releaseObjectLocks t waitOwner).advisory
    ((s.locks.releaseObjectLocks t waitOwner).row.release t waitOwner) (·.owner == .transaction t)
    waitOwner
  have hrows : ((s.locks.releaseObjectLocks t waitOwner).advisory.releaseTransaction t waitOwner
      ((s.locks.releaseObjectLocks t waitOwner).row.release t waitOwner)).2.locks =
        (s.locks.row.locks.removeAll (·.owner == t)).1 := by
    refine hadv.locks.trans ?_
    rw [release_locks, hkept]
  have hheld : ∀ o w k md,
      ((s.locks.releaseObjectLocks t waitOwner).advisory.releaseTransaction t waitOwner
        ((s.locks.releaseObjectLocks t waitOwner).row.release t waitOwner)).1.Holds o w k md →
        s.locks.advisory.Holds o w k md ∧ o ≠ .transaction t :=
    fun _ _ _ _ h => releaseTransaction_holds h
  refine ⟨⟨hobjects.table, hobjects.oneEach, ?_, fun o w k md h => ?_, ?_, le_rfl⟩, ?_, ?_, ?_⟩
  · rw [hrows]
    exact .of_subset (removeAll_subperm _ _).subset
  · exact (hheld o w k md h).1
  · exact (hadv.waits.trans (release_waits t waitOwner)).trans hobjects.waits
  · intro lock hlock
    simpa using (mem_removeAll.mp hlock).2
  · intro lock hlock
    rw [hrows] at hlock
    simpa using (mem_removeAll.mp hlock).2
  · intro o w k md h
    exact (hheld o w k md h).2

/-- It keeps the invariant. -/
lemma LockSystem.Inv.finishTransaction (hi : s.Inv) (t : UInt32) : (s.finishTransaction t).Inv := by
  obtain ⟨hshrinks, htable, hrows, hadv⟩ := shrinks_finishTransaction (s := s) t
  refine ⟨finish_sound hi.identities t, ?_⟩
  refine (hshrinks.inv hi.locks).of_identities (P := (· ≠ t)) (fun hne hu => hu.finish hne)
    (·.finish t) ?_ hrows ?_
  · rintro lock hlock u hown rfl
    exact htable lock hlock hown
  · rintro o w k md h u rfl rfl
    exact hadv _ w k md h rfl

/-- So does a start. -/
lemma LockSystem.Inv.startTransaction (hi : s.Inv) {connectionId : Int32}
    (hallowed : (LockCall.start connectionId).allowed s) :
    (s.startTransaction connectionId).1.Inv := by
  have hfree : connectionId ≤ 0 ∨
      ∀ identity ∈ s.identities.active.items, identity.connectionId ≠ some connectionId := by
    simpa [LockCall.allowed] using hallowed
  refine ⟨start_sound hi.identities hfree, ?_⟩
  exact hi.locks.of_identities (P := fun _ => True) (fun _ hu => hu.start _) (·.start _)
    (fun _ _ _ _ => trivial) (fun _ _ => trivial) fun _ _ _ _ _ _ _ => trivial

/-! ## Preparing a transaction -/

/-- What a preparation finds: no such transaction, one without a backend, or one that gives its
locks a name of their own. -/
lemma prepare_cases (t : UInt32) :
    (s.identities.find t = none ∧ s.prepareTransactionLocks t = s) ∨
      ∃ identity, s.identities.find t = some identity ∧ (identity.waitOwner = preparedWaitOwner t ∧
            s.prepareTransactionLocks t = { s with identities := s.identities.detach t } ∨
          identity.waitOwner ≠ preparedWaitOwner t ∧ s.prepareTransactionLocks t = { s with
                identities := s.identities.detach t
                locks := { s.locks with
                  table := s.locks.table.updateWhere (·.owner == .transaction t) fun lock =>
                    { lock with waitOwner := preparedWaitOwner t }
                  row := (s.locks.row.resourceReleased identity.waitOwner).rebindWaitOwner
                    identity.waitOwner (preparedWaitOwner t)
                  advisory := s.locks.advisory.rebindTransactionWaitOwner t identity.waitOwner
                    (preparedWaitOwner t) } }) := by
  unfold LockSystem.prepareTransactionLocks
  rcases hfound : s.identities.find t with _ | identity
  · exact .inl ⟨rfl, rfl⟩
  refine .inr ⟨identity, rfl, ?_⟩
  by_cases hsame : identity.waitOwner = preparedWaitOwner t
  · exact .inl ⟨hsame, by simp only [hsame, if_true]⟩
  · exact .inr ⟨hsame, by simp only [if_neg hsame]⟩

/-- A registered transaction has one wait owner. -/
lemma TransactionIdentityState.Owns.eq_waitOwner
    (h : ids.Sound) {t : UInt32} {w : WaitOwner} (ht : ids.Owns t w)
    {ident : ActiveTransactionIdentity} (hfound : ids.find t = some ident) :
    w = ident.waitOwner := by
  obtain ⟨hmem, hid⟩ := find_eq_some hfound
  obtain ⟨a, ha, haid, rfl⟩ := ht
  rw [h.eq_of_transactionId ha hmem (haid.trans hid.symm)]

/-- After a detachment a transaction stands under the name it is prepared with; the others under
their own. -/
lemma TransactionIdentityState.Owns.after_detach
    (h : ids.Sound) {t u : UInt32} {w : WaitOwner} (hu : ids.Owns u w)
    {ident : ActiveTransactionIdentity} (hfound : ids.find t = some ident) :
    (ids.detach t).Owns u (if w = ident.waitOwner then preparedWaitOwner t else w) ∧
      (w = ident.waitOwner ↔ u = t) := by
  obtain ⟨hmem, hid⟩ := find_eq_some hfound
  have hiff : w = ident.waitOwner ↔ u = t := by
    constructor
    · intro hw
      by_contra hne
      exact hu.ne h ⟨ident, hmem, hid, rfl⟩ hne hw
    · rintro rfl
      exact hu.eq_waitOwner h hfound
  refine ⟨?_, hiff⟩
  by_cases hut : u = t
  · subst hut
    rw [if_pos (hiff.mpr rfl)]
    exact owns_detach h hu
  · rw [if_neg (mt hiff.mp hut)]
    exact hu.detach h hut

/-- Preparing keeps the invariant. -/
lemma LockSystem.Inv.prepareTransactionLocks (hi : s.Inv) (t : UInt32) :
    (s.prepareTransactionLocks t).Inv := by
  rcases prepare_cases (s := s) t with ⟨-, h⟩ | ⟨identity, hfound, ⟨hsame, h⟩ | ⟨hdiff, h⟩⟩
  · rwa [h]
  · -- no backend: the name stays
    rw [h]
    have howns : ∀ {u w}, s.identities.Owns u w → (s.identities.detach t).Owns u w := by
      intro u w hu
      have := (hu.after_detach hi.identities hfound).1
      rw [← hsame] at this
      by_cases hw : w = identity.waitOwner
      · rwa [if_pos hw, ← hw] at this
      · rwa [if_neg hw] at this
    refine ⟨detach_sound hi.identities t, ?_⟩
    exact hi.locks.of_identities (P := fun _ => True) (fun _ hu => howns hu)
      (·.detach hi.identities t) (fun _ _ _ _ => trivial) (fun _ _ => trivial)
      fun _ _ _ _ _ _ _ => trivial
  rw [h]
  obtain ⟨hmem, hid⟩ := find_eq_some hfound
  have hown : s.identities.Owns t identity.waitOwner := ⟨identity, hmem, hid, rfl⟩
  have hsound := detach_sound hi.identities t
  have hprepared := owns_detach hi.identities hown
  -- nobody waits under the new name, for it is that of a transaction with a backend
  have hfresh : ∀ x, s.identities.Settled x → x ≠ preparedWaitOwner t := by
    rintro x hx rfl
    have hnone := (hx t rfl).2 identity hmem hid
    exact hdiff (by simp only [ActiveTransactionIdentity.waitOwner, hnone, hid])
  have hreleased := WaitsSound.of_subperm hi.locks.waits
    (resourceReleased_subperm (m := s.locks.row) identity.waitOwner)
  have hwaits : ∀ x y, (s.locks.row.resourceReleased identity.waitOwner).WaitsFor x y →
      s.identities.Settled x ∧ s.identities.Settled y := fun x y hxy =>
    hi.locks.settled x y ((resourceReleased_subperm identity.waitOwner).subset hxy)
  refine ⟨hsound, ?_, ?_, ?_, ?_, ?_, ?_, ?_⟩
  · intro lock hlock
    obtain ⟨was, hwas, rfl⟩ := mem_map.mp hlock
    have howner := hi.locks.table was hwas
    by_cases hmine : was.owner = .transaction t
    · simp only [hmine, beq_self_eq_true]
      exact hprepared
    have hother : (was.owner == .transaction t) = false := by simpa using hmine
    simp only [hother, Bool.false_eq_true, if_false]
    cases howned : was.owner with
    | session c a => rwa [howned] at howner
    | transaction u =>
      rw [howned] at howner hmine
      exact Owns.detach hi.identities howner fun heq =>
        hmine (heq ▸ rfl)
  · simp only [LockState.OneEach, updateWhere, pairwise_map]
    refine hi.locks.oneEach.imp fun {a b} hab => ?_
    split <;> split <;> exact hab
  · intro lock hlock m
    obtain ⟨was, hwas, rfl⟩ := mem_map.mp hlock
    have hle := hi.locks.sequences was hwas m
    split <;> exact hle
  · intro lock hlock
    obtain ⟨was, hwas, rfl⟩ := mem_map.mp hlock
    rw [resourceReleased_locks] at hwas
    have howner := ((hi.locks.rows was hwas).after_detach hi.identities hfound).1
    by_cases hw : was.waitOwner = identity.waitOwner
    · simpa [hw] using howner
    · simpa [hw] using howner
  · rintro o w k md ⟨lock, hlock, rfl, rfl, -, -⟩
    obtain ⟨was, hwas, rfl⟩ := mem_map.mp hlock
    have howner := hi.locks.advisory _ _ _ _ ⟨was, hwas, rfl, rfl, rfl, rfl⟩
    cases howned : was.owner with
    | session c =>
      rw [howned] at howner
      simpa [howned, OwnsAdvisory] using howner
    | transaction u =>
      rw [howned] at howner
      obtain ⟨hafter, hiff⟩ :=
        Owns.after_detach hi.identities howner hfound
      by_cases hw : was.waitOwner = identity.waitOwner
      · obtain rfl := hiff.mp hw
        simpa [howned, hw, OwnsAdvisory] using hafter
      · have hut : u ≠ t := mt hiff.mpr hw
        simpa [howned, hw, hut, OwnsAdvisory] using hafter
  · refine rebindWaitOwner_sound hreleased fun x y hxy => ?_
    exact ⟨hfresh x (hwaits x y hxy).1, hfresh y (hwaits x y hxy).2⟩
  · intro x y hxy
    simp only [WaitsFor, rebindWaitOwner, updateWhere, if_true, mem_map] at hxy
    obtain ⟨edge, hedge, heq⟩ := hxy
    cases heq
    obtain ⟨hx, hy⟩ := hwaits edge.waiter edge.blocker hedge
    constructor
    · split
      · exact hprepared.settled hsound
      · exact hx.detach hi.identities t
    · split
      · exact hprepared.settled hsound
      · exact hy.detach hi.identities t

/-- **Every allowed call keeps the invariant.** -/
theorem LockCall.run_inv (hi : s.Inv) {call : LockCall} (hall : call.allowed s) :
    (call.run s).Inv := by
  by_cases hsteady : call.steady = true
  · obtain ⟨hids, -, hchgs⟩ := call.changes hi hall hsteady
    have hlocks := LockState.Inv.of_changes (P := fun _ => True) hi.identities
      (fun _ _ _ _ hp => hp) hchgs hi.locks trivial
    exact ⟨hids ▸ hi.identities, hids ▸ hlocks.1⟩
  cases call with
  | start connectionId => exact hi.startTransaction hall
  | finish t => exact hi.finishTransaction t
  | prepare t => exact hi.prepareTransactionLocks t
  | _ => exact absurd rfl hsteady

end Calls

/-! ## Runs -/

namespace LockSystem

/-- One run after another. -/
lemma runAll_append (calls calls' : List LockCall) (s : LockSystem) :
    runAll (calls ++ calls') s = runAll calls' (runAll calls s) := foldl_append

/-- Proper runs joined. -/
lemma proper_append {calls calls' : List LockCall} {s : LockSystem} :
    Proper (calls ++ calls') s ↔ Proper calls s ∧ Proper calls' (runAll calls s) := by
  induction calls generalizing s with
  | nil => exact (and_iff_right trivial).symm
  | cons call rest ih => exact (and_congr_right fun _ => ih).trans and_assoc.symm

/-- **What every allowed call keeps, every run keeps.** -/
lemma Proper.induct {P : LockSystem → Prop}
    (hstep : ∀ s call, P s → LockCall.allowed call s → P (call.run s)) {calls : List LockCall}
    {s : LockSystem} (hprop : Proper calls s) (hs : P s) :
    P (runAll calls s) := by
  induction calls generalizing s with
  | nil => exact hs
  | cons call rest ih => exact ih hprop.2 (hstep s call hs hprop.1)

/-- The new system meets the invariant. -/
lemma new_inv (limits : LockLimits) (tm : TransactionMode) : (new limits tm).Inv where
  identities := ⟨.nil, .nil, nofun⟩
  locks :=
    { table := fun _ h => nomatch h
      oneEach := .nil
      sequences := nofun
      rows := nofun
      advisory := fun _ _ _ _ ⟨_, h, _⟩ => nomatch h
      waits := ⟨.nil, acyclic_empty.mono nofun⟩
      settled := fun _ _ h => nomatch h }

/-- **The invariant holds in every state reached.** -/
theorem Reachable.inv {s : LockSystem} (h : s.Reachable) : s.Inv := by
  obtain ⟨limits, tm, calls, hprop, rfl⟩ := h
  exact hprop.induct (fun _ _ hi hall => LockCall.run_inv hi hall) (new_inv limits tm)

end LockSystem

end Pos3ql
