import Pos3ql.Locks.Conflicts
import Pos3ql.Locks.PreparedLocks

/-!
# What a prepared transaction holds

* `roleLocks_runAll`: in every run whose callers keep to the rules for roles, role locks are of a
  kind that can be restored.
* `HeldLock`, `inventory`: what a transaction holds, as a list; `mem_inventory_object` and its
  companions relate it to the abstract views of the three registries.
* `LockNames.Resolves`: names are found again. **`lockRecords_eq`**: what is written is the
  inventory.

Source: `storage/mod.rs` (`encode_transaction_locks`), `storage/catalog_sources.rs`.
-/

namespace Pos3ql

open Foundation List LockState

/-! ## Role locks -/

/-- What the callers of `lock_object` see to: roles have role identities, and the bootstrap role is
locked in one mode only. Source: `role_reference_ready`, `lock_role_memberships`,
`lock_role_for_drop`. -/
def LockCall.lawful : LockCall → Bool
  | .lockObject _ (.role oid) mode _ =>
    (parseRoleOid oid).isSome && (oid != bootstrapRole || mode == .shareUpdateExclusive)
  | _ => true

/-- A role can be locked in a mode. -/
def RoleMode (oid : ℕ) (mode : TableLockMode) : Prop :=
  (parseRoleOid oid).isSome = true ∧ validRoleMode mode = true ∧
    (oid = bootstrapRole → mode = .shareUpdateExclusive)

/-- Role locks are of the modes roles have. -/
def LockState.RoleLocks (locks : LockState) : Prop :=
  ∀ owner oid mode, locks.Holds owner (.role oid) mode → RoleMode oid mode

section Roles

variable {s : LockSystem}

lemma LockState.holds_lockObjectOwned {locks : LockState} {tm : TransactionMode}
    {owner o : ObjectLockOwner} {wo : WaitOwner} {rel r : ObjectLockTarget}
    {mode m : TableLockMode} {nowait : Bool} (hone : OneEach locks.table.items)
    (h : (locks.lockObjectOwned tm owner wo rel mode nowait).1.Holds o r m) :
    locks.Holds o r m ∨ (r = rel ∧ invalidRoleLock rel mode = false ∧
      (m = mode ∨ m = protection tm owner rel mode)) := by
  rcases hrole : invalidRoleLock rel mode with _ | _
  · obtain ⟨n, hheld⟩ := h
    rcases @lockObjectOwned_cases locks tm owner wo rel mode nowait with
      hsame | ⟨lock, -, hwait⟩ | hseq | ⟨table, hafter, -, hgrant, -⟩
    · rw [hsame] at hheld
      exact .inl ⟨n, hheld⟩
    · rw [hwait] at hheld
      exact .inl ⟨n, hheld⟩
    · rw [hseq] at hheld
      exact .inl ⟨n, hheld⟩
    rw [hafter] at hheld
    rcases (heldSince_grantTable hone (by omega) hgrant).mp hheld with
      ⟨⟨-, hr, hm⟩, -⟩ | ⟨-, hold⟩
    · exact .inr ⟨hr, rfl, hm⟩
    · exact .inl ⟨n, hold⟩
  · unfold lockObjectOwned at h
    rw [if_pos hrole] at h
    exact .inl h

/-- **Every call keeps role locks what they are.** Calls that are no requests leave the table of
locks alone or remove from it. -/
theorem LockCall.run_roleLocks (hi : s.Inv) (hroles : s.locks.RoleLocks) {call : LockCall}
    (hlawful : call.lawful) : (call.run s).locks.RoleLocks := by
  have hkept : ∀ after : LockState, after.table = s.locks.table → after.RoleLocks :=
    fun after heq owner oid mode ⟨n, h⟩ => hroles owner oid mode ⟨n, heq ▸ h⟩
  have hshrinks : ∀ after : LockState, Shrinks s.locks after → after.RoleLocks :=
    fun after h owner oid mode hheld => hroles owner oid mode (h.holds hheld)
  cases call with
  | lockObject t relation mode nowait =>
    intro owner oid m hheld
    rcases holds_lockObjectOwned hi.locks.oneEach hheld with hold | ⟨rfl, hvalid, hm⟩
    · exact hroles owner oid m hold
    have hmode : m = mode := by
      rcases hm with rfl | rfl
      · rfl
      · rfl
    subst hmode
    simp only [lawful, Bool.and_eq_true, Bool.or_eq_true, bne_iff_ne, beq_iff_eq] at hlawful
    refine ⟨hlawful.1, ?_, fun hboot => hlawful.2.resolve_left fun hne => hne hboot⟩
    simpa [invalidRoleLock] using hvalid
  | holdTable t table visible =>
    simp only [run, LockSystem.holdTableAcrossCommits]
    split
    · exact hroles
    split
    · rename_i connection _ _
      simp only [nextSequence]
      split
      · rename_i hseq
        split at hseq <;> cases hseq
        exact hroles
      rename_i hseq
      split at hseq <;> cases hseq
      intro owner oid m hheld
      have hone : LockState.OneEach
          ({ s.locks with sequence := s.locks.sequence + 1 } : LockState).table.items :=
        hi.locks.oneEach
      rcases holds_lockObjectOwned hone hheld with hold | ⟨hr, -⟩
      · exact hroles owner oid m hold
      · cases hr
    · exact hroles
  | dropTableHold connection acquisition table =>
    exact hshrinks _ (shrinks_dropTableHold connection acquisition table)
  | rollbackLocksTo t mark => exact hshrinks _ (shrinks_rollbackLocksTo t _ mark)
  | finish t => exact hshrinks _ (shrinks_finishTransaction t).1
  | prepare t =>
    rintro owner oid mode ⟨n, h⟩
    exact hroles owner oid mode ⟨n, heldSince_prepare.mp h⟩
  | releaseConnection connectionId =>
    intro owner oid mode hheld
    refine hroles owner oid mode ?_
    obtain ⟨n, lock, hlock, hrest⟩ := hheld
    exact ⟨n, lock, (FixedVec.removeAll_subperm _ _).subset hlock, hrest⟩
  | lockRow t table rowid strength mode =>
    refine hkept _ ?_
    simp only [run, LockSystem.acquireRowLock, nextSequence]
    split
    · rfl
    · rename_i hseq
      split at hseq <;> cases hseq
      rfl
  | lockAdvisory connectionId t key mode transactionScope tryOnly =>
    refine hkept _ ?_
    simp only [run, LockSystem.acquireAdvisoryLock, nextSequence]
    split
    · rfl
    split
    · rfl
    · rename_i hseq
      split at hseq <;> cases hseq
      rfl
  | _ => exact hkept _ rfl

/-- **Role locks in a run.** -/
theorem LockSystem.roleLocks_runAll {calls : List LockCall} (hi : s.Inv)
    (hroles : s.locks.RoleLocks) (hprop : LockSystem.Proper calls s)
    (hlawful : ∀ call ∈ calls, call.lawful) : (LockSystem.runAll calls s).locks.RoleLocks := by
  induction calls generalizing s with
  | nil => exact hroles
  | cons call calls ih =>
    obtain ⟨hall, hrest⟩ := hprop
    exact ih (LockCall.run_inv hi hall)
      (LockCall.run_roleLocks hi hroles (hlawful call mem_cons_self)) hrest
      (forall_mem_cons.mp hlawful).2

end Roles

/-! ## What a transaction holds -/

/-- One mode of one lock. -/
inductive HeldLock
  | object (relation : ObjectLockTarget) (mode : TableLockMode)
  | row (table : UInt32) (rowid : ℕ) (strength : LockStrength)
  | advisory (key : AdvisoryKey) (mode : AdvisoryMode)
  deriving DecidableEq, Repr

/-- **All that a transaction holds**, in the order in which it is written. -/
def LockState.inventory (locks : LockState) (t : UInt32) : List HeldLock :=
  (locks.table.items.filter (·.owner == .transaction t)).flatMap (fun lock =>
      (TableLockMode.all.filter lock.mask).map (.object lock.relation)) ++
    ((locks.row.locks.items.filter (·.owner == t)).flatMap (fun lock =>
        (LockStrength.all.filter (modesMask lock.modes)).map (.row lock.table lock.rowid)) ++
      (locks.advisory.locks.items.filter (·.owner == .transaction t)).map fun lock =>
        .advisory lock.key lock.mode)

section Inventory

variable {locks : LockState} {t : UInt32}

lemma mem_inventory_object {rel : ObjectLockTarget} {mode : TableLockMode} :
    .object rel mode ∈ locks.inventory t ↔ locks.Holds (.transaction t) rel mode := by
  simp only [inventory, mem_append, mem_flatMap, mem_map, mem_filter, TableLockMode.mem_all,
    true_and, HeldLock.object.injEq, reduceCtorEq, and_false, exists_false, or_false, beq_iff_eq,
    Holds, HeldSince]
  constructor
  · rintro ⟨lock, ⟨hlock, ho⟩, m, hm, hr, rfl⟩
    exact ⟨_, lock, hlock, ho, hr, rfl, by simpa [ObjectLock.mask] using hm⟩
  · rintro ⟨n, lock, hlock, ho, hr, hm, hn⟩
    exact ⟨lock, ⟨hlock, ho⟩, mode, by simpa [ObjectLock.mask, hm] using hn, hr, rfl⟩

lemma mem_inventory_row {table : UInt32} {rowid : ℕ} {strength : LockStrength} :
    .row table rowid strength ∈ locks.inventory t ↔ locks.row.Holds t (table, rowid) strength := by
  simp only [inventory, mem_append, mem_flatMap, mem_map, mem_filter,
    LockStrength.mem_all, HeldLock.row.injEq, reduceCtorEq, and_false, exists_false,
    or_false, false_or, beq_iff_eq, LockManager.Holds, Prod.mk.injEq]
  constructor
  · rintro ⟨lock, ⟨hlock, ho⟩, st, hst, ht, hr, rfl⟩
    exact ⟨lock, hlock, ⟨ht, hr⟩, ho, by simpa [modesMask] using hst⟩
  · rintro ⟨lock, hlock, ⟨ht, hr⟩, ho, hst⟩
    exact ⟨lock, ⟨hlock, ho⟩, strength, by simpa [modesMask] using hst, ht, hr, rfl⟩

lemma mem_inventory_advisory {key : AdvisoryKey} {mode : AdvisoryMode} :
    .advisory key mode ∈ locks.inventory t ↔
      ∃ w, locks.advisory.Holds (.transaction t) w key mode := by
  simp only [inventory, mem_append, mem_flatMap, mem_map, mem_filter, HeldLock.advisory.injEq,
    reduceCtorEq,
    and_false, exists_false, false_or, beq_iff_eq, AdvisoryLockManager.Holds]
  constructor
  · rintro ⟨lock, ⟨hlock, ho⟩, hk, hm⟩
    exact ⟨lock.waitOwner, lock, hlock, ho, rfl, hk, hm⟩
  · rintro ⟨w, lock, hlock, ho, -, hk, hm⟩
    exact ⟨lock, ⟨hlock, ho⟩, hk, hm⟩

end Inventory

/-! ## Names -/

/-- **Names resolve to the same objects**: what the transaction locked has a name, and the name is
found again; a row number is a 64-bit number. -/
structure LockNames.Resolves (names : LockNames) (locks : LockState) (t : UInt32) : Prop where
  table : ∀ slot mode, locks.Holds (.transaction t) (.table slot) mode →
    ∃ schema name, names.tableName slot = some (schema, name) ∧
      names.findVisible schema name = some slot
  view : ∀ slot mode, locks.Holds (.transaction t) (.view slot) mode →
    ∃ schema name, names.viewName slot = some (schema, name) ∧
      names.viewSlot schema name = some slot
  row : ∀ slot rowid strength, locks.row.Holds t (slot, rowid) strength →
    (∃ schema name, names.tableName slot.toNat = some (schema, name) ∧
      names.findVisible schema name = some slot.toNat) ∧ rowid < 2 ^ 64

/-- The record of a lock. -/
def LockNames.record (names : LockNames) : HeldLock → LockRecord
  | .object (.table slot) mode =>
    ⟨0, mode.index, 0, ((names.tableName slot).getD ([], [])).1,
      ((names.tableName slot).getD ([], [])).2⟩
  | .object (.view slot) mode =>
    ⟨3, mode.index, 0, ((names.viewName slot).getD ([], [])).1,
      ((names.viewName slot).getD ([], [])).2⟩
  | .object (.role oid) mode => ⟨4, mode.index, oid, [], []⟩
  | .row table rowid strength =>
    ⟨1, strength.index, rowid, ((names.tableName table.toNat).getD ([], [])).1,
      ((names.tableName table.toNat).getD ([], [])).2⟩
  | .advisory key mode => ⟨2, (advisoryIndex key.objectSubId mode).getD 0, key.packed, [], []⟩

section Names

variable {names : LockNames} {locks : LockState} {t : UInt32}

lemma objectRecords_eq (hnames : names.Resolves locks t) {lock : ObjectLock}
    (hlock : lock ∈ locks.table.items) (ho : lock.owner = .transaction t) :
    objectRecords names lock =
      ((TableLockMode.all.filter lock.mask).map (HeldLock.object lock.relation)).map
        names.record := by
  have hheld : ∀ m ∈ TableLockMode.all.filter lock.mask,
      locks.Holds (.transaction t) lock.relation m := by
    intro m hm
    exact ⟨_, lock, hlock, ho, rfl, rfl, by simpa [ObjectLock.mask] using (mem_filter.mp hm).2⟩
  rw [map_map]
  unfold objectRecords
  rcases hrelation : lock.relation with slot | slot | oid
  · rcases hmodes : TableLockMode.all.filter lock.mask with _ | ⟨m, modes⟩
    · simp only
      split <;> rfl
    have hm := hheld m (hmodes ▸ mem_cons_self ..)
    rw [hrelation] at hm
    obtain ⟨schema, name, hname, -⟩ := hnames.table slot m hm
    simp [hname, LockNames.record]
  · rcases hmodes : TableLockMode.all.filter lock.mask with _ | ⟨m, modes⟩
    · simp only
      split <;> rfl
    have hm := hheld m (hmodes ▸ mem_cons_self ..)
    rw [hrelation] at hm
    obtain ⟨schema, name, hname, -⟩ := hnames.view slot m hm
    simp [hname, LockNames.record]
  · rfl

lemma rowRecords_eq (hnames : names.Resolves locks t) {lock : RowLock}
    (hlock : lock ∈ locks.row.locks.items) (ho : lock.owner = t) :
    rowRecords names lock = ((LockStrength.all.filter (modesMask lock.modes)).map
      (HeldLock.row lock.table lock.rowid)).map names.record := by
  unfold rowRecords
  rcases hmodes : LockStrength.all.filter (modesMask lock.modes) with _ | ⟨st, strengths⟩
  · split <;> rfl
  have hst := hmodes ▸ mem_cons_self ..
  have hheld : locks.row.Holds t (lock.table, lock.rowid) st :=
    ⟨lock, hlock, rfl, ho, by simpa [modesMask] using (mem_filter.mp hst).2⟩
  obtain ⟨⟨schema, name, hname, -⟩, -⟩ := hnames.row _ _ _ hheld
  simp [hname, LockNames.record]

/-- **What is written is the inventory**, when it can be written. -/
theorem lockRecords_eq (hnames : names.Resolves locks t) {written : List LockRecord}
    (h : lockRecords names locks t = written.map .ok) :
    written = (locks.inventory t).map names.record ∧
      ∀ key mode, HeldLock.advisory key mode ∈ locks.inventory t →
        (advisoryIndex key.objectSubId mode).isSome := by
  have hadv : ∀ lock ∈ locks.advisory.locks.items.filter (·.owner == .transaction t),
      ∃ r, advisoryRecord lock = .ok r := by
    intro lock hlock
    have hmem : advisoryRecord lock ∈ written.map (Except.ok (ε := SqlError)) := by
      rw [← h]
      exact mem_append_right _ (mem_append_right _ (mem_map_of_mem hlock))
    obtain ⟨r, -, hr⟩ := mem_map.mp hmem
    exact ⟨r, hr.symm⟩
  have hindex : ∀ lock ∈ locks.advisory.locks.items.filter (·.owner == .transaction t),
      ∃ index, advisoryIndex lock.key.objectSubId lock.mode = some index := by
    intro lock hlock
    obtain ⟨r, hr⟩ := hadv lock hlock
    unfold advisoryRecord at hr
    split at hr
    · cases hr
    · rename_i index hindex
      exact ⟨index, hindex⟩
  constructor
  · have hsame : lockRecords names locks t = ((locks.inventory t).map names.record).map .ok := by
      unfold lockRecords inventory
      simp only [map_append, map_flatMap, map_map]
      congr 1
      · refine flatMap_congr fun lock hlock => ?_
        obtain ⟨hmem, ho⟩ := mem_filter.mp hlock
        rw [objectRecords_eq hnames hmem (by simpa using ho), map_map, map_map]
        rfl
      congr 1
      · refine flatMap_congr fun lock hlock => ?_
        obtain ⟨hmem, ho⟩ := mem_filter.mp hlock
        rw [rowRecords_eq hnames hmem (by simpa using ho), map_map, map_map]
        rfl
      · refine map_congr_left fun lock hlock => ?_
        obtain ⟨index, hi⟩ := hindex lock hlock
        simp [advisoryRecord, LockNames.record, hi]
    rw [h] at hsame
    exact map_injective_iff.mpr (fun _ _ heq => Except.ok.inj heq) hsame
  · intro key mode hmem
    obtain ⟨w, lock, hlock, ho, -, rfl, rfl⟩ := mem_inventory_advisory.mp hmem
    obtain ⟨index, hi⟩ := hindex lock (mem_filter.mpr ⟨hlock, by simpa using ho⟩)
    rw [hi]
    rfl

end Names

end Pos3ql
