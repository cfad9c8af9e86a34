import Pos3ql.Locks.PreparedInventory

/-!
# Prepared locks are taken again

* `RebuiltTable`, `RebuiltRows`, `RebuiltKeys`: a registry after some of an inventory was taken
  again; each with the request that takes one more.
* `Rebuilt`: the three together; **`rebuilt_restoreLock`** for one record and **`rebuilt_stepAll`**
  for all of them.
* **`prepared_locks_restored`**.

A transaction whose savepoint was rolled back may hold a mode without the mode that protects it;
taking its locks again takes the protection too. And since the inventory has no count, an inventory
cut between two records is accepted as a shorter one.

Source: `storage/mod.rs` (`restore_transaction_locks`).
-/

namespace Pos3ql

open Foundation List AdvisoryLockManager LockState LockNames

/-! ## Relation locks -/

/-- The table of relation locks, when some modes were taken again. -/
def RebuiltTable (transactionMode : TransactionMode) (t : UInt32) (w : WaitOwner)
    (done : List HeldLock) : FixedVec ObjectLock → Prop :=
  FixedVec.Granted ObjectLock.relation
    (fun lock => lock.owner = .transaction t ∧ lock.waitOwner = w)
    (fun lock mode => lock.modes mode ≠ 0)
    fun relation mode => ∃ m, .object relation m ∈ done ∧
      (mode = m ∨ mode = protection transactionMode (.transaction t) relation m)

section Table

variable {tm : TransactionMode} {t : UInt32} {w : WaitOwner} {done : List HeldLock}
  {table : FixedVec ObjectLock} {relation : ObjectLockTarget} {mode : TableLockMode}

section

variable (h : RebuiltTable tm t w done table)
include h

lemma RebuiltTable.oneEach : OneEach table.items := by
  have hne := pairwise_map.mp h.once
  exact hne.imp fun hab heq => hab heq.2

omit h in
lemma RebuiltTable.objectBlocker {locks : LockState} {protecting : TableLockMode}
    (h : RebuiltTable tm t w done locks.table) :
    locks.objectBlocker (.transaction t) w relation mode protecting = none := by
  refine find?_eq_none.mpr fun lock hlock => ?_
  simp [(h.mine lock hlock).1.2]

lemma RebuiltTable.holds_iff :
    (∃ n, HeldSince table.items (.transaction t) relation mode n) ↔
      ∃ m, .object relation m ∈ done ∧
        (mode = m ∨ mode = protection tm (.transaction t) relation m) := by
  refine Iff.trans ⟨?_, ?_⟩ (h.holds relation mode)
  · rintro ⟨n, lock, hlock, -, hr, rfl, hn⟩
    exact ⟨lock, hlock, hr, hn⟩
  · rintro ⟨lock, hlock, hr, hn⟩
    exact ⟨_, lock, hlock, (h.mine lock hlock).1.1, hr, rfl, hn⟩

lemma RebuiltTable.grant {source : List ObjectLockTarget} {seq : ℕ} (hseq : seq ≠ 0)
    (hknown : ∀ r m, .object r m ∈ done → r ∈ source) (hsource : relation ∈ source)
    (hroom : source.length ≤ table.capacity) :
    ∃ after, grantTable table (.transaction t) w relation mode
      (protection tm (.transaction t) relation mode) seq = some after ∧
      after.capacity = table.capacity ∧
      RebuiltTable tm t w (done ++ [.object relation mode]) after := by
  refine h.upsert (fun m => m = mode ∨ m = protection tm (.transaction t) relation mode) _
    (fun lock hmine
    => ?_) ⟨rfl, rfl⟩ (fun _ => ite_ne_right_iff.trans (and_iff_left hseq)) (fun lock =>
      ⟨rfl, id, fun m =>
    ?_⟩) ⟨_, .inl rfl⟩ (fun r m ⟨m', hm', _⟩ => hknown r m' hm') hsource hroom fun r m => ?_
  · rw [ObjectLock.isOwn_iff]
    exact ⟨And.right, fun heq => ⟨hmine.1, heq⟩⟩
  · by_cases hnew : m = mode ∨ m = protection tm (.transaction t) relation mode <;>
      simp [hnew, hseq]
  simp only [mem_append, mem_singleton, HeldLock.object.injEq]
  constructor
  · rintro ⟨m', hm' | ⟨rfl, rfl⟩, hcase⟩
    · exact .inl ⟨m', hm', hcase⟩
    · exact .inr ⟨rfl, hcase⟩
  · rintro (⟨m', hm', hcase⟩ | ⟨rfl, hcase⟩)
    · exact ⟨m', .inl hm', hcase⟩
    · exact ⟨mode, .inr ⟨rfl, rfl⟩, hcase⟩

lemma RebuiltTable.held (hmode : ∃ n, HeldSince table.items (.transaction t) relation mode n)
    (hprotection : ∃ n, HeldSince table.items (.transaction t) relation
      (protection tm (.transaction t) relation mode) n) :
    RebuiltTable tm t w (done ++ [.object relation mode]) table := by
  refine h.congr fun r m => ⟨?_, fun ⟨m', hm', hcase⟩ => ⟨m', mem_append_left _ hm', hcase⟩⟩
  rintro ⟨m', hm', hcase⟩
  rcases mem_append.mp hm' with hold | hnew
  · exact ⟨m', hold, hcase⟩
  obtain ⟨rfl, rfl⟩ := HeldLock.object.inj (mem_singleton.mp hnew)
  rcases hcase with rfl | rfl
  · exact h.holds_iff.mp hmode
  · exact h.holds_iff.mp hprotection

end

end Table

/-! ## Row locks -/

/-- The row of a lock. -/
def RowLock.key (lock : RowLock) : UInt32 × ℕ := (lock.table, lock.rowid)

/-- The registry of row locks, when some strengths were taken again. -/
def RebuiltRows (t : UInt32) (done : List HeldLock) : FixedVec RowLock → Prop :=
  FixedVec.Granted RowLock.key (fun lock => lock.owner = t) (fun lock st => lock.modes st ≠ 0)
    fun row st => .row row.1 row.2 st ∈ done

section Rows

variable {t : UInt32} {done : List HeldLock} {m : LockManager}

lemma RebuiltRows.blocker (h : RebuiltRows t done m.locks) (table : UInt32) (rowid : ℕ)
    (str : LockStrength) : m.blocker table rowid t str = none := by
  refine find?_eq_none.mpr fun lock hlock => ?_
  simp [(h.mine lock hlock).1]

lemma RebuiltRows.grant {source : List (UInt32 × ℕ)} {table : UInt32} {rowid seq : ℕ}
    {w : WaitOwner} {str : LockStrength} (h : RebuiltRows t done m.locks) (hseq : seq ≠ 0)
    (hknown : ∀ a b st, .row a b st ∈ done → (a, b) ∈ source) (hsource : (table, rowid) ∈ source)
    (hroom : source.length ≤ m.locks.capacity) :
    ∃ locks, m.grantRow table rowid t w str seq = ({ m with locks }, .ok .acquired) ∧
      locks.capacity = m.locks.capacity ∧ RebuiltRows t (done ++ [.row table rowid str]) locks := by
  obtain ⟨locks, hup, hcap, hgranted⟩ :=
    h.upsert (· = str) (fun row st => .row row.1 row.2 st ∈ done ++
    [.row table rowid str]) (f := fun lock => { lock with
      modes := fun s => if s = str ∧ lock.modes s = 0 then seq else lock.modes s })
    (a := ⟨table, rowid, t, w, fun s => if s = str then seq else 0⟩)
    (p := LockManager.isOwn table rowid t)
    (fun lock hmine => by simp [LockManager.isOwn, RowLock.key, hmine]) rfl
    (fun _ => ite_ne_right_iff.trans (and_iff_left hseq)) (fun lock => ⟨rfl, id, fun s => by
      by_cases hs : s = str <;> by_cases hheld : lock.modes s = 0 <;> simp_all⟩) ⟨_, rfl⟩
    (fun row st hst => hknown _ _ st hst) hsource hroom
    fun row st => by simp [RowLock.key, Prod.ext_iff, and_assoc]
  refine ⟨locks, ?_, hcap, hgranted⟩
  rcases m.grantRow_cases table rowid t w str seq with ⟨hnone, -⟩ | ⟨locks', hup', hafter⟩
  · cases hnone.symm.trans hup
  · cases hup'.symm.trans hup
    exact hafter

end Rows

/-! ## Advisory locks -/

/-- The registry of advisory locks, when some were taken again. -/
def RebuiltKeys (t : UInt32) (done : List HeldLock) : FixedVec AdvisoryLock → Prop :=
  FixedVec.Granted (fun lock => (lock.key, lock.mode))
    (fun lock => lock.owner = .transaction t ∧ lock.waitOwner = preparedWaitOwner t)
    (fun _ (_ : Unit) => True) fun k _ => .advisory k.1 k.2 ∈ done

section Keys

variable {t : UInt32} {done : List HeldLock} {m : AdvisoryLockManager} {wg : LockManager}

lemma RebuiltKeys.blocker (h : RebuiltKeys t done m.locks) (key : AdvisoryKey)
    (mode : AdvisoryMode) : m.blocker key (preparedWaitOwner t) mode = none := by
  refine find?_eq_none.mpr fun lock hlock => ?_
  simp [(h.mine lock hlock).1.2]

lemma grant_upsert {key : AdvisoryKey} {w : WaitOwner} {mode : AdvisoryMode} {tr : Bool}
    {seq : ℕ} {locks : FixedVec AdvisoryLock}
    (h : m.locks.upsert (isOwn key (.transaction t) mode) (countedAgain (.transaction t))
      ⟨key, .transaction t, w, mode, 1, seq⟩ = some locks) :
    m.grant wg key (.transaction t) w mode tr seq = (({ m with locks }, wg), .ok .acquired) := by
  unfold FixedVec.upsert at h
  unfold grant
  rcases hfound : m.locks.items.find? (isOwn key (.transaction t) mode) with
    _ | lock
  · have hany : ¬m.locks.items.any (isOwn key (.transaction t) mode) := by
      rw [any_eq_true]
      rintro ⟨lock, hlock, hown⟩
      exact find?_eq_none.mp hfound lock hlock hown
    rw [if_neg hany] at h
    simp only [h]
    rfl
  · have hany : m.locks.items.any (isOwn key (.transaction t) mode) :=
      any_eq_true.mpr ⟨lock, mem_of_find?_eq_some hfound, find?_some hfound⟩
    rw [if_pos hany] at h
    cases h
    rfl

lemma RebuiltKeys.grant {source : List (AdvisoryKey × AdvisoryMode)} {key : AdvisoryKey}
    {mode : AdvisoryMode} {tr : Bool} {seq : ℕ} (h : RebuiltKeys t done m.locks)
    (hknown : ∀ k md, .advisory k md ∈ done → (k, md) ∈ source) (hsource : (key, mode) ∈ source)
    (hroom : source.length ≤ m.locks.capacity) :
    ∃ locks, m.grant wg key (.transaction t) (preparedWaitOwner t) mode tr seq =
        (({ m with locks }, wg), .ok .acquired) ∧ locks.capacity = m.locks.capacity ∧
      RebuiltKeys t (done ++ [.advisory key mode]) locks := by
  obtain ⟨locks, hup, hcap, hgranted⟩ :=
    h.upsert (fun _ => True) (fun k _ => .advisory k.1 k.2 ∈ done ++ [.advisory key mode])
    (f := countedAgain (.transaction t))
    (a := ⟨key, .transaction t, preparedWaitOwner t, mode, 1, seq⟩)
    (p := isOwn key (.transaction t) mode) (fun lock hmine => by simp [isOwn, hmine.1])
    ⟨rfl, rfl⟩ (fun _ => .rfl) (fun lock => ⟨rfl, id, fun _ => by simp⟩) ⟨(), trivial⟩
    (fun k _ hk => hknown _ _ hk) hsource hroom
    fun k _ => by simp [Prod.ext_iff]
  exact ⟨locks, grant_upsert hup, hcap, hgranted⟩

end Keys

/-! ## Records -/

/-- **The locks after some of an inventory was taken again**, in a system with the room of the
source. -/
structure Rebuilt (start : LockSystem) (source : LockState) (t : UInt32) (done : List HeldLock)
    (s : LockSystem) : Prop where
  identities : s.identities = start.identities
  transactionMode : s.transactionMode = start.transactionMode
  sequence : s.locks.sequence ≤ done.length
  tableCapacity : s.locks.table.capacity = source.table.capacity
  rowCapacity : s.locks.row.locks.capacity = source.row.locks.capacity
  keyCapacity : s.locks.advisory.locks.capacity = source.advisory.locks.capacity
  table : RebuiltTable start.transactionMode t (start.identities.transactionWaitOwner t) done
    s.locks.table
  rows : RebuiltRows t done s.locks.row.locks
  keys : RebuiltKeys t done s.locks.advisory.locks

section Records

variable {start s : LockSystem} {source : LockState} {t : UInt32} {done : List HeldLock}
  {names : LockNames}

lemma inventory_relation {rel : ObjectLockTarget} {mode : TableLockMode}
    (h : .object rel mode ∈ source.inventory t) :
    rel ∈ source.table.items.map ObjectLock.relation := by
  obtain ⟨-, lock, hlock, -, hr, -⟩ := mem_inventory_object.mp h
  exact mem_map.mpr ⟨lock, hlock, hr⟩

lemma inventory_rowKey {table : UInt32} {rowid : ℕ} {str : LockStrength}
    (h : .row table rowid str ∈ source.inventory t) :
    (table, rowid) ∈ source.row.locks.items.map RowLock.key := by
  obtain ⟨lock, hlock, hkey, -⟩ := mem_inventory_row.mp h
  exact mem_map.mpr ⟨lock, hlock, hkey⟩

lemma inventory_key {key : AdvisoryKey} {mode : AdvisoryMode}
    (h : .advisory key mode ∈ source.inventory t) :
    (key, mode) ∈ source.advisory.locks.items.map fun lock => (lock.key, lock.mode) := by
  obtain ⟨-, lock, hlock, -, -, rfl, rfl⟩ := mem_inventory_advisory.mp h
  exact mem_map.mpr ⟨lock, hlock, rfl⟩

lemma LockState.nextSequence_ok {locks : LockState} (h : locks.sequence + 1 < 2 ^ 64) :
    locks.nextSequence =
      ({ locks with sequence := locks.sequence + 1 }, .ok (locks.sequence + 1)) := by
  unfold nextSequence
  rw [if_pos h]

lemma AdvisoryKey.unpack (key : AdvisoryKey) :
    UInt32.ofNat (key.packed / 2 ^ 32) = key.classId ∧ UInt32.ofNat key.packed = key.objectId := by
  have hobject := key.objectId.toNat_lt
  unfold AdvisoryKey.packed
  constructor
  · rw [mul_comm, Nat.mul_add_div (by decide), Nat.div_eq_of_lt hobject, add_zero,
      UInt32.ofNat_toNat]
  · refine UInt32.toNat_inj.mp ?_
    rw [UInt32.toNat_ofNat', mul_comm, Nat.mul_add_mod, Nat.mod_eq_of_lt hobject]

/-- The mode of an advisory lock is read back, with the space of its key. -/
lemma advisoryIndex_eq_some {space index : ℕ} {mode : AdvisoryMode}
    (h : advisoryIndex space mode = some index) :
    LockSystem.advisoryModeOf index = some mode ∧ (if index < 2 then 1 else 2) = space ∧
      index < 256 := by
  unfold advisoryIndex at h
  split at h <;> cases h <;> decide

@[simp]
lemma TableLockMode.ofIndex_index (mode : TableLockMode) :
    TableLockMode.ofIndex mode.index = some mode := by
  cases mode <;> rfl

@[simp]
lemma LockStrength.ofIndex_index (strength : LockStrength) :
    LockStrength.ofIndex strength.index = some strength := by
  cases strength <;> rfl

lemma roleModeOf_index {mode : TableLockMode} (h : validRoleMode mode) :
    LockSystem.roleModeOf mode.index = some mode := by
  cases mode <;> first | rfl | cases h

section

variable (h : Rebuilt start source t done s) (hdone : ∀ x ∈ done, x ∈ source.inventory t)
  (hleft : done.length + 1 < 2 ^ 64)
include h hdone hleft

lemma Rebuilt.lockObject {rel : ObjectLockTarget} {mode : TableLockMode}
    (hx : .object rel mode ∈ source.inventory t) (hrole : invalidRoleLock rel mode = false) :
    ∃ s', s.lockObject t rel mode false = (s', .ok ()) ∧
      Rebuilt start source t (done ++ [.object rel mode]) s' := by
  have hrows : RebuiltRows t (done ++ [.object rel mode]) s.locks.row.locks :=
    h.rows.congr fun _ _ => by simp
  have hkeys : RebuiltKeys t (done ++ [.object rel mode]) s.locks.advisory.locks :=
    h.keys.congr fun _ _ => by simp
  have hseq := h.sequence
  unfold LockSystem.lockObject
  rw [h.transactionMode, h.identities]
  unfold lockObjectOwned
  rw [if_neg (by simp [hrole])]
  by_cases hheld : s.locks.ownModes (.transaction t) rel mode ≠ 0 ∧
    s.locks.ownModes (.transaction t) rel
        (protection start.transactionMode (.transaction t) rel mode) ≠ 0
  · rw [if_pos hheld]
    have hsince : ∀ m, s.locks.ownModes (.transaction t) rel m ≠ 0 →
        ∃ n, HeldSince s.locks.table.items (.transaction t) rel m n :=
      fun m hm => ⟨_, (heldSince_iff h.table.oneEach).mpr ⟨rfl, hm⟩⟩
    refine ⟨_, rfl, ?_⟩
    exact
      { h with
        identities := rfl
        transactionMode := rfl
        sequence := by rw [length_append]; exact hseq.trans (Nat.le_add_right _ _)
        table := h.table.held (hsince _ hheld.1) (hsince _ hheld.2)
        rows := hrows
        keys := hkeys }
  rw [if_neg hheld, h.table.objectBlocker]
  simp only [grantObject]
  rw [nextSequence_ok (by omega)]
  have hroom : (source.table.items.map ObjectLock.relation).length ≤ s.locks.table.capacity := by
    rw [length_map, h.tableCapacity]
    exact source.table.bound
  obtain ⟨table, hgrant, hcap, htable⟩ :=
    @RebuiltTable.grant _ _ _ _ _ rel mode h.table _ _ (Nat.succ_ne_zero s.locks.sequence)
      (fun r m hm => inventory_relation (hdone _ hm)) (inventory_relation hx) hroom
  simp only [hgrant]
  refine ⟨_, rfl, ?_⟩
  exact
    { h with
      identities := rfl
      transactionMode := rfl
      sequence := by rw [length_append]; exact Nat.succ_le_succ hseq
      tableCapacity := hcap.trans h.tableCapacity
      table := htable
      rows := hrows
      keys := hkeys }

lemma Rebuilt.acquireRowLock {table : UInt32} {rowid : ℕ} {str : LockStrength}
    (hx : .row table rowid str ∈ source.inventory t) :
    ∃ s', s.acquireRowLock table.toNat rowid t str .wait = (s', .ok .acquired) ∧
      Rebuilt start source t (done ++ [.row table rowid str]) s' := by
  have hseq := h.sequence
  have hroom : (source.row.locks.items.map RowLock.key).length ≤ s.locks.row.locks.capacity := by
    rw [length_map, h.rowCapacity]
    exact source.row.locks.bound
  -- giving up a wait changes no lock
  have hrows : RebuiltRows t done
      (s.locks.row.clearWait (s.identities.transactionWaitOwner t)).locks := h.rows
  obtain ⟨locks, hgrant, hcap, hrebuilt⟩ :=
    @RebuiltRows.grant _ _ _ _ _ _ _ (s.identities.transactionWaitOwner t) str hrows
      (Nat.succ_ne_zero
      s.locks.sequence) (fun _ _ _ hm => inventory_rowKey (hdone _ hm)) (inventory_rowKey hx) hroom
  unfold LockSystem.acquireRowLock
  rw [nextSequence_ok (by omega)]
  simp only [LockManager.acquire, UInt32.ofNat_toNat, h.rows.blocker, hgrant]
  refine ⟨_, rfl, ?_⟩
  exact
    { h with
      sequence := by rw [length_append]; exact Nat.succ_le_succ hseq
      rowCapacity := hcap.trans h.rowCapacity
      table := h.table.congr fun _ _ => by simp
      rows := hrebuilt
      keys := h.keys.congr fun _ _ => by simp }

lemma Rebuilt.restoreAdvisory {key : AdvisoryKey} {mode : AdvisoryMode} {index : ℕ}
    (hx : .advisory key mode ∈ source.inventory t)
    (hindex : advisoryIndex key.objectSubId mode = some index) :
    ∃ s',
      s.restoreAdvisory t ⟨2, index, key.packed, [], []⟩ = (s', .ok ()) ∧
        Rebuilt start source t (done ++ [.advisory key mode]) s' := by
  have hseq := h.sequence
  obtain ⟨hmode, hspace, -⟩ := advisoryIndex_eq_some hindex
  obtain ⟨hclass, hobject⟩ := key.unpack
  have hroom : (source.advisory.locks.items.map fun lock => (lock.key, lock.mode)).length ≤
      s.locks.advisory.locks.capacity := by
    rw [length_map, h.keyCapacity]
    exact source.advisory.locks.bound
  have hkeys : RebuiltKeys t done (s.locks.advisory.clearWait (preparedWaitOwner t)).locks := h.keys
  obtain ⟨locks, hgrant, hcap, hrebuilt⟩ :=
    @RebuiltKeys.grant _ _ _ (s.locks.row.clearWait (preparedWaitOwner t)) _ key mode false
      (s.locks.sequence + 1) hkeys (fun _ _ hm => inventory_key (hdone _ hm)) (inventory_key hx)
        hroom
  unfold LockSystem.restoreAdvisory
  simp only [hmode]
  rw [nextSequence_ok (by omega)]
  simp only [hclass, hobject, hspace, acquire, replayed, acquireNew, h.keys.blocker, hgrant]
  refine ⟨_, rfl, ?_⟩
  exact
    { h with
      sequence := by rw [length_append]; exact Nat.succ_le_succ hseq
      keyCapacity := hcap.trans h.keyCapacity
      table := h.table.congr fun _ _ => by simp
      rows := h.rows.congr fun _ _ => by simp
      keys := hrebuilt }

/-- **One record of the inventory is taken again.** -/
theorem rebuilt_restoreLock {x : HeldLock} (hnames : names.Resolves source t)
    (hroles : source.RoleLocks)
    (hspaces : ∀ key mode, .advisory key mode ∈ source.inventory t →
      (advisoryIndex key.objectSubId mode).isSome)
    (hx : x ∈ source.inventory t) :
    ∃ s', s.restoreLock names t (names.record x) = (s', .ok ()) ∧
      Rebuilt start source t (done ++ [x]) s' := by
  cases x with
  | object relation mode =>
    have hheld := mem_inventory_object.mp hx
    cases relation with
    | table slot =>
      obtain ⟨schema, name, hname, hfound⟩ := hnames.table slot mode hheld
      have hrequest := h.lockObject hdone hleft hx rfl
      simpa [LockSystem.restoreLock, record, LockSystem.restoreRelation, hname, hfound]
        using hrequest
    | view slot =>
      obtain ⟨schema, name, hname, hfound⟩ := hnames.view slot mode hheld
      have hrequest := h.lockObject hdone hleft hx rfl
      simpa [LockSystem.restoreLock, record, LockSystem.restoreRelation, hname, hfound]
        using hrequest
    | role oid =>
      obtain ⟨hoid, hvalid, hboot⟩ := hroles _ _ _ hheld
      have hparse : parseRoleOid oid = some oid := by
        unfold parseRoleOid at hoid ⊢
        split at hoid
        · rename_i hrange
          rw [if_pos hrange]
        · cases hoid
      have hmode : ¬(oid = bootstrapRole ∧ mode ≠ .shareUpdateExclusive) :=
        fun hboth => hboth.2 (hboot hboth.1)
      have hrequest := h.lockObject hdone hleft hx (by simp [invalidRoleLock, hvalid])
      simpa [LockSystem.restoreLock, record, LockSystem.restoreRole, hparse,
        Option.filter, roleModeOf_index hvalid, hmode] using hrequest
  | row table rowid strength =>
    obtain ⟨⟨schema, name, hname, hfound⟩, -⟩ := hnames.row _ _ _ (mem_inventory_row.mp hx)
    obtain ⟨s', hrequest, hrebuilt⟩ := h.acquireRowLock hdone hleft hx
    refine ⟨s', ?_, hrebuilt⟩
    simp [LockSystem.restoreLock, record, LockSystem.restoreRow, hname, hfound, hrequest]
  | advisory key mode =>
    obtain ⟨index, hindex⟩ := Option.isSome_iff_exists.mp (hspaces key mode hx)
    obtain ⟨s', hrequest, hrebuilt⟩ := h.restoreAdvisory hdone hleft hx hindex
    refine ⟨s', ?_, hrebuilt⟩
    simpa [LockSystem.restoreLock, record, hindex] using hrequest

end

/-- **The rest of the inventory is taken again.** Induction on the rest. -/
theorem rebuilt_stepAll {rest : List HeldLock} (hnames : names.Resolves source t)
    (hroles : source.RoleLocks)
    (hspaces : ∀ key mode, .advisory key mode ∈ source.inventory t →
      (advisoryIndex key.objectSubId mode).isSome)
    (h : Rebuilt start source t done s) (hall : ∀ x ∈ done ++ rest, x ∈ source.inventory t)
    (hleft : (done ++ rest).length < 2 ^ 64) :
    ∃ s', stepAll (LockSystem.restoreLock names t) s (rest.map names.record) = (s', .ok ()) ∧
      Rebuilt start source t (done ++ rest) s' := by
  induction rest generalizing done s with
  | nil =>
    rw [append_nil]
    exact ⟨s, rfl, h⟩
  | cons x rest ih =>
    rw [length_append, length_cons] at hleft
    obtain ⟨s₁, hfirst, hrebuilt⟩ :=
      rebuilt_restoreLock h (fun y hy => hall y (mem_append_left _ hy)) (by
      omega) hnames hroles hspaces (hall x (mem_append_right _ mem_cons_self))
    have hsplit : done ++ x :: rest = done ++ [x] ++ rest := by rw [append_assoc]; rfl
    rw [hsplit] at hall ⊢
    obtain ⟨s₂, hrest, hrebuilt'⟩ := ih hrebuilt hall (by
      rw [length_append, length_append, length_singleton]
      omega)
    refine ⟨s₂, ?_, hrebuilt'⟩
    rw [map_cons, stepAll_cons_ok hfirst, hrest]

end Records

/-! ## Whole inventories -/

/-- A system without locks, with the room of another. -/
structure LockSystem.EmptyLike (target : LockSystem) (source : LockState) : Prop where
  table : target.locks.table = .empty source.table.capacity
  rows : target.locks.row.locks = .empty source.row.locks.capacity
  keys : target.locks.advisory.locks = .empty source.advisory.locks.capacity
  sequence : target.locks.sequence = 0

/-- **Exactly the locks of a transaction.** -/
def SameLocks (restored source : LockState) (t : UInt32) : Prop :=
  (∀ owner relation mode, restored.Holds owner relation mode ↔
    owner = .transaction t ∧ source.Holds owner relation mode) ∧
  (∀ owner row strength, restored.row.Holds owner row strength ↔
    owner = t ∧ source.row.Holds owner row strength) ∧
  ∀ owner key mode, (∃ w, restored.advisory.Holds owner w key mode) ↔
    owner = .transaction t ∧ ∃ w, source.advisory.Holds owner w key mode

/-- Every mode a transaction holds is held with the mode that protects it. -/
def Protected (transactionMode : TransactionMode) (locks : LockState) (t : UInt32) : Prop :=
  ∀ relation mode, locks.Holds (.transaction t) relation mode →
    locks.Holds (.transaction t) relation
      (protection transactionMode (.transaction t) relation mode)

lemma protected_mvcc (locks : LockState) (t : UInt32) : Protected .mvcc locks t := by
  intro relation mode h
  cases relation <;> exact h

/-- A position between two records, before the first or behind the last. -/
def RecordEnd (names : LockNames) (locks : LockState) (t : UInt32) (n : ℕ) : Prop :=
  ∃ i, n = ((((locks.inventory t).map names.record).take i).flatMap lockBytes).length

section Inventories

variable {start restored : LockSystem} {source : LockState} {t : UInt32} {names : LockNames}

lemma rebuilt_start (h : start.EmptyLike source) : Rebuilt start source t [] start where
  identities := rfl
  transactionMode := rfl
  sequence := h.sequence.le
  tableCapacity := by rw [h.table]; rfl
  rowCapacity := by rw [h.rows]; rfl
  keyCapacity := by rw [h.keys]; rfl
  table := by
    rw [h.table]
    exact FixedVec.granted_empty _ fun _ _ ⟨_, hm, _⟩ => (nomatch hm)
  rows := by
    rw [h.rows]
    exact FixedVec.granted_empty _ nofun
  keys := by
    rw [h.keys]
    exact FixedVec.granted_empty _ nofun

/-- **The locks are the same exactly when every mode is protected.** -/
theorem Rebuilt.sameLocks_iff (h : Rebuilt start source t (source.inventory t) restored) :
    SameLocks restored.locks source t ↔ Protected start.transactionMode source t := by
  have hmodes : ∀ relation mode, restored.locks.Holds (.transaction t) relation mode ↔
      ∃ m, source.Holds (.transaction t) relation m ∧
        (mode = m ∨ mode = protection start.transactionMode (.transaction t) relation m) := by
    intro relation mode
    refine h.table.holds_iff.trans ?_
    simp only [mem_inventory_object]
  constructor
  · rintro ⟨hobjects, -, -⟩ relation mode hheld
    have hprotection := (hmodes relation
      (protection start.transactionMode (.transaction t) relation mode)).mpr ⟨mode, hheld, .inr rfl⟩
    exact ((hobjects _ _ _).mp hprotection).2
  intro hprot
  refine ⟨fun owner relation mode => ⟨?_, ?_⟩, fun owner row strength => ⟨?_, ?_⟩,
    fun owner key mode => ⟨?_, ?_⟩⟩
  · intro hheld
    obtain ⟨n, lock, hlock, rfl, hrest⟩ := hheld
    have ho := (h.table.mine lock hlock).1.1
    refine ⟨ho, ?_⟩
    obtain ⟨m, hm, rfl | rfl⟩ := (hmodes relation mode).mp ⟨n, lock, hlock, ho, hrest⟩
    · rwa [ho]
    · rw [ho]
      exact hprot relation m hm
  · rintro ⟨rfl, hheld⟩
    exact (hmodes relation mode).mpr ⟨mode, hheld, .inl rfl⟩
  · rintro ⟨lock, hlock, rfl, rfl, hst⟩
    have ho := (h.rows.mine lock hlock).1
    refine ⟨ho, ?_⟩
    rw [ho]
    exact mem_inventory_row.mp ((h.rows.holds _ strength).mp ⟨lock, hlock, rfl, hst⟩)
  · rintro ⟨rfl, hheld⟩
    obtain ⟨lock, hlock, hkey, hst⟩ :=
      (h.rows.holds row strength).mpr (mem_inventory_row.mpr hheld)
    exact ⟨lock, hlock, hkey, (h.rows.mine lock hlock).1, hst⟩
  · rintro ⟨w, lock, hlock, rfl, -, rfl, rfl⟩
    have ho := (h.keys.mine lock hlock).1.1
    refine ⟨ho, ?_⟩
    rw [ho]
    exact mem_inventory_advisory.mp ((h.keys.holds _ ()).mp ⟨lock, hlock, rfl, trivial⟩)
  · rintro ⟨rfl, hheld⟩
    obtain ⟨lock, hlock, hkey, -⟩ :=
      (h.keys.holds (key, mode) ()).mpr (mem_inventory_advisory.mpr hheld)
    cases hkey
    exact ⟨lock.waitOwner, lock, hlock, (h.keys.mine lock hlock).1.1, rfl, rfl, rfl⟩

lemma fits_record (hnames : names.Resolves source t) (hroles : source.RoleLocks)
    (hspaces : ∀ key mode, .advisory key mode ∈ source.inventory t →
      (advisoryIndex key.objectSubId mode).isSome) {x : HeldLock}
    (hx : x ∈ source.inventory t)
    (hlens : (names.record x).schema.toUtf8.length ≤ 255 ∧
      (names.record x).table.toUtf8.length ≤ 255) : (names.record x).Fits := by
  refine ⟨?_, ?_, ?_, hlens.1, hlens.2⟩
  · rcases x with ⟨slot | slot | oid, mode⟩ | _ | _ <;> simp [record]
  · rcases x with ⟨slot | slot | oid, mode⟩ | ⟨_, _, strength⟩ | ⟨key, mode⟩
    · cases mode <;> simp [record, TableLockMode.index]
    · cases mode <;> simp [record, TableLockMode.index]
    · cases mode <;> simp [record, TableLockMode.index]
    · cases strength <;> simp [record, LockStrength.index]
    · obtain ⟨index, hindex⟩ := Option.isSome_iff_exists.mp (hspaces key mode hx)
      simpa [record, hindex] using (advisoryIndex_eq_some hindex).2.2
  rcases x with ⟨slot | slot | oid, mode⟩ | ⟨table, rowid, strength⟩ | ⟨key, mode⟩
  · simp [record]
  · simp [record]
  · obtain ⟨hoid, -⟩ := hroles _ _ _ (mem_inventory_object.mp hx)
    unfold parseRoleOid at hoid
    split at hoid
    · rename_i hrange
      exact lt_trans hrange.1 (by decide)
    · cases hoid
  · exact (hnames.row _ _ _ (mem_inventory_row.mp hx)).2
  · have hclass := key.classId.toNat_lt
    have hobject := key.objectId.toNat_lt
    simp only [record, AdvisoryKey.packed]
    omega

/-- **An inventory is taken again, and a cut is noticed inside records only.** -/
theorem restore_inventory {limit : ℕ} {bytes : Bytes} (hnames : names.Resolves source t)
    (hroles : source.RoleLocks) (hstart : start.EmptyLike source) (hlimit : limit < 2 ^ 64)
    (hencode : encodeTransactionLocks names limit source t = .ok bytes) :
    (∃ restored, start.restoreTransactionLocks names t bytes = (restored, .ok ()) ∧
      Rebuilt start source t (source.inventory t) restored) ∧
    ∀ n < bytes.length, (start.restoreTransactionLocks names t (bytes.take n)).2 = .ok () ↔
      RecordEnd names source t n := by
  obtain ⟨written, hrecs, rfl, hlen, hlens⟩ := foldlM_appendLock hencode zero_le
  obtain ⟨rfl, hspaces⟩ := lockRecords_eq hnames hrecs
  rw [nil_append] at hlen ⊢
  have hfits : ∀ r ∈ (source.inventory t).map names.record, r.Fits := by
    intro r hr
    obtain ⟨x, hx, rfl⟩ := mem_map.mp hr
    exact fits_record hnames hroles hspaces hx (hlens _ hr)
  have hread : ∀ r ∈ (source.inventory t).map names.record, ∀ rest,
      takeLock.run (lockBytes r ++ rest) = .ok (r, rest) :=
    fun r hr => takeLock_append (hfits r hr)
  have hne : ∀ r ∈ (source.inventory t).map names.record, lockBytes r ≠ [] :=
    fun r _ => lockBytes_ne_nil r
  -- every record takes a byte at least, so there are sequence numbers enough
  have hcount := length_le_flatMap hne
  rw [length_map] at hcount
  have hleft : ([] ++ source.inventory t).length < 2 ^ 64 := by
    rw [nil_append]
    omega
  have hinventory : ∀ x ∈ [] ++ source.inventory t, x ∈ source.inventory t := fun x hx => hx
  obtain ⟨restored, hall, hrebuilt⟩ := rebuilt_stepAll hnames hroles hspaces
    (rebuilt_start hstart) hinventory hleft
  refine ⟨⟨restored, ?_, hrebuilt⟩, fun n hn => ?_⟩
  · unfold LockSystem.restoreTransactionLocks
    rw [readAll_flatMap hread hne le_rfl, hall]
  · unfold LockSystem.restoreTransactionLocks
    rw [length_take, min_eq_left (le_of_lt hn)]
    exact readAll_take_ok_iff local_takeLock hread hne (by rw [hall]) (le_of_lt hn) le_rfl

end Inventories

/-- **Locks of prepared transactions.** Whatever was locked, released and rolled back before: the
bytes written for a transaction are accepted by a system without locks. They give back exactly its
locks if and only if every relation mode it holds is held with its protection, as always when
transactions do not exclude one another by locking. Cut short, they are refused if and only if the
cut is inside a record. Source: `encode_transaction_locks`, `restore_transaction_locks`. -/
theorem prepared_locks_restored {limits : LockLimits} {transactionMode : TransactionMode}
    {calls : List LockCall} {source target : LockSystem} {t : UInt32} {names : LockNames}
    {limit : ℕ} {bytes : Bytes} (hproper : LockSystem.Proper calls (.new limits transactionMode))
    (hlawful : ∀ call ∈ calls, call.lawful = true)
    (hsource : source = LockSystem.runAll calls (.new limits transactionMode))
    (hnames : names.Resolves source.locks t) (htarget : target.EmptyLike source.locks)
    (hlimit : limit < 2 ^ 64)
    (hencode : encodeTransactionLocks names limit source.locks t = .ok bytes) :
    (∃ restored, target.restoreTransactionLocks names t bytes = (restored, .ok ()) ∧
      (SameLocks restored.locks source.locks t ↔ Protected target.transactionMode source.locks t)) ∧
      ∀ n < bytes.length, (∃ e,
        (target.restoreTransactionLocks names t (bytes.take n)).2 = .error e) ↔
        ¬RecordEnd names source.locks t n := by
  have hroles : source.locks.RoleLocks := by
    rw [hsource]
    refine LockSystem.roleLocks_runAll (LockSystem.new_inv limits transactionMode) ?_ hproper
      hlawful
    exact fun _ _ _ ⟨_, _, hlock, _⟩ => (nomatch hlock)
  obtain ⟨⟨restored, hrestore, hrebuilt⟩, hcuts⟩ :=
    restore_inventory hnames hroles htarget hlimit hencode
  refine ⟨⟨restored, hrestore, hrebuilt.sameLocks_iff⟩, fun n hn => ?_⟩
  rw [← hcuts n hn]
  rcases (target.restoreTransactionLocks names t (bytes.take n)).2 with e | ⟨⟩
  · exact ⟨nofun, fun _ => ⟨e, rfl⟩⟩
  · exact ⟨fun ⟨_, herror⟩ => (nomatch herror), fun hno => absurd rfl hno⟩

/-! ## A rolled back savepoint -/

/-- A transaction locks a table, and rolls back to a savepoint after which it locked it again, in a
stronger mode with the same protection. -/
def relockedCalls : List LockCall :=
  [.start 1, .lockObject 1 (.table 0) .rowShare false, .lockObject 1 (.table 0) .rowExclusive false,
    .rollbackLocksTo 1 1]

/-- The state that is reached. -/
def relockedSystem : LockSystem :=
  LockSystem.runAll relockedCalls (.new ⟨4, 8, 8, 8, 4⟩ .locking)

/-- A catalog of one table. -/
def oneTable : LockNames where
  tableName slot := if slot = 0 then some (['p'], ['t']) else none
  viewName _ := none
  findVisible _ _ := some 0
  viewSlot _ _ := none

/-- The system after a restart. -/
def restartedSystem (transactionMode : TransactionMode) : LockSystem :=
  .new ⟨4, 8, 8, 8, 4⟩ transactionMode

lemma relocked_inventory :
    ∀ x ∈ relockedSystem.locks.inventory 1, x = .object (.table 0) .rowShare := by
  decide

lemma oneTable_resolves : oneTable.Resolves relockedSystem.locks 1 where
  table slot mode h := by
    obtain ⟨hslot, -⟩ := HeldLock.object.inj (relocked_inventory _ (mem_inventory_object.mpr h))
    obtain rfl := ObjectLockTarget.table.inj hslot
    exact ⟨['p'], ['t'], rfl, rfl⟩
  view slot mode h := by cases relocked_inventory _ (mem_inventory_object.mpr h)
  row slot rowid strength h := by cases relocked_inventory _ (mem_inventory_row.mpr h)

/-- **More than was held, and less than was written.** The mode the rollback took away is back after
a restart; and an inventory of which nothing is left is accepted. -/
theorem restored_with_lost_protection :
    ∃ bytes, encodeTransactionLocks oneTable 4096 relockedSystem.locks 1 = .ok bytes ∧
      0 < bytes.length ∧ ¬relockedSystem.locks.Holds (.transaction 1) (.table 0) .exclusive ∧
      ((restartedSystem .locking).restoreTransactionLocks oneTable 1 bytes).1.locks.Holds
        (.transaction 1) (.table 0) .exclusive ∧
      ((restartedSystem .locking).restoreTransactionLocks oneTable 1 (bytes.take 0)).2 =
        .ok () := by
  refine ⟨_, rfl, by decide, ?_, ?_, rfl⟩
  · rw [← mem_inventory_object]
    decide
  · rw [← mem_inventory_object]
    decide

/-- The restored locks of that system. -/
theorem prepared_locks_restored_relocked :
    LockSystem.Proper relockedCalls (.new ⟨4, 8, 8, 8, 4⟩ .locking) ∧
      ∃ restored bytes, encodeTransactionLocks oneTable 4096 relockedSystem.locks 1 = .ok bytes ∧
        (restartedSystem .mvcc).restoreTransactionLocks oneTable 1 bytes = (restored, .ok ()) ∧
        SameLocks restored.locks relockedSystem.locks 1 := by
  have hprop : LockSystem.Proper relockedCalls (.new ⟨4, 8, 8, 8, 4⟩ .locking) := by decide
  have htarget : (restartedSystem .mvcc).EmptyLike relockedSystem.locks := ⟨rfl, rfl, rfl, rfl⟩
  obtain ⟨⟨restored, hrestore, hsame⟩, -⟩ := prepared_locks_restored hprop (by decide) rfl
    oneTable_resolves htarget (by decide : 4096 < 2 ^ 64) rfl
  exact ⟨hprop, restored, _, rfl, hrestore, hsame.mpr (protected_mvcc _ _)⟩

end Pos3ql
