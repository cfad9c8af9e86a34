import Pos3ql.Foundation.RecordStream
import Pos3ql.Foundation.Text
import Pos3ql.Locks.System

/-!
# The locks of a prepared transaction

PREPARE TRANSACTION writes the locks of the transaction into the journal; recovery takes them again,
one record after the other. Relations are named by schema and name, since their slots may differ;
rows and advisory keys are numbers. Source: `storage/mod.rs` (`encode_transaction_locks`,
`restore_transaction_locks`).

* `LockRecord`, `lockBytes`, `takeLock`: one record and its bytes.
* `encodeTransactionLocks`, `restoreTransactionLocks`.

`LockNames` stands for the catalogs: under which name a relation is found. That a restored role lock
also moves the counter of role identities is left out.
-/

namespace Pos3ql

open Foundation List Reader

/-! ## Records -/

/-- The arguments of `append_lock`. -/
structure LockRecord where
  kind : ℕ
  mode : ℕ
  rowid : ℕ
  schema : Text
  table : Text
  deriving DecidableEq, Repr

/-- Source: `append_lock`, the bytes. -/
def lockBytes (r : LockRecord) : Bytes :=
  leBytes 1 r.kind ++ (leBytes 1 r.mode ++ (leBytes 8 r.rowid ++
    (Take.countedBytes 1 r.schema.toUtf8 ++ Take.countedBytes 1 r.table.toUtf8)))

/-- Source: `append_lock`; the buffer holds `limit` bytes. -/
def appendLock (limit : ℕ) (output : Bytes) (r : LockRecord) : Except SqlError Bytes :=
  if 255 < r.schema.toUtf8.length ∨ 255 < r.table.toUtf8.length ∨ limit <
    (output ++ lockBytes r).length then
    .error ⟨.programLimitExceeded, "prepared transaction lock inventory exceeds wal_buffer_bytes"⟩
  else .ok (output ++ lockBytes r)

/-- Source: `restore_transaction_locks`, the errors. -/
def truncatedLocks : SqlError := ⟨.dataException, "prepared lock WAL is truncated"⟩

/-- Source: `restore_transaction_locks`, a name. -/
def takeLockName : Reader SqlError Text := do
  let length ← need 1 truncatedLocks
  let raw ← need (leNat length) truncatedLocks
  lift (match Text.ofUtf8 raw with
    | some name => .ok name
    | none => .error ⟨.dataException, "prepared lock WAL is not UTF-8"⟩)

/-- Source: `restore_transaction_locks`, up to the `match` on the kind. -/
def takeLock : Reader SqlError LockRecord := do
  let kind ← need 1 truncatedLocks
  let mode ← need 1 truncatedLocks
  let rowid ← need 8 truncatedLocks
  let schema ← takeLockName
  let table ← takeLockName
  pure ⟨leNat kind, leNat mode, leNat rowid, schema, table⟩

/-! ## Names -/

/-- The catalogs: the name of a live relation, and what a name stands for. Source: `tables`, `view`,
`find_visible`, `view_slot`. -/
structure LockNames where
  tableName : ℕ → Option (Text × Text)
  viewName : ℕ → Option (Text × Text)
  findVisible : Text → Text → Option ℕ
  viewSlot : Text → Text → Option ℕ

/-- Source: `TableLockMode as u8`. -/
def TableLockMode.index : TableLockMode → ℕ
  | .accessShare => 0
  | .rowShare => 1
  | .rowExclusive => 2
  | .shareUpdateExclusive => 3
  | .share => 4
  | .shareRowExclusive => 5
  | .exclusive => 6
  | .accessExclusive => 7

/-- Source: `restore_transaction_locks` (`table_mode`). -/
def TableLockMode.ofIndex : ℕ → Option TableLockMode
  | 0 => some .accessShare
  | 1 => some .rowShare
  | 2 => some .rowExclusive
  | 3 => some .shareUpdateExclusive
  | 4 => some .share
  | 5 => some .shareRowExclusive
  | 6 => some .exclusive
  | 7 => some .accessExclusive
  | _ => none

/-- Source: `LockStrength as u8`. -/
def LockStrength.index : LockStrength → ℕ
  | .update => 0
  | .noKeyUpdate => 1
  | .share => 2
  | .keyShare => 3

/-- Source: `restore_transaction_locks` (`strength`). -/
def LockStrength.ofIndex : ℕ → Option LockStrength
  | 0 => some .update
  | 1 => some .noKeyUpdate
  | 2 => some .share
  | 3 => some .keyShare
  | _ => none

/-- Source: `RoleOid::BOOTSTRAP`. -/
def bootstrapRole : ℕ := 10

/-- Source: `i32::try_from` and `RoleOid::parse`. -/
def parseRoleOid (value : ℕ) : Option ℕ :=
  if value < 2 ^ 31 ∧ (value = bootstrapRole ∨ 16384 < value) then some value else none

/-! ## Encoding -/

section Encoding

variable (names : LockNames)

/-- The records of the modes of a relation lock. Source: `encode_transaction_locks`, the first
loop. -/
def objectRecords (lock : ObjectLock) : List LockRecord :=
  match lock.relation with
  | .table slot =>
    match names.tableName slot with
    | none => []
    | some (schema, name) =>
      (TableLockMode.all.filter lock.mask).map fun m => ⟨0, m.index, 0, schema, name⟩
  | .view slot =>
    match names.viewName slot with
    | none => []
    | some (schema, name) =>
      (TableLockMode.all.filter lock.mask).map fun m => ⟨3, m.index, 0, schema, name⟩
  | .role oid => (TableLockMode.all.filter lock.mask).map fun m => ⟨4, m.index, oid, [], []⟩

/-- Source: `encode_transaction_locks` with `visit_owner`. -/
def rowRecords (lock : RowLock) : List LockRecord :=
  match names.tableName lock.table.toNat with
  | none => []
  | some (schema, name) =>
    (LockStrength.all.filter (modesMask lock.modes)).map fun s =>
      ⟨1, s.index, lock.rowid, schema, name⟩

/-- Source: `encode_transaction_locks` (`mode` of an advisory lock). -/
def advisoryIndex : ℕ → AdvisoryMode → Option ℕ
  | 1, .shared => some 0
  | 1, .exclusive => some 1
  | 2, .shared => some 2
  | 2, .exclusive => some 3
  | _, _ => none

/-- Source: `encode_transaction_locks` (`packed`). -/
def AdvisoryKey.packed (key : AdvisoryKey) : ℕ := key.classId.toNat * 2 ^ 32 + key.objectId.toNat

/-- Source: `encode_transaction_locks` with `visit_transaction`. -/
def advisoryRecord (lock : AdvisoryLock) : Except SqlError LockRecord :=
  match advisoryIndex lock.key.objectSubId lock.mode with
  | none => .error ⟨.internalError, "advisory lock has an invalid key namespace"⟩
  | some mode => .ok ⟨2, mode, lock.key.packed, [], []⟩

/-- What is to be written, in the order of the three loops. Source: `encode_transaction_locks`. -/
def lockRecords (locks : LockState) (t : UInt32) : List (Except SqlError LockRecord) :=
  ((locks.table.items.filter (·.owner == .transaction t)).flatMap (objectRecords names)).map .ok ++
    (((locks.row.locks.items.filter (·.owner == t)).flatMap (rowRecords names)).map .ok ++
      (locks.advisory.locks.items.filter (·.owner == .transaction t)).map advisoryRecord)

/-- **Source: `encode_transaction_locks`.** -/
def encodeTransactionLocks (limit : ℕ) (locks : LockState) (t : UInt32) : Except SqlError Bytes :=
  (lockRecords names locks t).foldlM (fun output record => record >>= appendLock limit output) []

end Encoding

/-! ## Restoring -/

namespace LockSystem

/-- Source: `restore_transaction_locks`, the errors. -/
def missingRelation (r : LockRecord) : SqlError :=
  ⟨.dataException, "prepared lock WAL targets missing relation \"" ++
    String.ofList r.schema ++ "." ++ String.ofList r.table ++ "\""⟩

/-- Source: `restore_transaction_locks`, the kinds 0 and 3. -/
def restoreRelation (s : LockSystem) (t : UInt32) (r : LockRecord)
    (relation : Option ObjectLockTarget) : LockSystem × Except SqlError Unit :=
  match relation with
  | none => (s, .error (missingRelation r))
  | some relation =>
    match TableLockMode.ofIndex r.mode with
    | none => (s, .error ⟨.dataException, "prepared lock WAL has an invalid table-lock mode"⟩)
    | some mode => s.lockObject t relation mode false

/-- Source: `restore_transaction_locks`, the kind 1. -/
def restoreRow (s : LockSystem) (t : UInt32) (r : LockRecord) (slot : Option ℕ) :
    LockSystem × Except SqlError Unit :=
  match slot with
  | none => (s, .error (missingRelation r))
  | some slot =>
    match LockStrength.ofIndex r.mode with
    | none => (s, .error ⟨.dataException, "prepared lock WAL has an invalid row-lock mode"⟩)
    | some strength =>
      match s.acquireRowLock slot r.rowid t strength .wait with
      | (s, .error e) => (s, .error e)
      | (s, .ok .acquired) => (s, .ok ())
      | (s, .ok _) => (s, .error ⟨.dataException, "recovered prepared locks conflict"⟩)

/-- Source: `restore_transaction_locks` (`advisory_mode`). -/
def advisoryModeOf : ℕ → Option AdvisoryMode
  | 0 | 2 => some .shared
  | 1 | 3 => some .exclusive
  | _ => none

/-- Source: `restore_transaction_locks`, the kind 2. -/
def restoreAdvisory (s : LockSystem) (t : UInt32) (r : LockRecord) :
    LockSystem × Except SqlError Unit :=
  match advisoryModeOf r.mode with
  | none => (s, .error ⟨.dataException, "prepared lock WAL has an invalid advisory-lock mode"⟩)
  | some mode =>
    match s.locks.nextSequence with
    | (_, .error e) => (s, .error e)
    | (locks, .ok sequence) =>
      let result := locks.advisory.acquire
        ⟨UInt32.ofNat (r.rowid / 2 ^ 32), UInt32.ofNat r.rowid, if r.mode < 2 then 1 else 2⟩
        (.transaction t) (preparedWaitOwner t) mode false sequence locks.row
      let s := { s with locks := { locks with advisory := result.1.1, row := result.1.2 } }
      match result.2 with
      | .error e => (s, .error e)
      | .ok .acquired => (s, .ok ())
      | .ok _ => (s, .error ⟨.dataException, "recovered prepared advisory locks conflict"⟩)

/-- Source: `restore_transaction_locks` (`mode` of a role lock). -/
def roleModeOf : ℕ → Option TableLockMode
  | 0 => some .accessShare
  | 3 => some .shareUpdateExclusive
  | 7 => some .accessExclusive
  | _ => none

/-- Source: `restore_transaction_locks`, the kind 4. -/
def restoreRole (s : LockSystem) (t : UInt32) (r : LockRecord) :
    LockSystem × Except SqlError Unit :=
  match (parseRoleOid r.rowid).filter fun _ => r.schema.isEmpty && r.table.isEmpty with
  | none => (s, .error ⟨.dataException, "prepared lock WAL has an invalid role identity"⟩)
  | some source =>
    match roleModeOf r.mode with
    | none => (s, .error ⟨.dataException, "prepared lock WAL has an invalid role-lock mode"⟩)
    | some mode =>
      if source = bootstrapRole ∧ mode ≠ .shareUpdateExclusive then
        (s, .error ⟨.dataException, "prepared lock WAL has an invalid bootstrap role-lock mode"⟩)
      else s.lockObject t (.role source) mode false

/-- One record. Source: `restore_transaction_locks`, the `match` on the kind. -/
def restoreLock (names : LockNames) (t : UInt32) (s : LockSystem) (r : LockRecord) :
    LockSystem × Except SqlError Unit :=
  match r.kind with
  | 0 => s.restoreRelation t r ((names.findVisible r.schema r.table).map .table)
  | 3 => s.restoreRelation t r ((names.viewSlot r.schema r.table).map .view)
  | 1 => s.restoreRow t r (names.findVisible r.schema r.table)
  | 2 => s.restoreAdvisory t r
  | 4 => s.restoreRole t r
  | _ => (s, .error ⟨.dataException, "prepared lock WAL has an invalid lock kind"⟩)

/-- **Source: `restore_transaction_locks`.** A record takes at least twelve bytes, so the bytes
bound the rounds. -/
def restoreTransactionLocks (names : LockNames) (s : LockSystem) (t : UInt32) (encoded : Bytes) :
    LockSystem × Except SqlError Unit :=
  readAll takeLock (restoreLock names t) encoded.length s encoded

end LockSystem

/-! ## The format -/

/-- A record that `append_lock` can write. -/
structure LockRecord.Fits (r : LockRecord) : Prop where
  kind : r.kind < 256
  mode : r.mode < 256
  rowid : r.rowid < 2 ^ 64
  schema : r.schema.toUtf8.length ≤ 255
  table : r.table.toUtf8.length ≤ 255

lemma lockBytes_ne_nil (r : LockRecord) : lockBytes r ≠ [] := by
  intro h
  have hlen := congrArg List.length h
  unfold lockBytes at hlen
  rw [length_append, length_leBytes, length_nil] at hlen
  omega

lemma takeLockName_append {name : Text} (h : name.toUtf8.length ≤ 255) (rest : Bytes) :
    takeLockName.run (Take.countedBytes 1 name.toUtf8 ++ rest) = .ok (name, rest) := by
  have hlen : leNat (leBytes 1 name.toUtf8.length) = name.toUtf8.length :=
    leNat_leBytes (by omega)
  unfold takeLockName Take.countedBytes
  rw [append_assoc, run_bind_ok (need_append (length_leBytes 1 _)),
    run_bind_ok (need_append hlen.symm), Text.ofUtf8_toUtf8]
  exact lift_run rfl rest

/-- **A record is read back.** -/
theorem takeLock_append {r : LockRecord} (h : r.Fits) (rest : Bytes) :
    takeLock.run (lockBytes r ++ rest) = .ok (r, rest) := by
  unfold takeLock lockBytes
  simp only [append_assoc]
  rw [run_bind_ok (need_append (length_leBytes 1 _)),
    run_bind_ok (need_append (length_leBytes 1 _)), run_bind_ok (need_append (length_leBytes 8 _)),
    run_bind_ok (takeLockName_append h.schema _), run_bind_ok (takeLockName_append h.table _),
    leNat_leBytes (by have := h.kind; omega), leNat_leBytes (by have := h.mode; omega),
    leNat_leBytes (by have := h.rowid; omega)]
  rfl

lemma local_takeLockName : takeLockName.Local := by
  refine local_bind (local_need _ _) fun _ => ?_
  exact local_bind (local_need _ _) fun _ => local_lift _

lemma local_takeLock : takeLock.Local := by
  refine local_bind (local_need _ _) fun _ => ?_
  refine local_bind (local_need _ _) fun _ => ?_
  refine local_bind (local_need _ _) fun _ => ?_
  refine local_bind local_takeLockName fun _ => ?_
  exact local_bind local_takeLockName fun _ => local_pure _

/-- **What was encoded**: the records one after the other, each with room for its names. -/
theorem foldlM_appendLock {limit : ℕ} {rs : List (Except SqlError LockRecord)}
    {output bytes : Bytes}
    (h : rs.foldlM (fun output record => record >>= appendLock limit output) output = .ok bytes)
    (hlimit : output.length ≤ limit) :
    ∃ written : List LockRecord, rs = written.map .ok ∧
      bytes = output ++ written.flatMap lockBytes ∧ bytes.length ≤ limit ∧
      ∀ r ∈ written, r.schema.toUtf8.length ≤ 255 ∧ r.table.toUtf8.length ≤ 255 := by
  induction rs generalizing output with
  | nil =>
    cases h
    exact ⟨[], rfl, (append_nil _).symm, hlimit, fun r hr => (nomatch hr)⟩
  | cons record rs ih =>
    rw [foldlM_cons] at h
    obtain ⟨next, hnext, hrest⟩ := ok_of_bind_ok h
    obtain ⟨r, rfl, happ⟩ := ok_of_bind_ok hnext
    unfold appendLock at happ
    split at happ
    · cases happ
    rename_i hfits
    cases happ
    obtain ⟨written, rfl, rfl, hlen, hnames⟩ := ih hrest (by omega)
    refine ⟨r :: written, rfl, ?_, hlen, forall_mem_cons.mpr ⟨by omega, hnames⟩⟩
    rw [flatMap_cons, append_assoc]

end Pos3ql
