import Pos3ql.Foundation.FixedVec
import Pos3ql.SqlError

/-!
# The snapshot registry and reader admission

The registry records which commit LSNs readers may still look at: `active` snapshots of
repeatable-read transactions, `exported` replication snapshots and executing `statements`. History
is kept for the oldest of them. The same owner holds *admission*: the last completely installed
commit LSN and the phase of the installation in progress, so that a new statement gets its
snapshot only between installations.

Sources: `storage/snapshot_leases.rs`, `storage/transaction_admission.rs`, and
`register_snapshot`/`release_snapshot` of `storage/mod.rs`. A wait owner is identified with the
transaction it stands for. Left out: the serializable registry, the wake-up of lock waiters, and
the database check of an import (one database is modelled).
-/

namespace Pos3ql

open List Option

/-- Source: `config::TransactionMode`. -/
inductive TransactionMode
  | mvcc
  | locking
  deriving DecidableEq, Repr

/-- Source: `transaction_admission::Phase`. -/
inductive Phase
  | open
  | installing (owner : ℕ)
  | recoveryRequired
  deriving DecidableEq, Repr

/-- Source: `TransactionAdmission`. -/
structure TransactionAdmission where
  visibleLsn : ℕ
  phase : Phase
  deriving DecidableEq, Repr

/-- Source: `ExportedSnapshot`. -/
structure ExportedSnapshot where
  connection : ℕ
  lsn : ℕ
  deriving DecidableEq, Repr

/-- An executing statement; `lsn = none` once its transaction has ended.
Source: `StatementSnapshot`. -/
structure StatementSnapshot where
  identity : ℕ
  transaction : ℕ
  lsn : Option ℕ
  deriving DecidableEq, Repr

/-- Source: `SnapshotState`. -/
structure SnapshotState where
  transactionMode : TransactionMode
  admission : TransactionAdmission
  exported : List ExportedSnapshot
  exportedCapacity : ℕ
  /-- Pairs of transaction and snapshot LSN. -/
  active : List (ℕ × ℕ)
  activeCapacity : ℕ
  statements : List StatementSnapshot
  statementsCapacity : ℕ
  nextStatement : ℕ
  deriving DecidableEq, Repr

/-- Source: `FixedVec::swap_remove`. -/
def swapRemove {α : Type} (l : List α) (i : ℕ) : List α :=
  match l.getLast? with
  | none => []
  | some z => (l.set i z).dropLast

lemma mem_of_mem_swapRemove {α : Type} {l : List α} {i : ℕ} {x : α} (h : x ∈ swapRemove l i) :
    x ∈ l := by
  unfold swapRemove at h
  rcases hz : l.getLast? with _ | z
  · simp [hz] at h
  simp only [hz] at h
  rcases mem_or_eq_of_mem_set ((dropLast_sublist _).subset h) with h | rfl
  · exact h
  · exact mem_of_getLast? hz

lemma swapRemove_perm {α : Type} {l : List α} {i : ℕ} {x : α} (h : l[i]? = some x) :
    l.Perm (x :: swapRemove l i) := by
  obtain ⟨hi, rfl⟩ := List.getElem?_eq_some_iff.mp h
  have hsplit : l = l.take i ++ l[i] :: l.drop (i + 1) := by simp
  have hperm := Foundation.FixedVec.swapRemove_perm (l.take i) (l.drop (i + 1)) l[i]
  rw [← hsplit, length_take_of_le hi.le] at hperm
  nth_rewrite 1 [hsplit]
  exact perm_middle.trans (hperm.symm.cons _)

namespace SnapshotState

/-! ## Retention -/

/-- Source: `SnapshotState::retains_for`. -/
def retainsFor (s : SnapshotState) (transaction : ℕ) : Bool :=
  s.transactionMode ==
    .mvcc && (!s.exported.isEmpty || s.active.any (fun a => a.1 != transaction) ||
      s.statements.any fun st => st.lsn.isSome && st.transaction != transaction)

/-- Every registered LSN. Source: the iterator chain of `SnapshotState::oldest`. -/
def lsns (s : SnapshotState) : List ℕ :=
  s.active.map Prod.snd ++ s.exported.map ExportedSnapshot.lsn ++
    s.statements.filterMap StatementSnapshot.lsn

/-- Source: `SnapshotState::oldest`. -/
def oldest (s : SnapshotState) : Option ℕ :=
  match s.transactionMode with
  | .locking => none
  | .mvcc => s.lsns.min?

/-- Snapshot `lsn` is held for `reader`: an active snapshot or a running statement of the
transaction, or an exported snapshot (which any transaction may read through).
Source: the three registries of `SnapshotState`. -/
def Registered (s : SnapshotState) (reader lsn : ℕ) : Prop :=
  (reader, lsn) ∈ s.active ∨ (∃ e ∈ s.exported, e.lsn = lsn) ∨
    ∃ st ∈ s.statements, st.transaction = reader ∧ st.lsn = some lsn

instance (s : SnapshotState) (reader lsn : ℕ) : Decidable (s.Registered reader lsn) := by
  unfold Registered; infer_instance

/-! ## The registries -/

/-- Source: `validate_isolation_mode` for `RepeatableRead`. -/
def validateRepeatableRead (s : SnapshotState) : Except SqlError Unit :=
  match s.transactionMode with
  | .mvcc => .ok ()
  | .locking => .error ⟨.featureNotSupported,
      "transaction_mode = locking supports READ COMMITTED and READ UNCOMMITTED only"⟩

/-- Set or insert the active snapshot of a transaction. Source: the common tail of
`register_snapshot` and `import_replication_snapshot`. -/
def putActive (s : SnapshotState) (txid lsn : ℕ) : Except SqlError SnapshotState :=
  match s.active.findIdx? (fun a => a.1 == txid) with
  | some i => .ok { s with active := s.active.set i (txid, lsn) }
  | none =>
    let capacity := s.activeCapacity
    if s.active.length < capacity then .ok { s with active := s.active ++ [(txid, lsn)] }
    else .error ⟨.programLimitExceeded, s!"more than {capacity} active historical snapshots"⟩

/-- Source: `register_snapshot`. -/
def registerSnapshot (s : SnapshotState) (txid lsn : ℕ) : Except SqlError SnapshotState := do
  s.validateRepeatableRead
  s.putActive txid lsn

/-- Source: the removal in `release_snapshot` and `end_transaction_snapshots`. -/
def removeActive (s : SnapshotState) (txid : ℕ) : SnapshotState :=
  match s.active.findIdx? (fun a => a.1 == txid) with
  | none => s
  | some i => { s with active := swapRemove s.active i }

/-- Source: `end_transaction_snapshots`. -/
def endTransactionSnapshots (s : SnapshotState) (txid : ℕ) : SnapshotState :=
  { s.removeActive txid with
    statements := s.statements.map fun st =>
      if st.transaction = txid then { st with lsn := none } else st }

/-- Source: `export_replication_snapshot`. -/
def exportReplicationSnapshot (s : SnapshotState) (connection lsn : ℕ) :
    Except SqlError SnapshotState := do
  s.validateRepeatableRead
  if connection = 0 then
    .error ⟨.objectNotInPrerequisiteState, "replication snapshot requires a live connection"⟩
  else
    match s.exported.findIdx? (fun e => e.connection == connection) with
    | some i => .ok { s with exported := s.exported.set i ⟨connection, lsn⟩ }
    | none =>
      if s.exported.length < s.exportedCapacity then
        .ok { s with exported := s.exported ++ [⟨connection, lsn⟩] }
      else .error ⟨.programLimitExceeded, "too many exported replication snapshots"⟩

/-- Source: `invalidate_replication_snapshot`. -/
def invalidateReplicationSnapshot (s : SnapshotState) (connection : ℕ) : SnapshotState :=
  match s.exported.findIdx? (fun e => e.connection == connection) with
  | none => s
  | some i => { s with exported := swapRemove s.exported i }

/-- Eight upper-case hexadecimal digits. Source: the format `08X`. -/
def hex8 (n : ℕ) : String :=
  let digits := (Nat.toDigits 16 n).map Char.toUpper
  String.ofList (replicate (8 - digits.length) '0' ++ digits)

/-- Source: `SnapshotIdentifier::issued`. -/
def issued (connection lsn : ℕ) : String := hex8 connection ++ "-" ++ hex8 lsn ++ "-1"

/-- Source: `import_replication_snapshot`. -/
def importReplicationSnapshot (s : SnapshotState) (name : String) (txid : ℕ) :
    Except SqlError SnapshotState := do
  s.validateRepeatableRead
  match s.exported.find? fun e => issued e.connection e.lsn == name with
  | some e => s.putActive txid e.lsn
  | none => .error ⟨.undefinedObject, "snapshot \"" ++ name ++ "\" does not exist"⟩

/-! ## Admission -/

/-- Source: `recovery_required`. -/
def recoveryRequired : SqlError :=
  ⟨.transactionResolutionUnknown, "commit completion requires recovery; connection must close"⟩

/-- Source: `TransactionAdmission::select`. -/
def select (s : SnapshotState) (waiter : ℕ) : Except SqlError ℕ :=
  match s.admission.phase with
  | .open => .ok s.admission.visibleLsn
  | .installing owner =>
    if owner ≠ waiter then
      .error ⟨.internalLockWait, "statement is waiting for transaction publication"⟩
    else .error recoveryRequired
  | .recoveryRequired => .error recoveryRequired

/-- Source: `retain_statement_snapshot`; `choose` is the caller's `select` callback. -/
def retainStatementSnapshot (s : SnapshotState) (txid : ℕ) (choose : ℕ → ℕ) :
    Except SqlError SnapshotState := do
  let visible ← s.select txid
  if u64Max ≤ s.nextStatement then
    .error ⟨.programLimitExceeded, "statement snapshot identity exhausted"⟩
  else if s.statements.length = s.statementsCapacity then
    let capacity := s.statementsCapacity
    .error ⟨.programLimitExceeded, s!"statement snapshots are exhausted ({capacity})"⟩
  else
    .ok { s with
      statements := s.statements ++ [⟨s.nextStatement + 1, txid, some (choose visible)⟩]
      nextStatement := s.nextStatement + 1 }

/-- The snapshot of a statement: the visible LSN, or the one its repeatable-read transaction already
holds. Source: `TxnState::statement_snapshot`, whose `snapshot_lsn` is the transaction's active
snapshot. -/
def statementSnapshot (s : SnapshotState) (txid : ℕ) (repeatable : Bool) (visible : ℕ) : ℕ :=
  if repeatable then ((s.active.find? fun a => a.1 == txid).map Prod.snd).getD visible else visible

/-- Source: `begin_command_snapshot`, taking and retaining a snapshot. -/
def beginCommandSnapshot (s : SnapshotState) (txid : ℕ) (repeatable : Bool) :
    Except SqlError SnapshotState := do
  let admitted ← s.retainStatementSnapshot txid (s.statementSnapshot txid repeatable)
  if repeatable then
    admitted.registerSnapshot txid (s.statementSnapshot txid repeatable s.admission.visibleLsn)
  else .ok admitted

/-- Source: `Drop for StatementSnapshotLease`; `none` is its `expect`. -/
def dropStatement (s : SnapshotState) (identity : ℕ) : Option SnapshotState := do
  let i ← s.statements.findIdx? fun st => st.identity == identity
  some { s with statements := swapRemove s.statements i }

/-- Source: `advance_visible_lsn`. -/
def advanceVisibleLsn (s : SnapshotState) (lsn : ℕ) : Except SqlError SnapshotState :=
  match s.admission.phase with
  | .open => .ok { s with admission.visibleLsn := max s.admission.visibleLsn lsn }
  | _ => .error recoveryRequired

/-- Source: `begin_transaction_installation`. -/
def beginTransactionInstallation (s : SnapshotState) (transaction : ℕ) :
    Except SqlError SnapshotState :=
  if transaction = 0 then .error recoveryRequired
  else match s.admission.phase with
    | .open => .ok { s with admission.phase := .installing transaction }
    | _ => .error recoveryRequired

/-- Source: `TransactionInstallation::complete`; `none` is its `assert!`. -/
def completeInstallation (s : SnapshotState) (owner lsn : ℕ) : Option SnapshotState :=
  if s.admission.phase = .installing owner then
    some { s with admission := ⟨max s.admission.visibleLsn lsn, .open⟩ }
  else none

/-- Source: `Drop for TransactionInstallation` when not completed. -/
def dropInstallation (s : SnapshotState) (owner : ℕ) : Option SnapshotState :=
  if s.admission.phase = .installing owner then
    some { s with admission.phase := .recoveryRequired }
  else none

/-! ## What a successful call did -/

section Inversion

variable {s s' : SnapshotState} {txid lsn : ℕ}

/-- Only in MVCC mode. -/
lemma validateRepeatableRead_ok (h : s.validateRepeatableRead = .ok ()) :
    s.transactionMode = .mvcc := by
  unfold validateRepeatableRead at h
  split at h
  · assumption
  · cases h

/-- What becomes registered. -/
lemma putActive_ok (h : s.putActive txid lsn = .ok s') :
    ∃ active, s' = { s with active := active } ∧
      (∀ a ∈ active, a ∈ s.active ∨ a = (txid, lsn)) := by
  unfold putActive at h
  split at h
  · cases h
    exact ⟨_, rfl, fun a ha => mem_or_eq_of_mem_set ha⟩
  dsimp only at h
  split_ifs at h
  cases h
  exact ⟨_, rfl, fun a ha => by simpa using ha⟩

/-- A registration in MVCC mode. -/
lemma registerSnapshot_ok (h : s.registerSnapshot txid lsn = .ok s') :
    s.transactionMode = .mvcc ∧ s.putActive txid lsn = .ok s' := by
  obtain ⟨u, hmode, hput⟩ := ok_of_bind_ok h
  exact ⟨validateRepeatableRead_ok hmode, hput⟩

/-- Only active snapshots go. -/
lemma removeActive_eq (s : SnapshotState) (txid : ℕ) :
    ∃ active, s.removeActive txid = { s with active := active } := by
  unfold removeActive
  split
  · exact ⟨s.active, rfl⟩
  · exact ⟨_, rfl⟩

/-- Only exports change. -/
lemma exportReplicationSnapshot_ok {conn : ℕ} (h : s.exportReplicationSnapshot conn lsn = .ok s') :
    ∃ exported, s' = { s with exported := exported } := by
  obtain ⟨u, -, h⟩ := ok_of_bind_ok h
  by_cases hzero : conn = 0
  · rw [if_pos hzero] at h
    cases h
  rw [if_neg hzero] at h
  split at h
  · cases h
    exact ⟨_, rfl⟩
  · split_ifs at h
    cases h
    exact ⟨_, rfl⟩

/-- Only exports change. -/
lemma invalidateReplicationSnapshot_eq (s : SnapshotState) (conn : ℕ) :
    ∃ exported, s.invalidateReplicationSnapshot conn = { s with exported := exported } := by
  unfold invalidateReplicationSnapshot
  split
  · exact ⟨s.exported, rfl⟩
  · exact ⟨_, rfl⟩

/-- An import registers an export. -/
lemma importReplicationSnapshot_ok {name : String}
    (h : s.importReplicationSnapshot name txid = .ok s') :
    ∃ e : ExportedSnapshot, s.putActive txid e.lsn = .ok s' := by
  obtain ⟨u, -, h⟩ := ok_of_bind_ok h
  split at h
  · rename_i e he
    exact ⟨e, h⟩
  · cases h

/-- Reads are admitted between installations. -/
lemma select_ok {waiter visible : ℕ} (h : s.select waiter = .ok visible) :
    s.admission.phase = .open ∧ visible = s.admission.visibleLsn := by
  unfold select at h
  split at h
  · exact ⟨by assumption, (Except.ok.inj h).symm⟩
  · split_ifs at h
  · cases h

/-- **A statement is admitted between installations only**, at the chosen LSN. -/
theorem retainStatementSnapshot_ok {choose : ℕ → ℕ}
    (h : s.retainStatementSnapshot txid choose = .ok s') :
    s.admission.phase = .open ∧ s' = { s with
        statements :=
          s.statements ++ [⟨s.nextStatement + 1, txid, some (choose s.admission.visibleLsn)⟩]
        nextStatement := s.nextStatement + 1 } := by
  obtain ⟨visible, hsel, h⟩ := ok_of_bind_ok h
  obtain ⟨hopen, rfl⟩ := select_ok hsel
  split_ifs at h
  · exact ⟨hopen, (Except.ok.inj h).symm⟩

/-- Only statements go. -/
lemma dropStatement_eq {ident : ℕ} (h : s.dropStatement ident = some s') :
    ∃ statements, s' = { s with statements := statements } ∧
      ∀ st ∈ statements, st ∈ s.statements := by
  obtain ⟨i, -, hi⟩ := bind_eq_some_iff.mp h
  cases hi
  exact ⟨_, rfl, fun st hst => mem_of_mem_swapRemove hst⟩

/-- The LSN moves between installations. -/
lemma advanceVisibleLsn_ok (h : s.advanceVisibleLsn lsn = .ok s') :
    s.admission.phase = .open ∧
      s' = { s with admission.visibleLsn := max s.admission.visibleLsn lsn } := by
  unfold advanceVisibleLsn at h
  split at h
  · exact ⟨by assumption, (Except.ok.inj h).symm⟩
  · cases h

/-- An installation starts between others. -/
lemma beginTransactionInstallation_ok (h : s.beginTransactionInstallation txid = .ok s') :
    s.admission.phase = .open ∧ txid ≠ 0 ∧ s' = { s with admission.phase := .installing txid } := by
  unfold beginTransactionInstallation at h
  split_ifs at h with hzero
  split at h
  · exact ⟨by assumption, hzero, (Except.ok.inj h).symm⟩
  · cases h

/-- It ends with its LSN visible. -/
lemma completeInstallation_eq (h : s.completeInstallation txid lsn = some s') :
    s.admission.phase = .installing txid ∧
      s' = { s with admission := ⟨max s.admission.visibleLsn lsn, .open⟩ } := by
  unfold completeInstallation at h
  split_ifs at h with hphase
  exact ⟨hphase, (some.inj h).symm⟩

/-- A dropped one requires recovery. -/
lemma dropInstallation_eq (h : s.dropInstallation txid = some s') :
    s.admission.phase = .installing txid ∧
      s' = { s with admission.phase := .recoveryRequired } := by
  unfold dropInstallation at h
  split_ifs at h with hphase
  exact ⟨hphase, (some.inj h).symm⟩

/-- Each transaction holds at most one active snapshot. -/
def ActiveUnique (s : SnapshotState) : Prop := (s.active.map Prod.fst).Nodup

lemma getElem?_of_findIdx?_owner {l : List (ℕ × ℕ)} {i : ℕ}
    (h : l.findIdx? (fun a => a.1 == txid) = some i) : ∃ lsn, l[i]? = some (txid, lsn) := by
  obtain ⟨hi, hp, -⟩ := findIdx?_eq_some_iff_getElem.mp h
  refine ⟨l[i].2, ?_⟩
  have howner : l[i].1 = txid := by simpa using hp
  rw [getElem?_eq_getElem hi, ← howner]

/-- One active snapshot each. -/
lemma putActive_unique (huniq : s.ActiveUnique) (h : s.putActive txid lsn = .ok s') :
    s'.ActiveUnique := by
  unfold putActive at h
  split at h
  · rename_i i hi
    cases h
    obtain ⟨old, hget⟩ := getElem?_of_findIdx?_owner hi
    have howner : (s.active.map Prod.fst)[i]? = some txid := by simp [hget]
    have hmap : (s.active.set i (txid, lsn)).map Prod.fst = s.active.map Prod.fst := by
      obtain ⟨hlen, howner⟩ := List.getElem?_eq_some_iff.mp howner
      rw [map_set]
      nth_rewrite 1 [← howner]
      exact set_getElem_self hlen
    unfold ActiveUnique
    rw [hmap]
    exact huniq
  rename_i hnone
  dsimp only at h
  split_ifs at h
  cases h
  have hnot : txid ∉ s.active.map Prod.fst := by
    intro hmem
    obtain ⟨a, ha, howner⟩ := mem_map.mp hmem
    have := findIdx?_eq_none_iff.mp hnone a ha
    simp [howner] at this
  unfold ActiveUnique at huniq ⊢
  rw [map_append]
  refine nodup_append.mpr ⟨huniq, by simp, fun a ha b hb hab => hnot ?_⟩
  have hb' : b = txid := mem_singleton.mp hb
  rw [← hb', ← hab]
  exact ha

/-- **Ending a transaction's snapshots** leaves it none. -/
theorem removeActive_spec (txid : ℕ) (huniq : s.ActiveUnique) :
    (s.removeActive txid).ActiveUnique ∧
      ∀ a ∈ (s.removeActive txid).active, a ∈ s.active ∧ a.1 ≠ txid := by
  unfold removeActive
  split
  · rename_i hnone
    refine ⟨huniq, fun a ha => ⟨ha, fun howner => ?_⟩⟩
    have := findIdx?_eq_none_iff.mp hnone a ha
    simp [howner] at this
  rename_i i hi
  obtain ⟨old, hget⟩ := getElem?_of_findIdx?_owner hi
  have hperm := swapRemove_perm hget
  have hnodup : (txid :: (swapRemove s.active i).map Prod.fst).Nodup :=
    (hperm.map Prod.fst).nodup_iff.mp huniq
  obtain ⟨hnot, hrest⟩ := nodup_cons.mp hnodup
  refine ⟨hrest, fun a ha => ⟨mem_of_mem_swapRemove ha, fun howner => ?_⟩⟩
  exact hnot (howner ▸ mem_map_of_mem ha)

/-- A statement reads at the visible LSN, or at a snapshot its transaction holds. -/
lemma statementSnapshot_cases (s : SnapshotState) (txid : ℕ) (repeatable : Bool) (visible : ℕ) :
    s.statementSnapshot txid repeatable visible = visible ∨
      (txid, s.statementSnapshot txid repeatable visible) ∈ s.active := by
  unfold statementSnapshot
  split_ifs
  · rcases hfind : s.active.find? fun a => a.1 == txid with _ | a
    · exact .inl (by rw [hfind]; rfl)
    have howner : a.1 = txid := by simpa using find?_some hfind
    refine .inr ?_
    rw [hfind, ← howner]
    exact mem_of_find?_eq_some hfind
  · exact .inl rfl

/-- **Admission of a statement**: between installations only, at the visible LSN or at a snapshot
the transaction holds already. -/
theorem beginCommandSnapshot_ok {repeatable : Bool}
    (h : s.beginCommandSnapshot txid repeatable = .ok s') :
    s.admission.phase = .open ∧ s'.admission = s.admission ∧ s'.exported = s.exported ∧
      s'.transactionMode = s.transactionMode ∧ (s.ActiveUnique → s'.ActiveUnique) ∧
      ∀ reader lsn, s'.Registered reader lsn →
        s.Registered reader lsn ∨ lsn = s.admission.visibleLsn := by
  obtain ⟨admitted, hretain, h⟩ := ok_of_bind_ok h
  obtain ⟨hopen, hadmitted⟩ := retainStatementSnapshot_ok hretain
  set snapshot := s.statementSnapshot txid repeatable s.admission.visibleLsn with hsnap
  have hold : ∀ lsn, lsn = snapshot → s.Registered txid lsn ∨ lsn = s.admission.visibleLsn := by
    rintro lsn rfl
    rcases s.statementSnapshot_cases txid repeatable s.admission.visibleLsn with heq | hactive
    · exact .inr heq
    · exact .inl (.inl hactive)
  have hstatements : ∀ reader lsn, admitted.Registered reader lsn →
      s.Registered reader lsn ∨ lsn = s.admission.visibleLsn := by
    rw [hadmitted]
    rintro reader lsn (hactive | hexp | ⟨st, hst, howner, hlsn⟩)
    · exact .inl (.inl hactive)
    · exact .inl (.inr (.inl hexp))
    rcases mem_append.mp hst with hst | hst
    · exact .inl (.inr (.inr ⟨st, hst, howner, hlsn⟩))
    · obtain rfl := mem_singleton.mp hst
      obtain rfl := howner
      exact hold lsn (some.inj hlsn).symm
  by_cases hrepeatable : repeatable = true
  · rw [if_pos hrepeatable] at h
    obtain ⟨-, hput⟩ := registerSnapshot_ok h
    obtain ⟨active, hs', hactive⟩ := putActive_ok hput
    have huniq : s.ActiveUnique → s'.ActiveUnique := by
      intro hs
      refine putActive_unique ?_ hput
      rw [hadmitted]
      exact hs
    refine ⟨hopen, by rw [hs', hadmitted], by rw [hs', hadmitted], by rw [hs', hadmitted], huniq,
      ?_⟩
    rw [hs']
    rintro reader lsn (hmem | hexp | hstatement)
    · rcases hactive _ hmem with hmem | heq
      · exact hstatements reader lsn (.inl hmem)
      · obtain ⟨rfl, hlsn⟩ := Prod.mk.inj heq
        exact hold lsn hlsn
    · exact hstatements reader lsn (.inr (.inl hexp))
    · exact hstatements reader lsn (.inr (.inr hstatement))
  · rw [if_neg hrepeatable] at h
    cases h
    exact ⟨hopen, by rw [hadmitted], by rw [hadmitted], by rw [hadmitted],
      fun hs => hadmitted ▸ hs, hstatements⟩

/-- Ending a transaction's snapshots leaves admission and exports alone. -/
lemma endTransactionSnapshots_keeps (s : SnapshotState) (txid : ℕ) :
    (s.endTransactionSnapshots txid).admission = s.admission ∧
      (s.endTransactionSnapshots txid).transactionMode = s.transactionMode ∧
      (s.endTransactionSnapshots txid).exported = s.exported := by
  obtain ⟨active, heq⟩ := s.removeActive_eq txid
  unfold endTransactionSnapshots
  rw [heq]
  exact ⟨rfl, rfl, rfl⟩

/-- **Ending a transaction's snapshots**: what stays registered was, and belongs to another
transaction. -/
theorem endTransactionSnapshots_spec (txid : ℕ) (huniq : s.ActiveUnique) (hexp : s.exported = []) :
    (s.endTransactionSnapshots txid).ActiveUnique ∧
      ∀ reader lsn, (s.endTransactionSnapshots txid).Registered reader lsn →
        s.Registered reader lsn ∧ reader ≠ txid := by
  obtain ⟨huniq', hactive⟩ := removeActive_spec txid huniq
  refine ⟨huniq', ?_⟩
  rintro reader lsn (hmem | ⟨e, he, -⟩ | ⟨st, hst, howner, hlsn⟩)
  · obtain ⟨hmem, hne⟩ := hactive _ hmem
    exact ⟨.inl hmem, hne⟩
  · rw [(s.endTransactionSnapshots_keeps txid).2.2, hexp] at he
    cases he
  obtain ⟨old, hold, rfl⟩ := mem_map.mp hst
  by_cases htxid : old.transaction = txid
  · rw [if_pos htxid] at hlsn
    cases hlsn
  · rw [if_neg htxid] at howner hlsn
    exact ⟨.inr (.inr ⟨old, hold, howner, hlsn⟩), fun h => htxid (howner.trans h)⟩

end Inversion

/-! ## What retention guarantees a registered snapshot -/

variable {s : SnapshotState} {reader lsn : ℕ}

/-- Registered LSNs are in the list. -/
lemma Registered.mem_lsns (h : s.Registered reader lsn) : lsn ∈ s.lsns := by
  rcases h with h | ⟨e, he, rfl⟩ | ⟨st, hst, -, hlsn⟩
  · exact mem_append_left _ (mem_append_left _ (mem_map_of_mem h))
  · exact mem_append_left _ (mem_append_right _ (mem_map_of_mem he))
  · exact mem_append_right _ (mem_filterMap.mpr ⟨st, hst, hlsn⟩)

/-- **The oldest retained LSN is at or below every registered one.**
Source: `SnapshotState::oldest`. -/
theorem Registered.oldest_le (h : s.Registered reader lsn) (hmode : s.transactionMode = .mvcc) :
    ∃ o, s.oldest = some o ∧ o ≤ lsn := by
  have hmem := h.mem_lsns
  unfold oldest
  rw [hmode]
  rcases hmin : s.lsns.min? with _ | o
  · rw [min?_eq_none_iff] at hmin
    rw [hmin] at hmem
    cases hmem
  · exact ⟨o, rfl, (min?_eq_some_iff.mp hmin).2 lsn hmem⟩

/-- **Another transaction's commit keeps history for a registered snapshot.**
Source: `SnapshotState::retains_for`. -/
theorem Registered.retainsFor (h : s.Registered reader lsn) (hmode : s.transactionMode = .mvcc)
    {txid : ℕ} (hne : txid ≠ reader) : s.retainsFor txid := by
  unfold SnapshotState.retainsFor
  rw [hmode]
  rcases h with h | ⟨e, he, rfl⟩ | ⟨st, hst, htx, hlsn⟩
  · have : s.active.any (fun a => a.1 != txid) :=
      any_eq_true.mpr ⟨_, h, by simpa using hne.symm⟩
    simp [this]
  · have : s.exported.isEmpty = false := isEmpty_eq_false_iff_exists_mem.mpr ⟨e, he⟩
    simp [this]
  · have : (s.statements.any fun st => st.lsn.isSome && st.transaction != txid) :=
      any_eq_true.mpr ⟨st, hst, by simp [hlsn, htx, hne.symm]⟩
    simp [this]

end SnapshotState

end Pos3ql
