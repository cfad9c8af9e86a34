import Pos3ql.Storage.RowRefinement

/-!
# Snapshot stability

Row storage as a transition system: `step` runs one operation, `run` a list of them, from the states
recovery can leave (`Initial`).

* `Reachable.abs`: every reachable state represents row images, so no operation on rows can panic
  (**`row_operations_never_panic`**).
* **`snapshot_stable`**: in MVCC mode, while a snapshot stays registered, whatever other
  transactions write, undo and commit above it, and whatever is pruned in between, the row version
  the snapshot sees does not change. Commits that rewrite the table into a new layout are the
  exception, and `rewrite_hides_snapshot` shows it: they deliberately keep no history.
-/

namespace Pos3ql

open Relation SnapshotState Option

/-! ## The transition system -/

/-- An operation on the snapshot registry. -/
inductive SnapshotOp
  | register (txid lsn : ℕ)
  | release (txid : ℕ)
  | endTransaction (txid : ℕ)
  | exportReplication (connection lsn : ℕ)
  | invalidateReplication (connection : ℕ)
  | importReplication (name : String) (txid : ℕ)
  | retainStatement (txid : ℕ) (choose : ℕ → ℕ)
  | dropStatement (identity : ℕ)
  | advanceVisible (lsn : ℕ)
  | beginInstallation (txid : ℕ)
  | completeInstallation (owner lsn : ℕ)
  | dropInstallation (owner : ℕ)

/-- The state after a fallible registry call: an error changes nothing. -/
def SnapshotState.orSelf (s : SnapshotState) (r : Except SqlError SnapshotState) : SnapshotState :=
  match r with
  | .ok s' => s'
  | .error _ => s

/-- Source: the functions of `Pos3ql.Storage.Snapshots`. -/
def SnapshotOp.apply (s : SnapshotState) : SnapshotOp → Option SnapshotState
  | .register txid lsn => some (s.orSelf (s.registerSnapshot txid lsn))
  | .release txid => some (s.removeActive txid)
  | .endTransaction txid => some (s.endTransactionSnapshots txid)
  | .exportReplication connection lsn =>
    some (s.orSelf (s.exportReplicationSnapshot connection lsn))
  | .invalidateReplication connection => some (s.invalidateReplicationSnapshot connection)
  | .importReplication name txid => some (s.orSelf (s.importReplicationSnapshot name txid))
  | .retainStatement txid choose => some (s.orSelf (s.retainStatementSnapshot txid choose))
  | .dropStatement identity => s.dropStatement identity
  | .advanceVisible lsn => some (s.orSelf (s.advanceVisibleLsn lsn))
  | .beginInstallation txid => some (s.orSelf (s.beginTransactionInstallation txid))
  | .completeInstallation owner lsn => s.completeInstallation owner lsn
  | .dropInstallation owner => s.dropInstallation owner

/-- An operation on row storage. -/
inductive Op
  | write (req : Storage.WriteRequest)
  | restore (k : RowKey) (txid identity : ℕ)
  | prepareKeys (k : RowKey) (txid : ℕ)
  | publish (k : RowKey) (txid commitLsn : ℕ) (context : Storage.CommitContext)
  | reserve (table txid count : ℕ)
  | prune (k : RowKey) (deletionsIdle : Bool)
  | clean (k : RowKey)
  | dropSaved (k : RowKey)
  | snapshot (op : SnapshotOp)

namespace Storage

/-- Reserve generations of a table for a transaction. -/
def reserveGenerations (st : Storage) (table txid count : ℕ) : Storage :=
  match (st.publication table).reserveGenerations txid count with
  | .ok p => { st with publication := Function.update st.publication table p }
  | .error _ => st

/-- **One operation.** `none` is a panic. -/
def step (st : Storage) : Op → Option Storage
  | .write req => (st.writePending req).map Prod.fst
  | .restore k txid identity => st.restorePending k txid identity
  | .prepareKeys k txid => st.prepareCommitRowKeys k txid
  | .publish k txid commitLsn context => (st.publishRow k txid commitLsn context).map Prod.fst
  | .reserve table txid count => some (st.reserveGenerations table txid count)
  | .prune k deletionsIdle => st.pruneSnapshotCell k deletionsIdle
  | .clean k => st.cleanSnapshotHistory k
  | .dropSaved k => some (st.dropSavedEntry k)
  | .snapshot op => (op.apply st.snapshots).map fun snapshots => { st with snapshots }

/-- **A list of operations.** -/
def run (st : Storage) (ops : List Op) : Option Storage := ops.foldlM step st

/-- A state recovery can leave: empty version arrays, and every resident row either never
committed and nowhere saved, or with its saved image in step. -/
structure Initial (st : Storage) : Prop where
  versions : ∃ pendingCapacity committedCapacity,
    st.versions = RowVersionState.new pendingCapacity committedCapacity
  rows : ∀ k r, st.rows k = some r → r.history = .empty ∧ r.pending = .empty ∧
    (r.image [] []).WF (st.context k)
  layout : ∀ t, (st.publication t).firstGeneration ≤ (st.publication t).generation

/-- Reached from such a state by some operations. -/
def Reachable (st : Storage) : Prop := ∃ start ops, Initial start ∧ start.run ops = some st

variable {st st' : Storage} {hl : RowKey → List CommittedVersion} {pl : RowKey → List PendingEntry}

lemma Initial.abs (h : Initial st) : Abs st (fun _ => []) (fun _ => []) := by
  obtain ⟨a, b, hversions⟩ := h.versions
  have hhist : st.histories = fun _ => .empty := by
    funext k
    rcases hr : st.rows k with _ | r
    · simp [histories, hr]
    · simp [histories, hr, (h.rows k r hr).1]
  have hpend : st.pendings = fun _ => .empty := by
    funext k
    rcases hr : st.rows k with _ | r
    · simp [pendings, hr]
    · simp [pendings, hr, (h.rows k r hr).2.1]
  refine ⟨?_, fun k r hr => ⟨fun _ => ?_, fun hne => absurd rfl hne⟩, fun k i hi => ?_, h.layout⟩
  · rw [hversions, hhist, hpend]
    exact Rep.new a b
  · rw [(h.rows k r hr).2.1]
    rfl
  · obtain ⟨r, hr, rfl⟩ := map_eq_some_iff.mp hi
    exact (h.rows k r hr).2.2

/-! ## What a step does -/

/-- The row an operation is about and what it may do there; registry operations have none. Cleaning
acts for no transaction, so its moves are moves of any `cleaner`. -/
inductive RowEffect (st : Storage) (cleaner : ℕ) :
    Op → RowKey → (Option RowImage → Option RowImage → Prop) → Prop
  | write (req : WriteRequest) : RowEffect st cleaner (.write req) req.key
    (st.Moves req.key req.change.txid)
  | restore (k : RowKey) (txid identity : ℕ) :
      RowEffect st cleaner (.restore k txid identity) k (st.Moves k txid)
  | prepareKeys (k : RowKey) (txid : ℕ) : RowEffect st cleaner (.prepareKeys k txid) k
    (st.Moves k txid)
  | publish (k : RowKey) (txid commitLsn : ℕ) (context : CommitContext) :
      RowEffect st cleaner (.publish k txid commitLsn context) k
        (st.Commits k txid commitLsn context.rewritten)
  | prune (k : RowKey) (deletionsIdle : Bool) :
      RowEffect st cleaner (.prune k deletionsIdle) k (st.Moves k cleaner)
  | clean (k : RowKey) : RowEffect st cleaner (.clean k) k (st.Moves k cleaner)
  | dropSaved (k : RowKey) : RowEffect st cleaner (.dropSaved k) k (st.Moves k cleaner)

/-- Every operation acts on one row, reserves generations, or is one of the registry. -/
lemma RowEffect.of_op (st : Storage) (cleaner : ℕ) (op : Op) :
    (∃ k R, RowEffect st cleaner op k R) ∨
      (∃ table txid count, op = .reserve table txid count) ∨ ∃ op', op = .snapshot op' := by
  cases op with
  | write req => exact .inl ⟨_, _, .write req⟩
  | restore k txid identity => exact .inl ⟨_, _, .restore k txid identity⟩
  | prepareKeys k txid => exact .inl ⟨_, _, .prepareKeys k txid⟩
  | publish k txid commitLsn context => exact .inl ⟨_, _, .publish k txid commitLsn context⟩
  | prune k deletionsIdle => exact .inl ⟨_, _, .prune k deletionsIdle⟩
  | clean k => exact .inl ⟨_, _, .clean k⟩
  | dropSaved k => exact .inl ⟨_, _, .dropSaved k⟩
  | reserve table txid count => exact .inr (.inl ⟨table, txid, count, rfl⟩)
  | snapshot op => exact .inr (.inr ⟨op, rfl⟩)

variable {op : Op}

/-- **A row operation returns**, and changes one row by moves or by a commit. -/
theorem Abs.step_row (habs : Abs st hl pl) {cleaner : ℕ} {k : RowKey}
    {R : Option RowImage → Option RowImage → Prop} (heffect : RowEffect st cleaner op k R) :
    ∃ st' hl' pl', st.step op = some st' ∧ Abs st' hl' pl' ∧ Changed st hl pl st' hl' pl' k R := by
  cases heffect with
  | write req =>
    obtain ⟨st', result, hl', pl', hop, h⟩ := habs.writePending_spec req
    exact ⟨st', hl', pl', by simp [step, hop], h⟩
  | restore k txid identity => exact habs.restorePending_spec k txid identity
  | prepareKeys k txid => exact habs.prepareCommitRowKeys_spec k txid
  | publish k txid commitLsn context =>
    obtain ⟨st', result, hl', pl', hop, h⟩ := habs.publishRow_spec k txid commitLsn context
    exact ⟨st', hl', pl', by simp [step, hop], h⟩
  | prune k deletionsIdle => exact habs.pruneSnapshotCell_spec k deletionsIdle cleaner
  | clean k => exact habs.cleanSnapshotHistory_spec k cleaner
  | dropSaved k =>
    obtain ⟨hl', pl', h⟩ := habs.dropSavedEntry_spec k cleaner
    exact ⟨_, hl', pl', rfl, h⟩

lemma Abs.reserveGenerations (habs : Abs st hl pl) (table txid count : ℕ) :
    Abs (st.reserveGenerations table txid count) hl pl ∧
      SameEnv st (st.reserveGenerations table txid count) ∧
      (st.reserveGenerations table txid count).rows = st.rows := by
  unfold Storage.reserveGenerations
  rcases hres : (st.publication table).reserveGenerations txid count with err | p
  · exact ⟨habs, SameEnv.refl st, rfl⟩
  have hp : p.firstGeneration = (st.publication table).firstGeneration ∧
      p.generation = (st.publication table).generation := by
    unfold TablePublication.reserveGenerations at hres
    dsimp only at hres
    split_ifs at hres
    cases hres
    exact ⟨rfl, rfl⟩
  have hfirst : ∀ t, (Function.update st.publication table p t).firstGeneration =
      (st.publication t).firstGeneration := by
    intro t
    by_cases ht : t = table
    · subst ht; simp [hp.1]
    · simp [Function.update_of_ne ht]
  refine ⟨habs.withPublication hfirst fun t => ?_, ⟨rfl, rfl, rfl, hfirst⟩, rfl⟩
  by_cases ht : t = table
  · subst ht; simp [hp.2]
  · simp [Function.update_of_ne ht]

lemma apply_transactionMode {s s' : SnapshotState} {op : SnapshotOp} (h : op.apply s = some s') :
    s'.transactionMode = s.transactionMode := by
  -- a failed call returns the state it was given
  have hself : ∀ {r : Except SqlError SnapshotState}, some (s.orSelf r) = some s' →
      (∀ s₁, r = .ok s₁ →
      s₁.transactionMode = s.transactionMode) → s'.transactionMode = s.transactionMode := by
    rintro (err | s₁) hr hkeep
    · exact congrArg transactionMode (some.inj hr).symm
    · rw [← some.inj hr]
      exact hkeep s₁ rfl
  have hput : ∀ {txid lsn : ℕ} {s₁ : SnapshotState}, s.putActive txid lsn = .ok s₁ →
      s₁.transactionMode = s.transactionMode := by
    intro txid lsn s₁ h₁
    obtain ⟨active, rfl, -⟩ := putActive_ok h₁
    rfl
  cases op with
  | register txid lsn =>
    exact hself h fun s₁ h₁ => hput (registerSnapshot_ok h₁).2
  | release txid =>
    obtain ⟨active, heq⟩ := s.removeActive_eq txid
    rw [← some.inj h, heq]
  | endTransaction txid =>
    obtain ⟨active, heq⟩ := s.removeActive_eq txid
    rw [← some.inj h, endTransactionSnapshots, heq]
  | exportReplication connection lsn =>
    refine hself h fun s₁ h₁ => ?_
    obtain ⟨exported, rfl⟩ := exportReplicationSnapshot_ok h₁
    rfl
  | invalidateReplication connection =>
    obtain ⟨exported, heq⟩ := s.invalidateReplicationSnapshot_eq connection
    rw [← some.inj h, heq]
  | importReplication name txid =>
    refine hself h fun s₁ h₁ => ?_
    obtain ⟨e, hput'⟩ := importReplicationSnapshot_ok h₁
    exact hput hput'
  | retainStatement txid choose =>
    exact hself h fun s₁ h₁ => by rw [(retainStatementSnapshot_ok h₁).2]
  | dropStatement identity =>
    obtain ⟨statements, rfl, -⟩ := dropStatement_eq h
    rfl
  | advanceVisible lsn =>
    exact hself h fun s₁ h₁ => by rw [(advanceVisibleLsn_ok h₁).2]
  | beginInstallation txid =>
    exact hself h fun s₁ h₁ => by rw [(beginTransactionInstallation_ok h₁).2.2]
  | completeInstallation owner lsn =>
    rw [(completeInstallation_eq h).2]
  | dropInstallation owner =>
    rw [(dropInstallation_eq h).2]

/-- What any operation leaves alone: the mode, the saved generations and the layout. -/
structure Keeps (st st' : Storage) : Prop where
  mode : st'.snapshots.transactionMode = st.snapshots.transactionMode
  spill : st'.spillGenerations = st.spillGenerations
  maximum : st'.maxRowVersionsPerRow = st.maxRowVersionsPerRow
  layout : ∀ t, (st'.publication t).firstGeneration = (st.publication t).firstGeneration

lemma SameEnv.keeps (h : SameEnv st st') : Keeps st st' :=
  ⟨by rw [h.snapshots], h.spill, h.maximum, h.layout⟩

/-- **What a step did**: a row operation changed one row and nothing else; any other operation
changed no row. -/
theorem Abs.step_cases (habs : Abs st hl pl) (hstep : st.step op = some st') (cleaner : ℕ) :
    ∃ hl' pl', Abs st' hl' pl' ∧ Keeps st st' ∧
      ((∃ k R, RowEffect st cleaner op k R ∧ Changed st hl pl st' hl' pl' k R) ∨
        st'.image hl' pl' = st.image hl pl) := by
  rcases RowEffect.of_op st cleaner op with ⟨k, R, heffect⟩ | ⟨table, txid, count, rfl⟩ | ⟨op, rfl⟩
  · obtain ⟨st₁, hl', pl', hop, habs', hchg⟩ := habs.step_row heffect
    obtain rfl := some.inj (hop.symm.trans hstep)
    exact ⟨hl', pl', habs', hchg.env.keeps, .inl ⟨k, R, heffect, hchg⟩⟩
  · cases hstep
    obtain ⟨habs', henv, hrows⟩ := habs.reserveGenerations table txid count
    exact ⟨hl, pl, habs', henv.keeps, .inr (by funext k; simp [image, hrows])⟩
  · obtain ⟨snapshots, happly, rfl⟩ := map_eq_some_iff.mp hstep
    have hmode := apply_transactionMode happly
    refine ⟨hl, pl, ⟨habs.rep, fun k r hr => ?_, habs.wf, habs.layout⟩,
      ⟨hmode, rfl, rfl, fun _ => rfl⟩, .inr rfl⟩
    have hres := habs.reservation k r hr
    rwa [← hmode] at hres

/-- Every reachable state represents rows. -/
lemma Reachable.abs (h : Reachable st) : ∃ hl pl, Abs st hl pl := by
  obtain ⟨start, ops, hinit, hrun⟩ := h
  have hstart : ∃ hl pl, Abs start hl pl := ⟨_, _, hinit.abs⟩
  clear hinit
  induction ops generalizing start with
  | nil =>
    cases hrun
    exact hstart
  | cons op ops ih =>
    obtain ⟨mid, hstep, hrun⟩ := bind_eq_some_iff.mp hrun
    obtain ⟨hl, pl, habs⟩ := hstart
    obtain ⟨hl', pl', habs', -⟩ := habs.step_cases hstep 0
    exact ih mid hrun ⟨hl', pl', habs'⟩

/-- In a reachable state every array access, assertion and chain walk of writing, undoing,
committing and pruning succeeds: only the registry can panic. -/
lemma Reachable.step_total (h : Reachable st) (op : Op) :
    (∃ op', op = .snapshot op' ∧ op'.apply st.snapshots = none) ∨
      ∃ st', st.step op = some st' ∧ Reachable st' := by
  rcases hstep : st.step op with _ | st'
  · obtain ⟨hl, pl, habs⟩ := h.abs
    rcases RowEffect.of_op st 0 op with ⟨k, R, heffect⟩ | ⟨table, txid, count, rfl⟩ | ⟨op, rfl⟩
    · obtain ⟨st', -, -, hsome, -⟩ := habs.step_row heffect
      cases hstep.symm.trans hsome
    · cases hstep
    · exact .inl ⟨op, rfl, map_eq_none_iff.mp hstep⟩
  · obtain ⟨start, ops, hinit, hrun⟩ := h
    refine .inr ⟨st', rfl, start, ops ++ [op], hinit, ?_⟩
    unfold run at hrun ⊢
    rw [List.foldlM_append, hrun]
    simp [hstep]

/-- **Row operations never panic**: from every reachable state, a list of operations runs to its
end, unless it asks the snapshot registry for something it may panic on. Induction on the
operations. -/
theorem row_operations_never_panic (st : {st : Storage // Reachable st}) (ops : List Op) :
    (∃ op s, .snapshot op ∈ ops ∧ op.apply s = none) ∨
      ∃ st', st.1.run ops = some st' ∧ Reachable st' := by
  obtain ⟨st, h⟩ := st
  induction ops generalizing st with
  | nil => exact .inr ⟨st, rfl, h⟩
  | cons op ops ih =>
    rcases h.step_total op with ⟨op', rfl, hpanic⟩ | ⟨mid, hmid, hreach⟩
    · exact .inl ⟨op', _, List.mem_cons_self, hpanic⟩
    rcases ih mid hreach with ⟨op', s, hop', hpanic⟩ | ⟨st', hrun, hst'⟩
    · exact .inl ⟨op', s, List.mem_cons_of_mem _ hop', hpanic⟩
    · refine .inr ⟨st', ?_, hst'⟩
      rw [run, List.foldlM_cons, hmid]
      exact hrun

/-! ## A registered snapshot keeps its view -/

/-- What another transaction than `reader` may do while `reader` holds snapshot `s`: write, undo and
commit above `s`. Cleaning and the registry act for nobody. -/
def Foreign (reader s : ℕ) : Op → Prop
  | .write req => req.change.txid ≠ reader
  | .restore _ txid _ => txid ≠ reader
  | .prepareKeys _ txid => txid ≠ reader
  | .publish _ txid commitLsn _ => txid ≠ reader ∧ s < commitLsn
  | _ => True

/-- The operation does not install a new row layout. -/
def KeepsLayout : Op → Prop
  | .publish _ _ _ context => context.rewritten = false
  | _ => True

instance (reader s : ℕ) : DecidablePred (Foreign reader s)
  | .write _ | .restore .. | .prepareKeys .. | .publish .. => by unfold Foreign; infer_instance
  | .reserve .. | .prune .. | .clean _ | .dropSaved _ | .snapshot _ => .isTrue trivial

instance : DecidablePred KeepsLayout
  | .publish .. => by unfold KeepsLayout; infer_instance
  | .write _ | .restore .. | .prepareKeys .. => .isTrue trivial
  | .reserve .. | .prune .. | .clean _ | .dropSaved _ | .snapshot _ => .isTrue trivial

/-- Every operation of the run meets `P` and finds the snapshot registered. -/
def Undisturbed (P : Op → Prop) (reader s : ℕ) : Storage → List Op → Prop
  | _, [] => True
  | st, op :: ops => st.snapshots.Registered reader s ∧ P op ∧
      ∀ st' ∈ st.step op, Undisturbed P reader s st' ops

instance decidableUndisturbed (P : Op → Prop) [DecidablePred P] (reader s : ℕ) :
    ∀ (st : Storage) (ops : List Op), Decidable (Undisturbed P reader s st ops)
  | _, [] => .isTrue trivial
  | st, op :: ops =>
    have := fun st' => decidableUndisturbed P reader s st' ops
    inferInstanceAs (Decidable (_ ∧ P op ∧ ∀ st' ∈ st.step op, Undisturbed P reader s st' ops))

section View

variable {reader s cs : ℕ} {k : RowKey}

/-- The committed row depends on the saved versions and the layout only. -/
lemma Keeps.committedRow_eq (h : Keeps st st') (k : RowKey) (row : Option RowImage) (s : ℕ) :
    (st'.context k).committedRow row s = (st.context k).committedRow row s := by
  have hobs : ∀ i : RowImage, i.obsolete (st'.context k) = i.obsolete (st.context k) := by
    intro i
    unfold RowImage.obsolete context
    rw [h.layout]
  have hsaved : (st'.context k).savedAt s = (st.context k).savedAt s := by
    simp only [RowContext.savedAt, context, h.spill]
  unfold RowContext.committedRow RowContext.committedView
  simp only [RowImage.visible, hobs, hsaved]

/-- The storage keeps what snapshot `s` needs of row `k`: it is at or above the oldest registered
snapshot, or at or above every version of the row. -/
def Kept (st : Storage) (hl : RowKey → List CommittedVersion) (pl : RowKey → List PendingEntry)
    (k : RowKey) (s : ℕ) : Prop :=
  (∃ oldest, st.snapshots.oldest = some oldest ∧ oldest ≤ s) ∨
    (∀ i, st.image hl pl k = some i → i.committedLsn ≤ s) ∧
      ∀ v, (st.context k).newestSaved = some v → v.commitLsn ≤ s

variable {txid : ℕ} {a b : Option RowImage}

/-- Moves keep a bound on the row's current version. Induction on the moves. -/
lemma Moves.committedLsn_le (hmoves : st.Moves k txid a b)
    (ha : ∀ i, a = some i → i.committedLsn ≤ s)
    (hsaved : ∀ v, (st.context k).newestSaved = some v → v.commitLsn ≤ s) :
    ∀ i, b = some i → i.committedLsn ≤ s := by
  induction hmoves with
  | refl => exact ha
  | tail _ hmove ih => exact hmove.committedLsn_le ih hsaved

/-- **Moves change nothing for a kept snapshot.** Induction on the moves. -/
theorem Abs.moves_committedRow_eq (habs : Abs st hl pl) (hs : s ≤ u64Max)
    (hkept : st.Kept hl pl k s) (hmoves : st.Moves k txid (st.image hl pl k) b) :
    (st.context k).committedRow b s = (st.context k).committedRow (st.image hl pl k) s := by
  induction hmoves with
  | refl => rfl
  | tail hmoves hmove ih =>
    rw [← ih]
    refine hmove.committedRow_eq (habs.moves_wf hmoves) (habs.layout k.table) hs ?_
    exact hkept.imp_right fun ⟨hcur, hsaved⟩ => Moves.committedLsn_le hmoves hcur hsaved

lemma Moves.notPending (hmoves : st.Moves k txid a b)
    (hne : txid ≠ reader) (ha : NotPending reader a) : NotPending reader b := by
  induction hmoves with
  | refl => exact ha
  | tail _ hmove ih => exact hmove.notPending hne ih

/-- **A commit above a snapshot that history is kept for** changes nothing either, unless it
rewrites the table. -/
theorem Abs.installs_committedRow_eq (habs : Abs st hl pl) (hs : s ≤ u64Max)
    (hold : ∃ oldest, st.snapshots.oldest = some oldest ∧ oldest ≤ s) {lsn : ℕ}
    (hretain : st.snapshots.retainsFor txid) (hlt : s < lsn)
    (hinstalls : st.Installs k txid lsn false (st.image hl pl k) b) :
    (st.context k).committedRow b s = (st.context k).committedRow (st.image hl pl k) s := by
  have hlayout := habs.layout k.table
  obtain ⟨i, hmove, hb⟩ := hinstalls
  rw [← hmove.committedRow_eq (habs.wf k) hlayout hs hretain hlt]
  rcases hb with rfl | ⟨hforget, rfl⟩
  · rfl
  · -- the committed deletion is dropped at once
    have hdrop : Move (st.context k) st.snapshots txid (some i) none := .forget i hforget
    exact hdrop.committedRow_eq (hmove.wf (habs.wf k)) hlayout hs (.inl hold)

lemma Commits.notPending {lsn : ℕ} {rew : Bool} (hcommits : st.Commits k txid lsn rew a b)
    (ha : NotPending reader a) :
    NotPending reader b := by
  rcases hcommits with rfl | ⟨i, hmove, rfl | ⟨-, rfl⟩⟩
  · exact ha
  · exact hmove.notPending reader
  · nofun

/-- **One step.** -/
theorem Abs.step_view_eq (habs : Abs st hl pl) (hmode : st.snapshots.transactionMode = .mvcc)
    (hreg : st.snapshots.Registered reader s) (hs : s ≤ u64Max) {op : Op}
    (hfor : Foreign reader s op) (hlayout : KeepsLayout op)
    (hown : NotPending reader (st.image hl pl k)) (hstep : st.step op = some st') :
    ∃ hl' pl', Abs st' hl' pl' ∧ st'.snapshots.transactionMode = .mvcc ∧
      NotPending reader (st'.image hl' pl' k) ∧
      (st'.context k).view (st'.image hl' pl' k) reader cs s =
        (st.context k).view (st.image hl pl k) reader cs s := by
  obtain ⟨hl', pl', habs', hkeeps, heffect⟩ := habs.step_cases hstep (reader + 1)
  have hcleaner : reader + 1 ≠ reader := Nat.succ_ne_self reader
  refine ⟨hl', pl', habs', hkeeps.mode.trans hmode, ?_⟩
  have hold := hreg.oldest_le hmode
  -- a row keeps its view when its committed part does
  have hlift : ∀ b, NotPending reader b → (st.context k).committedRow b s =
      (st.context k).committedRow (st.image hl pl k) s → NotPending reader b ∧
      (st'.context k).view b reader cs s = (st.context k).view (st.image hl pl k) reader cs s := by
    intro b hb heq
    rw [hb.view_eq, hown.view_eq, hkeeps.committedRow_eq]
    exact ⟨hb, heq⟩
  have hmoves : ∀ {txid : ℕ} {b : Option RowImage}, txid ≠ reader →
      st.Moves k txid (st.image hl pl k) b → NotPending reader b ∧
      (st'.context k).view b reader cs s = (st.context k).view (st.image hl pl k) reader cs s := by
    intro txid b hne h
    exact hlift b (Moves.notPending h hne hown) (habs.moves_committedRow_eq hs (.inl hold) h)
  rcases heffect with ⟨k', R, heffect, hchg⟩ | himage
  · by_cases hk : k = k'
    · subst hk
      have hrow := hchg.row
      cases heffect with
      | write _ | restore _ _ _ | prepareKeys _ _ => exact hmoves hfor hrow
      | publish k txid commitLsn context =>
        rw [show context.rewritten = false from hlayout] at hrow
        refine hlift _ (Commits.notPending hrow hown) ?_
        rcases hrow with heq | hinstalls
        · rw [← heq]
        · have hretain := hreg.retainsFor hmode hfor.1
          exact habs.installs_committedRow_eq hs hold hretain hfor.2 hinstalls
      | prune _ _ | clean _ | dropSaved _ => exact hmoves hcleaner hrow
    · rw [hchg.frame k hk]
      exact hlift _ hown rfl
  · rw [himage]
    exact hlift _ hown rfl

/-- **Any run.** Induction on the operations. -/
theorem Abs.run_view_eq (habs : Abs st hl pl) (hmode : st.snapshots.transactionMode = .mvcc)
    (hs : s ≤ u64Max) {ops : List Op}
    (hops : Undisturbed (fun op => Foreign reader s op ∧ KeepsLayout op) reader s st ops)
    (hown : NotPending reader (st.image hl pl k)) (hrun : st.run ops = some st') :
    st'.visibleRowHomeAt k reader cs s =
      some ((st.context k).view (st.image hl pl k) reader cs s) := by
  induction ops generalizing st hl pl with
  | nil =>
    cases hrun
    exact habs.visibleRowHomeAt_eq hmode k reader cs s
  | cons op ops ih =>
    obtain ⟨mid, hstep, hrun⟩ := bind_eq_some_iff.mp hrun
    obtain ⟨hreg, ⟨hfor, hlayout⟩, hrest⟩ := hops
    obtain ⟨hl', pl', habs', hmode', hown', hview⟩ :=
      habs.step_view_eq hmode hreg hs hfor hlayout hown hstep
    rw [← hview]
    exact ih habs' hmode' (hrest mid hstep) hown' hrun

/-- **Snapshot stability.** In every reachable state in MVCC mode, take a snapshot `s` held for
`reader`, who has no pending write on row `k`. Whatever other transactions write, undo, prepare and
commit above `s`, however history is pruned and rows cleaned in between, as long as `s` stays
registered and no commit rewrites the table, the row version visible at `s` stays the same. The read
itself never panics. Source: `publish_prepared_row`, `visible_version_at`,
`prune_committed_history`, `retains_for`. -/
theorem snapshot_stable (hreach : Reachable st) (hmode : st.snapshots.transactionMode = .mvcc)
    (hs : s ≤ u64Max) (hown : st.rowHasOwnPending k reader = some false) {ops : List Op}
    (hops : Undisturbed (fun op => Foreign reader s op ∧ KeepsLayout op) reader s st ops)
    (hrun : st.run ops = some st') (commandSnapshot : ℕ) :
    ∃ row, st.visibleRowHomeAt k reader commandSnapshot s = some row ∧
      st'.visibleRowHomeAt k reader commandSnapshot s = some row := by
  obtain ⟨hl, pl, habs⟩ := hreach.abs
  have hown' := (habs.rowHasOwnPending_iff k reader).mp hown
  exact ⟨_, habs.visibleRowHomeAt_eq hmode k reader commandSnapshot s,
    habs.run_view_eq hmode hs hops hown' hrun⟩

end View

/-! ## A run with a commit above the snapshot -/

/-- The heap image transaction 2 writes. -/
def sampleLoc : RowLoc := ⟨64, 8, 0⟩

/-- One row committed at LSN 5; transaction 1 holds a snapshot at LSN 7, and transaction 2 has a
generation reserved. -/
def sampleStart : Storage where
  maxRowVersionsPerRow := 4
  versions := RowVersionState.new 4 4
  rows := fun k => if k = ⟨0, 1⟩ then
    some ⟨some (.heap ⟨0, 8, 0⟩), 5, some 1, 5, .empty, .empty⟩ else none
  publication := fun _ => ⟨1, 0, fun txid => if txid = 2 then 1 else 0, 1⟩
  spillGenerations := fun _ => []
  snapshots := ⟨.mvcc, ⟨7, .open⟩, [], 4, [(1, 7)], 4, [], 4, 0⟩

/-- Transaction 2 writes the row, commits it at LSN 9, and the row is pruned. -/
def sampleRun (rewritten : Bool) : List Op :=
  [.write ⟨⟨0, 1⟩, ⟨2, 0, some sampleLoc⟩, none, true, false, none⟩, .prepareKeys ⟨0, 1⟩ 2,
    .publish ⟨0, 1⟩ 2 9 ⟨.ok (), rewritten, true⟩, .prune ⟨0, 1⟩ true]

lemma sampleStart_initial : Initial sampleStart := by
  refine ⟨⟨4, 4, rfl⟩, fun k r hr => ?_, fun t => zero_le⟩
  by_cases hk : k = ⟨0, 1⟩
  · have hr' : some ⟨some (.heap ⟨0, 8, 0⟩), 5, some 1, 5, .empty, .empty⟩ = some r := by
      simpa [sampleStart, hk] using hr
    cases hr'
    refine ⟨rfl, rfl, ⟨?_, ?_, ?_, ?_, ?_, ?_⟩⟩
    · nofun
    · exact zero_le
    · intro hne
      exact absurd rfl hne
    · nofun
    · nofun
    · intro _ hne
      exact absurd rfl hne
  · simp [sampleStart, hk] at hr

lemma sampleStart_reachable : Reachable sampleStart :=
  ⟨sampleStart, [], sampleStart_initial, rfl⟩

/-- The old version outlives a commit at LSN 9 that keeps the layout. -/
theorem snapshot_stable_sample :
    ∃ st', sampleStart.run (sampleRun false) = some st' ∧
      st'.visibleRowHomeAt ⟨0, 1⟩ 1 0 7 = some (some ⟨.committed 5, .heap ⟨0, 8, 0⟩⟩) := by
  rcases hrun : sampleStart.run (sampleRun false) with _ | st'
  · exact absurd hrun (by decide +kernel)
  obtain ⟨row, hbefore, hafter⟩ := snapshot_stable sampleStart_reachable rfl
    (by decide : 7 ≤ u64Max) (by decide : sampleStart.rowHasOwnPending ⟨0, 1⟩ 1 = some false)
    (by decide +kernel) hrun 0
  refine ⟨st', rfl, hafter.trans ?_⟩
  rw [← hbefore]
  decide

/-- **A rewriting commit hides the row from the older snapshot.** The same run, with a commit that
installs a new layout: every operation is another transaction's, above the snapshot, which stays
registered, and the visible version disappears. -/
theorem rewrite_hides_snapshot :
    ∃ st st' : Storage, ∃ ops, Reachable st ∧ st.snapshots.transactionMode = .mvcc ∧
      st.rowHasOwnPending ⟨0, 1⟩ 1 = some false ∧ Undisturbed (Foreign 1 7) 1 7 st ops ∧
      st.run ops = some st' ∧ st'.snapshots.Registered 1 7 ∧
      st.visibleRowHomeAt ⟨0, 1⟩ 1 0 7 = some (some ⟨.committed 5, .heap ⟨0, 8, 0⟩⟩) ∧
      st'.visibleRowHomeAt ⟨0, 1⟩ 1 0 7 = some none := by
  have hview : (sampleStart.run (sampleRun true)).map (fun st' =>
      (st'.visibleRowHomeAt ⟨0, 1⟩ 1 0 7, decide (st'.snapshots.Registered 1 7))) =
      some (some none, true) := by decide +kernel
  obtain ⟨st', hrun, hst'⟩ := map_eq_some_iff.mp hview
  exact ⟨sampleStart, st', sampleRun true, sampleStart_reachable, rfl, by decide,
    by decide +kernel, hrun, of_decide_eq_true (congrArg Prod.snd hst'), by decide,
    congrArg Prod.fst hst'⟩

end Storage

end Pos3ql
