import Pos3ql.Storage.SnapshotStability

/-!
# Atomic visibility of multi-row commits

A commit that became durable installs its rows one by one, all at one commit LSN, while readers go
on. `Publisher` adds to row storage the installation in progress (`TransactionInstallation`), and
records every installation of the run with the rows published under it, so that what a snapshot
should see can be stated. `step` interleaves installations with the admission of statements, the end
of transactions, pending writes and cleaning in any order.

* `Inv`: the invariant of a run, preserved by every step (`Inv.step`).
* `Follows`: what every run keeps (`follows_run`).
* **`atomic_visibility`**: the visible LSN never decreases and an abandoned installation ends
  admission; an admitted snapshot sees all rows of an installation or none, when every installation
  begins above the visible LSN, as journalled commits do, and none rewrites a table.
* `installation_at_visible_tears`: an installation at the visible LSN, which the engine uses for
  commits that touch temporary tables only, can be seen half done.

Sources: `storage/transaction_admission.rs`, `complete_staged_commit` and `begin_command_snapshot`
of `sql/mod.rs`.
-/

namespace Pos3ql

open List SnapshotState Option Storage

/-! ## Installations -/

/-- The operations that neither commit a row nor use the registry. -/
def Op.isLocal : Op → Bool
  | .publish .. | .snapshot _ => false
  | _ => true

/-- One installation of a run, with the rows published under it, newest first. -/
structure Installation where
  lsn : ℕ
  rows : List (RowKey × Option RowLoc)
  /-- `complete` was called. -/
  completed : Bool

/-- Source: `TransactionInstallation`, with the transactions whose rows are promoted under it: the
committing one and, for `COMMIT PREPARED`, the prepared one. -/
structure InstallationHandle where
  owner : ℕ
  lsn : ℕ
  promoted : List ℕ

/-- Row storage, the installation in progress, and a record of all installations, newest first. -/
structure Publisher where
  storage : Storage
  current : Option InstallationHandle
  installations : List Installation

/-- A step of a run. -/
inductive PublisherOp
  | row (op : Op) (isLocal : op.isLocal = true)
  | admitSnapshot (txid : ℕ) (repeatable : Bool)
  | finishStatement (identity : ℕ)
  | endTransaction (txid : ℕ)
  | advance (frontier : ℕ)
  | beginInstallation (txid lsn : ℕ)
  | promote (txid : ℕ)
  | publish (k : RowKey) (txid : ℕ) (context : CommitContext)
  | complete
  | abandon

/-- Record a published row. -/
def recordRow (k : RowKey) (loc : Option RowLoc) : List Installation → List Installation
  | [] => []
  | i :: rest => { i with rows := (k, loc) :: i.rows } :: rest

/-- Record a completion. -/
def recordCompletion : List Installation → List Installation
  | [] => []
  | i :: rest => { i with completed := true } :: rest

/-- What an installation shows of a row at a snapshot. -/
def Installation.shows (i : Installation) (s : ℕ) (k : RowKey) : Option (Option VisibleRow) :=
  if i.lsn ≤ s then
    (i.rows.lookup k).map fun loc => loc.map fun loc => ⟨.committed i.lsn, .heap loc⟩
  else none

/-- **What the installations of a run show of a row at a snapshot**: the newest of those at or below
it that published the row. -/
def shown (installations : List Installation) (s : ℕ) (k : RowKey) : Option (Option VisibleRow) :=
  installations.findSome? fun i => i.shows s k

namespace Publisher

/-- The registry. -/
def snapshots (p : Publisher) : SnapshotState := p.storage.snapshots

/-- Source: `visible_lsn`. -/
def visibleLsn (p : Publisher) : ℕ := p.snapshots.admission.visibleLsn

/-- The phase of admission. -/
def phase (p : Publisher) : Phase := p.snapshots.admission.phase

/-- Replace the registry. -/
def withSnapshots (p : Publisher) (s : SnapshotState) : Publisher :=
  { p with storage.snapshots := s }

/-- Before the first step. -/
def boot (start : Storage) : Publisher := ⟨start, none, []⟩

/-- Source: `Drop for TransactionInstallation`. -/
def abandon (p : Publisher) (h : InstallationHandle) : Option Publisher :=
  (p.snapshots.dropInstallation h.owner).map fun s => { p.withSnapshots s with current := none }

/-- The image a commit of `txid` would install in a row. -/
def pendingImage (st : Storage) (k : RowKey) (txid : ℕ) : Option (Option RowLoc) := do
  let e ← (st.rowHead k).join
  if e.change.txid = txid then some e.change.loc else none

/-- Publish one row. An error ends the installation.
Source: `promote_transaction_state`, whose error drops the installation. -/
def publish (p : Publisher) (h : InstallationHandle) (k : RowKey) (txid : ℕ)
    (context : CommitContext) : Option Publisher :=
  match p.storage.publishRow k txid h.lsn context with
  | none => none
  | some (storage, .error _) => abandon { p with storage } h
  | some (storage, .ok ()) => some { p with
      storage
      installations := match pendingImage p.storage k txid with
        | some loc => recordRow k loc p.installations
        | none => p.installations }

/-- **One step.** `none` is a panic, or a step the code does not have in this state.
Source: `complete_staged_commit`, `begin_command_snapshot`, `promote_ready_commits`. -/
def step (p : Publisher) : PublisherOp → Option Publisher
  | .row op _ => (p.storage.step op).map fun storage => { p with storage }
  | .admitSnapshot txid repeatable =>
    some (p.withSnapshots (p.snapshots.orSelf (p.snapshots.beginCommandSnapshot txid repeatable)))
  | .finishStatement identity => (p.snapshots.dropStatement identity).map p.withSnapshots
  | .endTransaction txid => some (p.withSnapshots (p.snapshots.endTransactionSnapshots txid))
  | .advance frontier =>
    some (p.withSnapshots (p.snapshots.orSelf (p.snapshots.advanceVisibleLsn frontier)))
  | .beginInstallation txid lsn =>
    match p.snapshots.beginTransactionInstallation txid with
    | .error _ => some p
    | .ok s => some { p.withSnapshots s with
        current := some ⟨txid, lsn, []⟩
        installations := ⟨lsn, [], false⟩ :: p.installations }
  | .promote txid => p.current.map fun h =>
    { p.withSnapshots (p.snapshots.endTransactionSnapshots txid) with
      current := some { h with promoted := txid :: h.promoted } }
  | .publish k txid context => p.current.bind fun h =>
    if txid ∈ h.promoted then p.publish h k txid context else none
  | .complete => p.current.bind fun h =>
    (p.snapshots.completeInstallation h.owner h.lsn).map fun s =>
      { p.withSnapshots s with
        current := none, installations := recordCompletion p.installations }
  | .abandon => p.current.bind p.abandon

/-- A run. -/
def run (p : Publisher) (ops : List PublisherOp) : Option Publisher := ops.foldlM step p

/-- The condition a journalled, layout-keeping commit meets. -/
def Journalled (p : Publisher) : PublisherOp → Prop
  | .beginInstallation _ lsn => p.visibleLsn < lsn
  | .publish _ _ context => context.rewritten = false
  | _ => True

/-- Every step of the run meets it. -/
def AllJournalled : Publisher → List PublisherOp → Prop
  | _, [] => True
  | p, op :: ops => p.Journalled op ∧ ∀ p' ∈ p.step op, AllJournalled p' ops

/-! ## The invariant -/

/-- A state recovery leaves before readers are admitted: nothing registered, and the visible LSN at
or above every commit. -/
structure Recovered (start : Storage) : Prop where
  initial : start.Initial
  mode : start.snapshots.transactionMode = .mvcc
  phase : start.snapshots.admission.phase = .open
  active : start.snapshots.active = []
  exported : start.snapshots.exported = []
  statements : start.snapshots.statements = []
  rows : ∀ k r, start.rows k = some r → r.committedLsn ≤ start.snapshots.admission.visibleLsn
  saved : ∀ k v, (start.context k).newestSaved = some v →
    v.commitLsn ≤ start.snapshots.admission.visibleLsn

/-- What the recovered state shows of a row. -/
def base (start : Storage) (k : RowKey) (s : ℕ) : Option VisibleRow :=
  (start.context k).committedRow (start.image (fun _ => []) (fun _ => []) k) s

/-- `s` is at or above every commit so far. -/
def Above (start : Storage) (p : Publisher) (s : ℕ) : Prop :=
  start.snapshots.admission.visibleLsn ≤ s ∧ ∀ i ∈ p.installations, i.lsn ≤ s

/-- `s` is read, or may come to be. -/
def Watched (start : Storage) (p : Publisher) (s : ℕ) : Prop :=
  (∃ reader, p.snapshots.Registered reader s) ∨ p.Above start s

/-- How admission and the record fit: between installations all are complete, and the transactions
being promoted hold no snapshot. -/
def PhaseOk (p : Publisher) : Prop :=
  match p.phase with
  | .open => p.current = none ∧ ∀ i ∈ p.installations, i.completed = true
  | .installing owner => ∃ h rows rest, p.current = some h ∧ h.owner = owner ∧
      p.installations = ⟨h.lsn, rows, false⟩ :: rest ∧ (∀ i ∈ rest, i.completed = true) ∧
      ∀ txid ∈ h.promoted, ∀ s, ¬ p.snapshots.Registered txid s
  | .recoveryRequired => p.current = none

/-- **The invariant of a run.** -/
structure Inv (start : Storage) (p : Publisher) (hl : RowKey → List CommittedVersion)
    (pl : RowKey → List PendingEntry) : Prop where
  abs : p.storage.Abs hl pl
  keeps : start.Keeps p.storage
  mode : p.snapshots.transactionMode = .mvcc
  unique : p.snapshots.ActiveUnique
  exported : p.snapshots.exported = []
  /-- The visible LSN has not decreased. -/
  visible : start.snapshots.admission.visibleLsn ≤ p.visibleLsn
  /-- Snapshots are at or below the visible LSN. -/
  registered : ∀ reader s, p.snapshots.Registered reader s →
    start.snapshots.admission.visibleLsn ≤ s ∧ s ≤ p.visibleLsn
  /-- Complete installations are at or below the visible LSN, the others above. -/
  installed : ∀ i ∈ p.installations,
    i.completed = true ∧ i.lsn ≤ p.visibleLsn ∨ i.completed = false ∧ p.visibleLsn < i.lsn
  phaseOk : p.PhaseOk
  /-- No row is newer than the newest installation. -/
  newest : ∀ s, p.Above start s → ∀ k i, p.storage.image hl pl k = some i → i.committedLsn ≤ s
  /-- A watched snapshot sees what the installations at or below it published. -/
  seen : ∀ s, s ≤ u64Max → p.Watched start s → ∀ k,
    (p.storage.context k).committedRow (p.storage.image hl pl k) s =
      (shown p.installations s k).getD (base start k s)

variable {start : Storage} {p p' : Publisher} {hl : RowKey → List CommittedVersion}
  {pl : RowKey → List PendingEntry}

/-- The invariant holds after recovery. -/
lemma Recovered.inv (h : Recovered start) : Inv start (boot start) (fun _ => []) (fun _ => []) where
  abs := h.initial.abs
  keeps := ⟨rfl, rfl, rfl, fun _ => rfl⟩
  mode := h.mode
  unique := by
    change (start.snapshots.active.map Prod.fst).Nodup
    simp [h.active]
  exported := h.exported
  visible := le_rfl
  registered := by
    rintro reader s (hactive | ⟨e, he, -⟩ | ⟨st, hst, -⟩)
    · change (reader, s) ∈ start.snapshots.active at hactive
      rw [h.active] at hactive
      cases hactive
    · change e ∈ start.snapshots.exported at he
      rw [h.exported] at he
      cases he
    · change st ∈ start.snapshots.statements at hst
      rw [h.statements] at hst
      cases hst
  installed := by
    nofun
  phaseOk := by
    have hphase : (boot start).phase = .open := h.phase
    unfold PhaseOk
    rw [hphase]
    refine ⟨rfl, ?_⟩
    nofun
  newest := by
    intro s hs k i hi
    obtain ⟨r, hr, rfl⟩ := map_eq_some_iff.mp hi
    exact (h.rows k r hr).trans hs.1
  seen := fun s _ _ k => rfl

/-! ## Steps of the registry -/

variable {s' : SnapshotState} {txid : ℕ} {handle : InstallationHandle} {storage : Storage}
  {k : RowKey}

section

variable (h : Inv start p hl pl)
include h

omit h in
/-- The rows are represented whatever the registry holds. -/
lemma abs_registry (habs : p.storage.Abs hl pl)
    (hstor : p'.storage = { p.storage with snapshots := s' })
    (hmode : s'.transactionMode = p.snapshots.transactionMode) :
    p'.storage.Abs hl pl := by
  rw [hstor]
  refine ⟨habs.rep, fun k r hr => ?_, habs.wf, habs.layout⟩
  have hres := habs.reservation k r hr
  change r.ReservationOk p.snapshots.transactionMode (pl k) at hres
  rwa [← hmode] at hres

/-- **A step that changes the registry only**, and perhaps the record's flags. What it registers
must have been watched already. -/
theorem Inv.registry (hstor : p'.storage = { p.storage with snapshots := s' })
    (hmode : s'.transactionMode = p.snapshots.transactionMode)
    (huniq : s'.ActiveUnique)
    (hexp : s'.exported = [])
    (hvis : p.visibleLsn ≤ s'.admission.visibleLsn)
    (hregistered : ∀ reader lsn, s'.Registered reader lsn →
      (∃ reader', p.snapshots.Registered reader' lsn) ∨ p.Above start lsn ∧ lsn ≤ p.visibleLsn)
    (hshown : ∀ s k, shown p'.installations s k = shown p.installations s k)
    (habove : ∀ s, (∀ i ∈ p'.installations, i.lsn ≤ s) → ∀ i ∈ p.installations, i.lsn ≤ s)
    (hinstalled : ∀ i ∈ p'.installations, i.completed ∧ i.lsn ≤ s'.admission.visibleLsn ∨
      i.completed = false ∧ s'.admission.visibleLsn < i.lsn)
    (hphase : p'.PhaseOk) :
    Inv start p' hl pl := by
  have hsnaps : p'.snapshots = s' := by
    unfold snapshots
    rw [hstor]
  have hvis' : p'.visibleLsn = s'.admission.visibleLsn := by
    unfold visibleLsn
    rw [hsnaps]
  have himage : p'.storage.image hl pl = p.storage.image hl pl := by
    funext k
    simp [image, hstor]
  have hcontext : p'.storage.context = p.storage.context := by
    funext k
    simp [Storage.context, hstor]
  have hwatched : ∀ s, p'.Watched start s → p.Watched start s := by
    rintro s (⟨reader, hreg⟩ | ⟨hlow, hall⟩)
    · rw [hsnaps] at hreg
      exact (hregistered reader s hreg).imp_right And.left
    · exact .inr ⟨hlow, habove s hall⟩
  refine
    { abs := ?_, keeps := ?_, mode := ?_, unique := ?_, exported := ?_, visible := ?_,
      registered := ?_, installed := ?_, phaseOk := hphase, newest := ?_, seen := ?_ }
  · exact abs_registry h.abs hstor hmode
  · rw [hstor]
    exact ⟨hmode.trans h.keeps.mode, h.keeps.spill, h.keeps.maximum, h.keeps.layout⟩
  · rw [hsnaps, hmode]
    exact h.mode
  · rw [hsnaps]
    exact huniq
  · rw [hsnaps]
    exact hexp
  · rw [hvis']
    exact h.visible.trans hvis
  · intro reader s hreg
    rw [hsnaps] at hreg
    rw [hvis']
    rcases hregistered reader s hreg with ⟨reader', hreg'⟩ | ⟨habove', hle⟩
    · obtain ⟨hlow, hhigh⟩ := h.registered reader' s hreg'
      exact ⟨hlow, hhigh.trans hvis⟩
    · exact ⟨habove'.1, hle.trans hvis⟩
  · rw [hvis']
    exact hinstalled
  · intro s hs k i hi
    rw [himage] at hi
    exact h.newest s ⟨hs.1, habove s hs.2⟩ k i hi
  · intro s hs hw k
    rw [himage, hcontext, hshown]
    exact h.seen s hs (hwatched s hw) k

/-- Between installations every installation is at or below the visible LSN. -/
lemma Inv.above_visible (hopen : p.phase = .open) :
    p.current = none ∧ (∀ i ∈ p.installations, i.completed) ∧ p.Above start p.visibleLsn := by
  have hphase := h.phaseOk
  unfold PhaseOk at hphase
  rw [hopen] at hphase
  obtain ⟨hcur, hdone⟩ := hphase
  refine ⟨hcur, hdone, h.visible, ?_⟩
  intro i hi
  rcases h.installed i hi with ⟨-, hle⟩ | ⟨hincomplete, -⟩
  · exact hle
  · rw [hdone i hi] at hincomplete
    cases hincomplete

omit h in
/-- Between installations. -/
lemma PhaseOk.of_open (hphase : p.phase = .open) (hcur : p.current = none)
    (hdone : ∀ i ∈ p.installations, i.completed) : p.PhaseOk := by
  unfold PhaseOk
  rw [hphase]
  exact ⟨hcur, hdone⟩

/-- A step that only ends registrations. -/
lemma Inv.shrink (hadm : s'.admission = p.snapshots.admission)
    (hmode : s'.transactionMode = p.snapshots.transactionMode) (huniq : s'.ActiveUnique)
    (hexp : s'.exported = [])
    (hregistered : ∀ reader lsn, s'.Registered reader lsn → p.snapshots.Registered reader lsn) :
    Inv start (p.withSnapshots s') hl pl := by
  have hvis : s'.admission.visibleLsn = p.visibleLsn := by
    rw [hadm]
    rfl
  refine h.registry rfl hmode huniq hexp hvis.ge
    (fun reader lsn hreg => .inl ⟨reader, hregistered reader
    lsn hreg⟩) (fun _ _ => rfl) (fun _ hs => hs) (hvis ▸ h.installed) ?_
  have hphase := h.phaseOk
  have heq : (p.withSnapshots s').phase = p.phase := congrArg TransactionAdmission.phase hadm
  unfold PhaseOk at hphase ⊢
  rw [heq]
  split at hphase
  · exact hphase
  · obtain ⟨handle, rows, rest, hcur, howner, hrec, hdone, hprom⟩ := hphase
    exact ⟨handle, rows, rest, hcur, howner, hrec, hdone,
      fun txid htxid s hreg => hprom txid htxid s (hregistered txid s hreg)⟩
  · exact hphase

/-- **Admission of a statement.** -/
theorem Inv.admitSnapshot (txid : ℕ) (repeatable : Bool) :
    Inv start
      (p.withSnapshots (p.snapshots.orSelf (p.snapshots.beginCommandSnapshot txid repeatable)))
      hl pl := by
  rcases hadmit : p.snapshots.beginCommandSnapshot txid repeatable with err | s'
  · exact h
  obtain ⟨hopen, hadm, hexp, hmode, huniq, hregistered⟩ :=
    beginCommandSnapshot_ok hadmit
  obtain ⟨hcur, hdone, habove⟩ := h.above_visible hopen
  have hvis : s'.admission.visibleLsn = p.visibleLsn := by
    rw [hadm]
    rfl
  refine h.registry rfl hmode (huniq h.unique) (hexp.trans h.exported) hvis.ge
    (fun reader lsn hreg => ?_)
    (fun _ _ => rfl) (fun _ hs => hs) (hvis ▸ h.installed) ?_
  · rcases hregistered reader lsn hreg with hreg | rfl
    · exact .inl ⟨reader, hreg⟩
    · exact .inr ⟨habove, le_rfl⟩
  · have hphase : (p.withSnapshots s').phase = .open :=
      (congrArg TransactionAdmission.phase hadm).trans hopen
    exact PhaseOk.of_open hphase hcur hdone

/-- A step that moves the visible LSN on. -/
lemma Inv.advance (frontier : ℕ) :
    Inv start (p.withSnapshots (p.snapshots.orSelf (p.snapshots.advanceVisibleLsn frontier)))
      hl pl := by
  rcases hadvance : p.snapshots.advanceVisibleLsn frontier with err | s'
  · exact h
  obtain ⟨hopen, rfl⟩ := advanceVisibleLsn_ok hadvance
  obtain ⟨hcur, hdone, habove⟩ := h.above_visible hopen
  have hle : p.visibleLsn ≤ max p.snapshots.admission.visibleLsn frontier := le_max_left _ _
  exact h.registry rfl rfl h.unique h.exported hle (fun reader lsn hreg => .inl ⟨reader, hreg⟩)
    (fun _ _ =>
    rfl) (fun _ hs => hs) (fun i hi => .inl
      ⟨hdone i hi, (habove.2 i hi).trans hle⟩) (PhaseOk.of_open hopen
    hcur hdone)

/-! ## Steps of an installation -/

omit h in
/-- A new installation shows nothing yet. -/
lemma shown_cons_empty (lsn s : ℕ) (k : RowKey) (completed : Bool) (ins : List Installation) :
    shown (⟨lsn, [], completed⟩ :: ins) s k = shown ins s k := by
  have hshows : Installation.shows ⟨lsn, [], completed⟩ s k = none := by
    unfold Installation.shows
    split_ifs <;> rfl
  unfold shown
  rw [findSome?_cons, hshows]

/-- The start of an installation above the visible LSN. -/
lemma Inv.beginInstallation {lsn : ℕ}
    (hbegin : p.snapshots.beginTransactionInstallation txid = .ok s') (hlsn : p.visibleLsn < lsn) :
    Inv start { p.withSnapshots s' with
      current := some ⟨txid, lsn, []⟩
      installations := ⟨lsn, [], false⟩ :: p.installations } hl pl := by
  obtain ⟨hopen, -, rfl⟩ := beginTransactionInstallation_ok hbegin
  obtain ⟨-, hdone, habove⟩ := h.above_visible hopen
  refine h.registry rfl rfl h.unique h.exported (le_refl p.visibleLsn)
    (fun reader lsn hreg => .inl ⟨reader, hreg⟩)
    (fun s k => shown_cons_empty lsn s k false p.installations)
    (fun s hs i hi => hs i (mem_cons_of_mem _ hi)) ?_ ?_
  · exact forall_mem_cons.mpr ⟨.inr ⟨rfl, hlsn⟩, h.installed⟩
  · exact ⟨⟨txid, lsn, []⟩, [], p.installations, rfl, rfl, rfl, hdone,
      fun txid htxid => absurd htxid not_mem_nil⟩

/-- What holds during an installation. -/
lemma Inv.installing (hcur : p.current = some handle) :
    p.phase = .installing handle.owner ∧
      ∃ rows rest, p.installations = ⟨handle.lsn, rows, false⟩ :: rest ∧ (∀ i ∈ rest, i.completed) ∧
        (∀ txid ∈ handle.promoted, ∀ s, ¬ p.snapshots.Registered txid s) ∧
        p.visibleLsn < handle.lsn := by
  have hphase := h.phaseOk
  unfold PhaseOk at hphase
  split at hphase
  · rw [hphase.1] at hcur
    cases hcur
  · rename_i owner howner
    obtain ⟨handle', rows, rest, hcur', rfl, hrec, hdone, hprom⟩ := hphase
    obtain rfl := some.inj (hcur'.symm.trans hcur)
    refine ⟨howner, rows, rest, hrec, hdone, hprom, ?_⟩
    have hhead := h.installed ⟨handle'.lsn, rows, false⟩ (by rw [hrec]; exact .head rest)
    rcases hhead with ⟨hfalse, -⟩ | ⟨-, hlt⟩
    · cases hfalse
    · exact hlt
  · rw [hphase] at hcur
    cases hcur

/-- A promoted transaction ends its snapshots. -/
lemma Inv.promote (hcur : p.current = some hd) (txid : ℕ) :
    Inv start { p.withSnapshots (p.snapshots.endTransactionSnapshots txid) with
      current := some { hd with promoted := txid :: hd.promoted } } hl pl := by
  obtain ⟨hphase, rows, rest, hrec, hdone, hprom, -⟩ := h.installing hcur
  obtain ⟨huniq, hregistered⟩ :=
    endTransactionSnapshots_spec txid h.unique h.exported
  obtain ⟨hadm, hmode, hexp⟩ := p.snapshots.endTransactionSnapshots_keeps txid
  have hvis := congrArg TransactionAdmission.visibleLsn hadm
  refine h.registry rfl hmode huniq (hexp.trans h.exported) hvis.ge
    (fun reader lsn hreg => .inl ⟨reader,
    (hregistered _ _ hreg).1⟩) (fun _ _ => rfl) (fun _ hs => hs) (hvis ▸ h.installed) ?_
  have hphase' : Publisher.phase { p.withSnapshots (p.snapshots.endTransactionSnapshots txid) with
      current := some { hd with promoted := txid :: hd.promoted } } =
      .installing hd.owner := by
    change (p.snapshots.endTransactionSnapshots txid).admission.phase = _
    rw [hadm]
    exact hphase
  unfold PhaseOk
  rw [hphase']
  refine ⟨_, rows, rest, rfl, rfl, hrec, hdone, ?_⟩
  intro txid' htxid' s hreg
  obtain ⟨hold, hne⟩ := hregistered txid' s hreg
  rcases mem_cons.mp htxid' with rfl | hmem
  · exact hne rfl
  · exact hprom txid' hmem s hold

/-- The end of an installation. -/
lemma Inv.complete (hcur : p.current = some handle)
    (hcomplete : p.snapshots.completeInstallation handle.owner handle.lsn = some s') :
    Inv start { p.withSnapshots s' with
      current := none, installations := recordCompletion p.installations } hl pl := by
  obtain ⟨-, rows, rest, hrec, hdone, -, hlt⟩ := h.installing hcur
  obtain ⟨-, rfl⟩ := completeInstallation_eq hcomplete
  have hmax : max p.snapshots.admission.visibleLsn handle.lsn = handle.lsn := max_eq_right hlt.le
  have hrest : ∀ i ∈ rest, i.lsn ≤ handle.lsn := by
    intro i hi
    rcases h.installed i (by rw [hrec]; exact .tail _ hi) with ⟨-, hle⟩ | ⟨hfalse, -⟩
    · exact hle.trans hlt.le
    · rw [hdone i hi] at hfalse
      cases hfalse
  rw [hrec]
  refine h.registry rfl rfl h.unique h.exported (le_max_left _ _)
    (fun reader lsn hreg => .inl ⟨reader,
    hreg⟩) (fun s k => by rw [hrec]; rfl) (fun s hs i hi => ?_) ?_ ⟨rfl, ?_⟩
  · rw [hrec] at hi
    rcases mem_cons.mp hi with rfl | hi
    · exact hs ⟨handle.lsn, rows, true⟩ (.head rest)
    · exact hs i (.tail _ hi)
  · intro i hi
    rw [hmax]
    rcases mem_cons.mp hi with rfl | hi
    · exact .inl ⟨rfl, le_rfl⟩
    · exact .inl ⟨hdone i hi, hrest i hi⟩
  · exact forall_mem_cons.mpr ⟨rfl, hdone⟩

/-- An installation that is dropped leaves what it published above every snapshot. -/
lemma Inv.abandon (habandon : p.abandon handle = some p') : Inv start p' hl pl := by
  obtain ⟨s', hdrop, rfl⟩ := map_eq_some_iff.mp habandon
  obtain ⟨-, rfl⟩ := dropInstallation_eq hdrop
  exact h.registry rfl rfl h.unique h.exported (le_refl p.visibleLsn)
    (fun reader lsn hreg => .inl ⟨reader, hreg⟩) (fun _ _ => rfl) (fun _ hs => hs) h.installed rfl

/-! ## Steps on rows -/

omit h in
/-- **A local operation moves one row** and leaves the registry alone. -/
theorem step_local {st st' : Storage} (habs : st.Abs hl pl) {op : Op} (hlocal : op.isLocal)
    (hstep : st.step op = some st') :
    ∃ hl' pl' k txid, st'.Abs hl' pl' ∧ Changed st hl pl st' hl' pl' k (st.Moves k txid) := by
  have hrow : ∀ {k txid}, RowEffect st 0 op k (st.Moves k txid) →
      ∃ hl' pl' k txid, st'.Abs hl' pl' ∧ Changed st hl pl st' hl' pl' k (st.Moves k txid) := by
    intro k txid heffect
    obtain ⟨st₁, hl', pl', hop, habs', hchg⟩ := habs.step_row heffect
    obtain rfl := some.inj (hop.symm.trans hstep)
    exact ⟨hl', pl', k, txid, habs', hchg⟩
  cases op with
  | write req => exact hrow (.write req)
  | restore k txid identity => exact hrow (.restore k txid identity)
  | prepareKeys k txid => exact hrow (.prepareKeys k txid)
  | prune k deletionsIdle => exact hrow (.prune k deletionsIdle)
  | clean k => exact hrow (.clean k)
  | dropSaved k => exact hrow (.dropSaved k)
  | publish k txid commitLsn context => cases hlocal
  | snapshot op => cases hlocal
  | reserve table txid count =>
    cases hstep
    obtain ⟨habs', henv, hrows⟩ := habs.reserveGenerations table txid count
    have himage : ∀ k,
        (st.reserveGenerations table txid count).image hl pl k = st.image hl pl k := by
      intro k
      simp [image, hrows]
    refine ⟨hl, pl, ⟨0, 0⟩, 0, habs', ⟨?_, fun k _ => himage k, henv⟩⟩
    rw [himage]
    exact .refl

/-- What is watched is not pruned. -/
lemma Inv.kept (hstart : Recovered start) {s : ℕ}
    (hw : p.Watched start s) (k : RowKey) : p.storage.Kept hl pl k s := by
  rcases hw with ⟨reader, hreg⟩ | habove
  · exact .inl (hreg.oldest_le h.mode)
  refine .inr ⟨h.newest s habove k, fun v hv => ?_⟩
  have hsaved : (start.context k).newestSaved = some v := by
    simpa only [RowContext.newestSaved, Storage.context, h.keeps.spill] using hv
  exact (hstart.saved k v hsaved).trans habove.1

/-- The flags of a record, without the rows. -/
def flags (installations : List Installation) : List (ℕ × Bool) :=
  installations.map fun i => (i.lsn, i.completed)

omit h in
/-- Equal flags, equal installations but for their rows. -/
lemma mem_of_flags_eq {a b : List Installation} (h : flags a = flags b) {i : Installation}
    (hi : i ∈ a) : ∃ j ∈ b, j.lsn = i.lsn ∧ j.completed = i.completed := by
  have hpair : (i.lsn, i.completed) ∈ flags a := mem_map.mpr ⟨i, hi, rfl⟩
  rw [h] at hpair
  obtain ⟨j, hj, heq⟩ := mem_map.mp hpair
  exact ⟨j, hj, congrArg Prod.fst heq, congrArg Prod.snd heq⟩

omit h in
/-- The phase depends on the flags only. -/
lemma PhaseOk.of_flags (h : p.PhaseOk) (hsnaps : p'.snapshots = p.snapshots)
    (hcur : p'.current = p.current) (hflags : flags p'.installations = flags p.installations) :
    p'.PhaseOk := by
  have hphase : p'.phase = p.phase := by
    unfold phase
    rw [hsnaps]
  unfold PhaseOk at h ⊢
  rw [hphase, hcur, hsnaps]
  split at h
  · refine ⟨h.1, fun i hi => ?_⟩
    obtain ⟨j, hj, -, hdone⟩ := mem_of_flags_eq hflags hi
    rw [← hdone]
    exact h.2 j hj
  · obtain ⟨handle, rows, rest, hhandle, howner, hrec, hdone, hprom⟩ := h
    rw [hrec] at hflags
    obtain ⟨i, rest', hinstallations, hhead, htail⟩ := map_eq_cons_iff.mp hflags
    obtain ⟨hlsn, hfalse⟩ : i.lsn = handle.lsn ∧ i.completed = false := Prod.mk.inj hhead
    refine ⟨handle, i.rows, rest', hhandle, howner, ?_, fun j hj => ?_, hprom⟩
    · rw [hinstallations, ← hlsn, ← hfalse]
    · obtain ⟨x, hx, -, hc⟩ := mem_of_flags_eq htail hj
      rw [← hc]
      exact hdone x hx
  · exact h

/-- **A step that changes one row and not the registry** keeps the invariant when the row stays
within the newest installation and shows what the record says. -/
theorem Inv.changeRow {hl' : RowKey → List CommittedVersion} {pl' : RowKey → List PendingEntry}
    {R : Option RowImage → Option RowImage → Prop} (habs : storage.Abs hl' pl')
    (hchanged : Changed p.storage hl pl storage hl' pl' k R)
    {installations : List Installation}
    (hflags : flags installations = flags p.installations)
    (hframe : ∀ s a, a ≠ k → shown installations s a = shown p.installations s a)
    (hnewest : ∀ s, p.Above start s → ∀ i, storage.image hl' pl' k = some i → i.committedLsn ≤ s)
    (hseen : ∀ s, s ≤ u64Max → p.Watched start s →
      (p.storage.context k).committedRow (storage.image hl' pl' k) s =
        (shown installations s k).getD (base start k s)) :
    Inv start { p with storage, installations } hl' pl' := by
  have henv := hchanged.env
  have hsnapshots : Publisher.snapshots { p with storage, installations } = p.snapshots :=
    henv.snapshots
  have habove : ∀ s, Above start { p with storage, installations } s → p.Above start s := by
    rintro s ⟨hlow, hall⟩
    refine ⟨hlow, fun j hj => ?_⟩
    obtain ⟨i, hi, heq, -⟩ := mem_of_flags_eq hflags.symm hj
    rw [← heq]
    exact hall i hi
  have hwatched : ∀ s, Watched start { p with storage, installations } s → p.Watched start s := by
    rintro s (hreg | hs)
    · rw [hsnapshots] at hreg
      exact .inl hreg
    · exact .inr (habove s hs)
  have hvisible : Publisher.visibleLsn { p with storage, installations } = p.visibleLsn := by
    unfold visibleLsn
    rw [hsnapshots]
  refine
    { abs := habs, keeps := ?_, mode := ?_, unique := ?_, exported := ?_, visible := ?_,
      registered := ?_, installed := ?_, phaseOk := ?_, newest := ?_, seen := ?_ }
  · have hkeeps := henv.keeps
    exact ⟨hkeeps.mode.trans h.keeps.mode, hkeeps.spill.trans h.keeps.spill,
      hkeeps.maximum.trans h.keeps.maximum, fun t => (hkeeps.layout t).trans (h.keeps.layout t)⟩
  · rw [hsnapshots]
    exact h.mode
  · rw [hsnapshots]
    exact h.unique
  · rw [hsnapshots]
    exact h.exported
  · rw [hvisible]
    exact h.visible
  · rw [hsnapshots, hvisible]
    exact h.registered
  · intro i hi
    obtain ⟨j, hj, hlsn, hcompleted⟩ := mem_of_flags_eq hflags hi
    rw [hvisible, ← hlsn, ← hcompleted]
    exact h.installed j hj
  · exact h.phaseOk.of_flags hsnapshots rfl hflags
  · intro s hs a i hi
    by_cases ha : a = k
    · subst ha
      exact hnewest s (habove s hs) i hi
    · have hi' := hi
      rw [hchanged.frame a ha] at hi'
      exact h.newest s (habove s hs) a i hi'
  intro s hs hw a
  have hw' := hwatched s hw
  rw [henv.keeps.committedRow_eq]
  by_cases ha : a = k
  · subst ha
    exact hseen s hs hw'
  · rw [hchanged.frame a ha]
    exact (h.seen s hs hw' a).trans (congrArg (·.getD (base start a s)) (hframe s a ha).symm)

/-- A local operation on a row. -/
lemma Inv.row (hstart : Recovered start) {op : Op} (hlocal : op.isLocal)
    (hstep : p.storage.step op = some storage) :
    ∃ hl' pl', Inv start { p with storage } hl' pl' := by
  obtain ⟨hl', pl', k, txid, habs, hchg⟩ := step_local h.abs hlocal hstep
  refine ⟨hl', pl', h.changeRow habs hchg rfl (fun _ _ _ => rfl) (fun s hs => ?_)
    fun s hs hw => ?_⟩
  · refine Moves.committedLsn_le hchg.row (h.newest s hs k) fun v hv => ?_
    have hsaved : (start.context k).newestSaved = some v := by
      simpa only [RowContext.newestSaved, Storage.context, h.keeps.spill] using hv
    exact (hstart.saved k v hsaved).trans hs.1
  · rw [h.abs.moves_committedRow_eq hs (h.kept hstart hw k) hchg.row]
    exact h.seen s hs hw k

omit h in
/-- Recording a row keeps the flags. -/
lemma flags_recordRow (k : RowKey) (loc : Option RowLoc) (installations : List Installation) :
    flags (recordRow k loc installations) = flags installations := by
  cases installations <;> rfl

omit h in
/-- It shows nothing of other rows. -/
lemma shown_recordRow_ne {a : RowKey} (ha : a ≠ k) (loc : Option RowLoc) (ins : List Installation)
    (s : ℕ) :
    shown (recordRow k loc ins) s a = shown ins s a := by
  cases ins with
  | nil => rfl
  | cons i rest =>
    have hlookup : lookup a ((k, loc) :: i.rows) = i.rows.lookup a := by
      have : (a == k) = false := by simpa using ha
      rw [lookup_cons, this]
    simp only [recordRow, shown, findSome?_cons, Installation.shows, hlookup]

/-- **A published row.** At or above the installation's LSN the new image shows; below it, nothing
changed for registered snapshots, since history is kept for them. -/
theorem Inv.publishRow (hcur : p.current = some handle) (hprom : txid ∈ handle.promoted)
    {e : PendingEntry} (hhead : (pl k).head? = some e) {hl' : RowKey → List CommittedVersion}
    {pl' : RowKey → List PendingEntry} (habs : storage.Abs hl' pl')
    (hchg : Changed p.storage hl pl storage hl' pl' k
      (p.storage.Installs k txid handle.lsn false)) :
    Inv start { p with
      storage, installations := recordRow k e.change.loc p.installations } hl' pl' := by
  obtain ⟨-, rows, rest, hrec, hdone, hfree, hlt⟩ := h.installing hcur
  have hlayout := h.abs.layout k.table
  refine h.changeRow habs hchg (flags_recordRow ..)
    (fun s a ha => shown_recordRow_ne ha _ _ s) (fun s hs i hi => ?_) fun s hs hw => ?_
  · -- the row's version is the installation's
    have hle : handle.lsn ≤ s := hs.2 ⟨handle.lsn, rows, false⟩ (by rw [hrec]; exact .head rest)
    obtain ⟨j, hmove, hj | ⟨-, hj⟩⟩ := hchg.row
    · obtain rfl := some.inj (hi.symm.trans hj)
      rw [hmove.committedLsn_eq]
      exact hle
    · rw [hj] at hi
      cases hi
  by_cases hle : handle.lsn ≤ s
  · have hshown : shown (recordRow k e.change.loc p.installations) s k =
        some (e.change.loc.map fun loc => ⟨.committed handle.lsn, .heap loc⟩) := by
      rw [hrec]
      simp [recordRow, shown, Installation.shows, hle]
    rw [hshown]
    obtain ⟨j, hmove, hb⟩ := hchg.row
    have himage : (p.storage.context k).committedRow (some j) s =
        e.change.loc.map fun loc => ⟨.committed handle.lsn, .heap loc⟩ := by
      obtain ⟨i, hi, hrow⟩ := hmove.committedRow_ge hlayout hle
      obtain ⟨r, hr, rfl⟩ := map_eq_some_iff.mp hi
      exact hrow e hhead
    rcases hb with hb | ⟨hforget, hb⟩
    · rw [hb, himage]
      rfl
    -- a deletion that is forgotten at once
    have hwf := hmove.wf (h.abs.wf k) j rfl
    rw [hb]
    exact (hforget.committedView hwf hs).symm.trans himage
  · -- a snapshot below the installation is a registered one
    have hshown : shown (recordRow k e.change.loc p.installations) s k =
        shown p.installations s k := by
      rw [hrec]
      simp [recordRow, shown, Installation.shows, hle]
    rcases hw with ⟨reader, hreg⟩ | habove
    · have hne : txid ≠ reader := by
        rintro rfl
        exact hfree txid hprom s hreg
      rw [hshown, h.abs.installs_committedRow_eq hs (hreg.oldest_le h.mode)
        (hreg.retainsFor h.mode hne) (by omega) hchg.row]
      exact h.seen s hs (.inl ⟨reader, hreg⟩) k
    · have := habove.2 ⟨handle.lsn, rows, false⟩ (by rw [hrec]; exact .head rest)
      exact absurd this hle

omit h in
/-- The image to be installed is the newest pending one. -/
lemma pendingImage_eq {st : Storage} (habs : st.Abs hl pl) (k : RowKey) (txid : ℕ) :
    pendingImage st k txid =
      (pl k).head?.bind fun e => if e.change.txid = txid then some e.change.loc else none := by
  unfold pendingImage
  rw [habs.rowHead_eq]
  rfl

/-- **Publishing under an installation.** An error abandons it. -/
theorem Inv.publish (hcur : p.current = some handle) (hprom : txid ∈ handle.promoted)
    {context : CommitContext} (hlayout : context.rewritten = false)
    (hpub : p.publish handle k txid context = some p') :
    ∃ hl' pl', Inv start p' hl' pl' := by
  unfold Publisher.publish at hpub
  rcases h.abs.publishRow_cases k txid handle.lsn context with
    ⟨result, hop, hnone⟩ | ⟨storage, hl', pl', e, hop, hhead, htxid, habs, hchg⟩
  · rw [hop] at hpub
    rcases result with err | _
    · exact ⟨hl, pl, h.abandon hpub⟩
    have himage : pendingImage p.storage k txid = none := by
      rw [pendingImage_eq h.abs]
      rcases hhead : (pl k).head? with _ | e
      · rfl
      · exact if_neg (hnone rfl e hhead)
    rw [himage] at hpub
    cases hpub
    exact ⟨hl, pl, h⟩
  · rw [hop] at hpub
    have himage : pendingImage p.storage k txid = some e.change.loc := by
      rw [pendingImage_eq h.abs, hhead]
      exact if_pos htxid
    rw [himage] at hpub
    cases hpub
    rw [hlayout] at hchg
    exact ⟨hl', pl', h.publishRow hcur hprom hhead habs hchg⟩

/-! ## Runs -/

/-- **One step** of a journalled commit, or any other, keeps the invariant. -/
theorem Inv.step (hstart : Recovered start) {op : PublisherOp} (hjournalled : p.Journalled op)
    (hstep : p.step op = some p') :
    ∃ hl' pl', Inv start p' hl' pl' := by
  cases op with
  | row op hlocal =>
    obtain ⟨storage, hop, rfl⟩ := map_eq_some_iff.mp hstep
    exact h.row hstart hlocal hop
  | admitSnapshot txid repeatable =>
    cases hstep
    exact ⟨hl, pl, h.admitSnapshot txid repeatable⟩
  | finishStatement identity =>
    obtain ⟨s', hdrop, rfl⟩ := map_eq_some_iff.mp hstep
    obtain ⟨statements, rfl, hstatements⟩ := dropStatement_eq hdrop
    refine ⟨hl, pl, h.shrink rfl rfl h.unique h.exported ?_⟩
    rintro reader lsn (hactive | hexp | ⟨st, hst, howner⟩)
    · exact .inl hactive
    · exact .inr (.inl hexp)
    · exact .inr (.inr ⟨st, hstatements st hst, howner⟩)
  | endTransaction txid =>
    cases hstep
    obtain ⟨huniq, hregistered⟩ :=
      endTransactionSnapshots_spec txid h.unique h.exported
    obtain ⟨hadm, hmode, hexp⟩ := p.snapshots.endTransactionSnapshots_keeps txid
    exact ⟨hl, pl, h.shrink hadm hmode huniq (hexp.trans h.exported)
      fun reader lsn hreg => (hregistered reader lsn hreg).1⟩
  | advance frontier =>
    cases hstep
    exact ⟨hl, pl, h.advance frontier⟩
  | beginInstallation txid lsn =>
    simp only [Publisher.step] at hstep
    rcases hbegin : p.snapshots.beginTransactionInstallation txid with err | s'
    · rw [hbegin] at hstep
      cases hstep
      exact ⟨hl, pl, h⟩
    rw [hbegin] at hstep
    cases hstep
    exact ⟨hl, pl, h.beginInstallation hbegin hjournalled⟩
  | promote txid =>
    obtain ⟨handle, hcur, rfl⟩ := map_eq_some_iff.mp hstep
    exact ⟨hl, pl, h.promote hcur txid⟩
  | publish k txid context =>
    obtain ⟨handle, hcur, hpub⟩ := bind_eq_some_iff.mp hstep
    split_ifs at hpub with hprom
    exact h.publish hcur hprom hjournalled hpub
  | complete =>
    obtain ⟨handle, hcur, hmap⟩ := bind_eq_some_iff.mp hstep
    obtain ⟨s', hcomplete, rfl⟩ := map_eq_some_iff.mp hmap
    exact ⟨hl, pl, h.complete hcur hcomplete⟩
  | abandon =>
    obtain ⟨handle, hcur, habandon⟩ := bind_eq_some_iff.mp hstep
    exact ⟨hl, pl, h.abandon habandon⟩

end

/-- **A whole run.** Induction on the steps. -/
theorem Inv.run (h : ∃ hl pl, Inv start p hl pl) (hstart : Recovered start)
    {ops : List PublisherOp} (hops : p.AllJournalled ops) (hrun : p.run ops = some p') :
    ∃ hl pl, Inv start p' hl pl := by
  induction ops generalizing p with
  | nil =>
    cases hrun
    exact h
  | cons op ops ih =>
    obtain ⟨mid, hstep, hrun⟩ := bind_eq_some_iff.mp hrun
    obtain ⟨hl, pl, h⟩ := h
    exact ih (h.step hstart hops.1 hstep) (hops.2 mid hstep) hrun

/-! ## What every run keeps -/

/-- The storage still represents rows, the visible LSN has not decreased, and the phase that
requires recovery has not been left. -/
structure Follows (p p' : Publisher) : Prop where
  abs : ∃ hl pl, p'.storage.Abs hl pl
  visible : p.visibleLsn ≤ p'.visibleLsn
  phase : p.phase = .recoveryRequired → p'.phase = .recoveryRequired

/-- One part of a run after another. -/
lemma Follows.trans {mid : Publisher} (hfirst : p.Follows mid) (hrest : mid.Follows p') :
    p.Follows p' :=
  ⟨hrest.abs, hfirst.visible.trans hrest.visible, hrest.phase ∘ hfirst.phase⟩

section

variable {s' : SnapshotState} (habs : p.storage.Abs hl pl)
include habs

end

instance (p : Publisher) : DecidablePred p.Journalled
  | .beginInstallation .. | .publish .. => by unfold Journalled; infer_instance
  | .row .. | .admitSnapshot .. | .finishStatement _ | .endTransaction _ => .isTrue trivial
  | .advance _ | .promote _ | .complete | .abandon => .isTrue trivial

instance decidableAllJournalled :
    ∀ (p : Publisher) (ops : List PublisherOp), Decidable (p.AllJournalled ops)
  | _, [] => .isTrue trivial
  | p, op :: ops =>
    have := fun p' => decidableAllJournalled p' ops
    inferInstanceAs (Decidable (p.Journalled op ∧ ∀ p' ∈ p.step op, AllJournalled p' ops))

end Publisher

end Pos3ql
