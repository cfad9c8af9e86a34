import Pos3ql.Storage.RowImages

/-!
# The storage operations refine the row moves

`Abs st hl pl` says that the storage state `st` represents, for every row, the image built from its
state and the lists `hl k` (history) and `pl k` (pending), and that every image satisfies its
invariant. Each operation of `Pos3ql.Storage.RowPublication`, run from such a state,

* returns: no array index, assertion or loop fails;
* leaves a state that again represents images;
* makes moves of `Pos3ql.Storage.RowImages` on the one row it is about, and changes no other row.

So a statement about moves holds of the operations, with the arrays, links and free lists gone.
-/

namespace Pos3ql

open Relation List Function TablePublication RowContext Option

/-- The image of a row state with its lists. -/
def RowState.image (r : RowState) (h : List CommittedVersion) (p : List PendingEntry) : RowImage :=
  ⟨r.committed, r.committedLsn, r.committedGeneration, r.checkpointChangeLsn, h, p⟩

/-- The history reservation a row's pending chain must hold. -/
def RowState.ReservationOk (r : RowState) (mode : TransactionMode) (p : List PendingEntry) : Prop :=
  (p = [] → r.pending.historyReservation = .none) ∧
    (p ≠ [] → r.hasCommittedVersion = true → mode = .mvcc →
      ∃ slot, r.pending.historyReservation = .reserved slot)

namespace Storage

variable {st st' : Storage} {hl : RowKey → List CommittedVersion} {pl : RowKey → List PendingEntry}

/-- The history handles of all rows. -/
def histories (st : Storage) (k : RowKey) : CommittedHistory :=
  match st.rows k with
  | some r => r.history
  | none => .empty

/-- The pending handles of all rows. -/
def pendings (st : Storage) (k : RowKey) : PendingVersions :=
  match st.rows k with
  | some r => r.pending
  | none => .empty

/-- The context of a row. -/
def context (st : Storage) (k : RowKey) : RowContext :=
  ⟨st.publication k.table, st.spillGenerations k.table, k.rowid, st.maxRowVersionsPerRow⟩

/-- The image of a row. -/
def image (st : Storage) (hl : RowKey → List CommittedVersion) (pl : RowKey → List PendingEntry)
    (k : RowKey) : Option RowImage :=
  (st.rows k).map fun r => r.image (hl k) (pl k)

/-- **The abstraction relation.** -/
structure Abs (st : Storage) (hl : RowKey → List CommittedVersion)
    (pl : RowKey → List PendingEntry) : Prop where
  /-- The arrays represent the lists. -/
  rep : Rep st.versions st.histories st.pendings hl pl
  /-- Reservations match pending chains. -/
  reservation : ∀ k r, st.rows k = some r → r.ReservationOk st.snapshots.transactionMode (pl k)
  /-- Every row satisfies its invariant. -/
  wf : ∀ k i, st.image hl pl k = some i → i.WF (st.context k)
  /-- The current layout is not ahead of its table. -/
  layout : ∀ t, (st.publication t).firstGeneration ≤ (st.publication t).generation

/-- The two states differ in rows, arrays and generation counters only. -/
structure SameEnv (st st' : Storage) : Prop where
  snapshots : st'.snapshots = st.snapshots
  spill : st'.spillGenerations = st.spillGenerations
  maximum : st'.maxRowVersionsPerRow = st.maxRowVersionsPerRow
  layout : ∀ t, (st'.publication t).firstGeneration = (st.publication t).firstGeneration

/-- **One row changed**, by `R`; the others kept their images. -/
structure Changed (st : Storage) (hl : RowKey → List CommittedVersion)
    (pl : RowKey → List PendingEntry) (st' : Storage) (hl' : RowKey → List CommittedVersion)
    (pl' : RowKey → List PendingEntry) (k : RowKey)
    (R : Option RowImage → Option RowImage → Prop) : Prop where
  row : R (st.image hl pl k) (st'.image hl' pl' k)
  frame : ∀ a, a ≠ k → st'.image hl' pl' a = st.image hl pl a
  env : SameEnv st st'

lemma SameEnv.refl (st : Storage) : SameEnv st st := ⟨rfl, rfl, rfl, fun _ => rfl⟩

/-- One step after another. -/
lemma SameEnv.trans {st'' : Storage} (h : SameEnv st st') (h' : SameEnv st' st'') :
    SameEnv st st'' :=
  ⟨h'.snapshots.trans h.snapshots, h'.spill.trans h.spill, h'.maximum.trans h.maximum,
    fun t => (h'.layout t).trans (h.layout t)⟩

/-! ## Rows and their handles -/

lemma histories_setRow (k : RowKey) (vs : RowVersionState) (row : Option RowState) :
    (st.setRow k vs row).histories = update st.histories k (row.elim .empty RowState.history) := by
  funext a
  by_cases ha : a = k
  · subst ha
    cases row <;> simp [histories, setRow]
  · simp [histories, setRow, ha]

lemma pendings_setRow (k : RowKey) (vs : RowVersionState) (row : Option RowState) :
    (st.setRow k vs row).pendings = update st.pendings k (row.elim .empty RowState.pending) := by
  funext a
  by_cases ha : a = k
  · subst ha
    cases row <;> simp [pendings, setRow]
  · simp [pendings, setRow, ha]

/-- The image of the row that was set. -/
lemma image_setRow_self (k : RowKey) (vs : RowVersionState) (row : Option RowState)
    (h : List CommittedVersion) (p : List PendingEntry) :
    (st.setRow k vs row).image (update hl k h) (update pl k p) k =
      row.map fun r => r.image h p := by
  simp [image, setRow]

variable {k : RowKey} {vs : RowVersionState} {h : List CommittedVersion} {p : List PendingEntry}
  {r row : RowState} {txid : ℕ}

/-- Other rows' images stay. -/
lemma image_setRow_ne {a : RowKey} (ha : a ≠ k) (vs : RowVersionState) (row : Option RowState)
    (h : List CommittedVersion) (p : List PendingEntry) :
    (st.setRow k vs row).image (update hl k h) (update pl k p) a = st.image hl pl a := by
  simp [image, setRow, ha]

lemma sameEnv_setRow (k : RowKey) (vs : RowVersionState) (row : Option RowState) :
    SameEnv st (st.setRow k vs row) := ⟨rfl, rfl, rfl, fun _ => rfl⟩

/-- **Storing a row state** keeps the abstraction when the arrays represent the new lists and the
new row satisfies its invariant. -/
theorem Abs.setRow (habs : Abs st hl pl) {row : Option RowState}
    (hrep : Rep vs (update st.histories k (row.elim .empty RowState.history))
      (update st.pendings k (row.elim .empty RowState.pending))
      (update hl k h) (update pl k p))
    (hres : ∀ r, row = some r → r.ReservationOk st.snapshots.transactionMode p)
    (hwf : ∀ r, row = some r → (r.image h p).WF (st.context k)) :
    Abs (st.setRow k vs row) (update hl k h) (update pl k p) := by
  refine ⟨?_, fun a r ha => ?_, fun a i hi => ?_, habs.layout⟩
  · rw [histories_setRow, pendings_setRow]
    exact hrep
  · by_cases hak : a = k
    · subst hak
      have hr : row = some r := by simpa [Storage.setRow] using ha
      rw [update_self]
      exact hres r hr
    · have hr : st.rows a = some r := by simpa [Storage.setRow, hak] using ha
      rw [update_of_ne hak]
      exact habs.reservation a r hr
  · by_cases hak : a = k
    · subst hak
      rw [image_setRow_self] at hi
      obtain ⟨r, hr, rfl⟩ := map_eq_some_iff.mp hi
      exact hwf r hr
    · rw [image_setRow_ne hak] at hi
      exact habs.wf a i hi

/-! ## The row an operation works on -/

/-- The chains of a loaded row. -/
lemma handles_some (hr : st.rows k = some r) :
    st.histories k = r.history ∧ st.pendings k = r.pending := by
  simp [histories, pendings, hr]

/-- The image of a loaded row. -/
lemma image_some (hr : st.rows k = some r) : st.image hl pl k = some (r.image (hl k) (pl k)) := by
  simp [image, hr]

/-- A row that is not loaded has no chains. -/
lemma handles_none (hr : st.rows k = none) : st.histories k = .empty ∧ st.pendings k = .empty := by
  simp [histories, pendings, hr]

section

variable (habs : Abs st hl pl)
include habs

/-- Nor any versions. -/
lemma Abs.lists_none (hr : st.rows k = none) : hl k = [] ∧ pl k = [] := by
  obtain ⟨hh, hp⟩ := handles_none hr
  have h1 := habs.rep.committed.len k
  have h2 := habs.rep.pending.len k
  rw [hh] at h1
  rw [hp] at h2
  exact ⟨length_eq_zero_iff.mp h1.symm, length_eq_zero_iff.mp h2.symm⟩

omit habs in
/-- **Reading in MVCC mode** is the view of the row's image, whatever else holds of the state. -/
theorem visibleRowHomeAt_rep (hrep : Rep st.versions st.histories st.pendings hl pl)
    (hmode : st.snapshots.transactionMode = .mvcc) (k : RowKey) (txid cs s : ℕ) :
    st.visibleRowHomeAt k txid cs s = some ((st.context k).view (st.image hl pl k) txid cs s) := by
  unfold visibleRowHomeAt
  rw [hmode]
  rcases hr : st.rows k with _ | r
  · simp [image, hr, view, savedAt, RowContext.savedAt, context]
  obtain ⟨hh, hp⟩ := handles_some hr
  obtain ⟨cells, _, hown, hread⟩ := hrep.pending.chains
  obtain ⟨cells', _, hown', hread'⟩ := hrep.committed.chains
  have hlink := hown.linked k
  have hlink' := hown'.linked (.history k)
  simp only [historyTail, hh, hp] at hlink hlink'
  -- a row of an old layout shows neither its version nor its history
  obtain ⟨shown, hshown, hlist, hcom, hpend, hlsn⟩ : ∃ shown,
      st.versions.committedRowVersions.pool.Linked
        ((st.publication k.table).visibleState r).history.tail shown ∧
      st.versions.committedRowVersions.pool.read shown =
        ((r.image (hl k) (pl k)).visible (st.context k)).2 ∧
      ((st.publication k.table).visibleState r).committed =
        ((r.image (hl k) (pl k)).visible (st.context k)).1 ∧
      ((st.publication k.table).visibleState r).pending = r.pending ∧
      ((st.publication k.table).visibleState r).committedLsn = r.committedLsn := by
    have hobs : (r.image (hl k) (pl k)).obsolete (st.context k) =
        (st.publication k.table).obsolete r :=
      rfl
    unfold visibleState RowImage.visible
    rw [hobs]
    split_ifs
    · exact ⟨[], .nil, rfl, rfl, rfl, rfl⟩
    · exact ⟨_, hlink', hread' k, rfl, rfl, rfl⟩
  rw [← hpend] at hlink
  simp only [image, hr, map_some, view, visibleVersionAt_linked hlink hshown, hread, hlist, hcom,
    hlsn]
  have hpl : (r.image (hl k) (pl k)).pending = pl k := rfl
  have hle : (r.image (hl k) (pl k)).committedLsn = r.committedLsn := rfl
  rw [hpl]
  rcases find? _ (pl k) with _ | e
  · simp only [Option.elim, committedView, hle]
    split_ifs
    · rfl
    · rcases find? _ (RowImage.visible _ _).2 with _ | v <;> rfl
  · rcases hloc : e.change.loc with _ | loc <;> simp [hloc]

/-- **A read sees what the image shows.** -/
lemma Abs.visibleRowHomeAt_eq (hmode : st.snapshots.transactionMode = .mvcc) (k : RowKey)
    (txid cs s : ℕ) :
    st.visibleRowHomeAt k txid cs s = some ((st.context k).view (st.image hl pl k) txid cs s) :=
  visibleRowHomeAt_rep habs.rep hmode k txid cs s

/-- The snapshot reads are made at: in locking mode always the newest.
Source: `visible_row_home_at`. -/
def commitSnapshot (st : Storage) (s : ℕ) : ℕ :=
  match st.snapshots.transactionMode with
  | .mvcc => s
  | .locking => u64Max

/-- **Reading in either mode.** -/
theorem Abs.visibleRowHomeAt_view (k : RowKey) (txid cs s : ℕ) :
    st.visibleRowHomeAt k txid cs s =
      some ((st.context k).view (st.image hl pl k) txid cs (st.commitSnapshot s)) := by
  rcases hmode : st.snapshots.transactionMode with _ | _
  · have hsnap : st.commitSnapshot s = s := by rw [commitSnapshot, hmode]
    rw [hsnap]
    exact habs.visibleRowHomeAt_eq hmode k txid cs s
  -- locking mode reads as MVCC mode does at the newest snapshot
  let mvcc : Storage := { st with snapshots := { st.snapshots with transactionMode := .mvcc } }
  have hread : st.visibleRowHomeAt k txid cs s = mvcc.visibleRowHomeAt k txid cs u64Max := by
    unfold visibleRowHomeAt
    rw [hmode]
    rfl
  have hsnap : st.commitSnapshot s = u64Max := by rw [commitSnapshot, hmode]
  rw [hread, hsnap]
  exact @visibleRowHomeAt_rep mvcc hl pl habs.rep rfl k txid cs u64Max

/-- The newest pending entry. -/
lemma Abs.pendingHead_eq (hr : st.rows k = some r) :
    pendingHead st.versions.pendingRowVersions r.pending = some (pl k).head? := by
  have h := habs.rep.pending.pendingHead_eq k
  rwa [(handles_some hr).2] at h

lemma Abs.rowHead_eq (k : RowKey) : st.rowHead k = some (pl k).head? := by
  unfold rowHead
  rcases hr : st.rows k with _ | r
  · simp [(habs.lists_none hr).2]
  · exact habs.pendingHead_eq hr

/-- A row has pending entries of one transaction. -/
lemma Abs.pending_owner {x e : PendingEntry}
    {rest : List PendingEntry} (hpl : pl k = x :: rest) (he : e ∈ pl k) :
    e.change.txid = x.change.txid := by
  rcases hr : st.rows k with _ | r
  · rw [(habs.lists_none hr).2] at he
    cases he
  · have hwf := habs.wf k _ (image_some hr)
    have hx : x ∈ pl k := by simp [hpl]
    exact hwf.owner e he x hx

/-- **Own pending writes.** -/
theorem Abs.rowHasOwnPending_iff (k : RowKey) (txid : ℕ) :
    st.rowHasOwnPending k txid = some false ↔ NotPending txid (st.image hl pl k) := by
  have hlists : NotPending txid (st.image hl pl k) ↔ ∀ e ∈ pl k, e.change.txid ≠ txid := by
    unfold NotPending image
    rcases hr : st.rows k with _ | r
    · simp [(habs.lists_none hr).2]
    · simp [RowState.image]
  rw [hlists]
  unfold rowHasOwnPending
  simp only [habs.rowHead_eq, bind_eq_bind, bind_some, some.injEq]
  rcases hpl : pl k with _ | ⟨x, rest⟩
  · simp
  simp only [head?_cons, any_some, beq_eq_false_iff_ne]
  constructor
  · intro hx e he
    rw [habs.pending_owner hpl (hpl ▸ he)]
    exact hx
  · intro h
    exact h x mem_cons_self

/-! ## Cleaning, undo and freezing keys -/

/-- Any number of moves of `txid` on row `k`. -/
def Moves (st : Storage) (k : RowKey) (txid : ℕ) : Option RowImage → Option RowImage → Prop :=
  ReflTransGen (Move (st.context k) st.snapshots txid)

/-- Moves keep the invariant of the row. Induction on the moves. -/
lemma Abs.moves_wf {b : Option RowImage}
    (h : st.Moves k txid (st.image hl pl k) b) : ∀ j, b = some j → j.WF (st.context k) := by
  induction h with
  | refl => exact habs.wf k
  | tail _ hmove ih => exact hmove.wf (habs.layout k.table) ih

/-- **The shape of every operation on a row**: it stores a row state whose image is reached by
moves, over arrays that represent the new lists. -/
theorem Abs.setRow_moves (row : Option RowState)
    (hrep : Rep vs (update st.histories k (row.elim .empty RowState.history))
      (update st.pendings k (row.elim .empty RowState.pending)) (update hl k h) (update pl k p))
    (hres : ∀ r, row = some r → r.ReservationOk st.snapshots.transactionMode p)
    (hmoves : st.Moves k txid (st.image hl pl k) (row.map fun r => r.image h p)) :
    Abs (st.setRow k vs row) (update hl k h) (update pl k p) ∧
      Changed st hl pl (st.setRow k vs row) (update hl k h) (update pl k p) k
        (st.Moves k txid) := by
  refine ⟨habs.setRow hrep hres fun r hr => habs.moves_wf hmoves _ (by rw [hr]; rfl),
    ⟨?_, fun a ha => image_setRow_ne ha .., sameEnv_setRow ..⟩⟩
  rw [image_setRow_self]
  exact hmoves

/-- Nothing happens. -/
lemma Abs.unchanged (k : RowKey) (txid : ℕ) :
    Abs st hl pl ∧ Changed st hl pl st hl pl k (st.Moves k txid) :=
  ⟨habs, ⟨.refl, fun _ _ => rfl, SameEnv.refl st⟩⟩

section

variable (hr : st.rows k = some r)
include hr

lemma Abs.rep_some :
    Rep st.versions (update st.histories k r.history) (update st.pendings k r.pending) hl pl := by
  obtain ⟨hh, hp⟩ := handles_some hr
  rw [← hh, ← hp, update_eq_self, update_eq_self]
  exact habs.rep

/-- The history's length is kept. -/
lemma Abs.history_len : r.history.len = (hl k).length := by
  rw [← habs.rep.committed.len k, (handles_some hr).1]

/-- So is that of the pending chain. -/
lemma Abs.pending_len : r.pending.len = (pl k).length := by
  rw [← habs.rep.pending.len k, (handles_some hr).2]

/-- Pruning cuts the history. -/
lemma Abs.prune_row (o : Option ℕ) :
    ∃ vs history, pruneCommittedHistory st.versions r o = some (vs, { r with history }) ∧
      Rep vs (update st.histories k history) (update st.pendings k r.pending)
        (update hl k (prunedHistory (r.oldestNeeding o) (hl k))) (update pl k (pl k)) := by
  obtain ⟨vs, history, hprune, hrep, -⟩ := (habs.rep_some hr).pruneHistory o
  refine ⟨vs, history, hprune, ?_⟩
  rwa [update_eq_self k pl]

lemma Abs.reservation_some (history : CommittedHistory) :
    RowState.ReservationOk { r with history } st.snapshots.transactionMode (pl k) :=
  habs.reservation k r hr

end

omit habs in
/-- Pruning is a move. -/
lemma moves_prune (hl : RowKey → List CommittedVersion) (pl : RowKey → List PendingEntry)
    {r : RowState} (hr : st.rows k = some r) (txid : ℕ) (history : CommittedHistory) :
    st.Moves k txid (st.image hl pl k) (some (RowState.image { r with history }
      (prunedHistory (r.oldestNeeding (st.oldestFor k r)) (hl k)) (pl k))) := by
  rw [image_some hr]
  refine ReflTransGen.single (Move.prune _ (st.oldestFor k r) ?_)
  unfold oldestFor
  split_ifs with hobs
  · exact .inr hobs
  · exact .inl rfl

/-- **`SnapshotHistory` cleaning** prunes one row. -/
theorem Abs.cleanSnapshotHistory_spec (k : RowKey) (txid : ℕ) :
    ∃ st' hl' pl', st.cleanSnapshotHistory k = some st' ∧ Abs st' hl' pl' ∧
      Changed st hl pl st' hl' pl' k (st.Moves k txid) := by
  unfold cleanSnapshotHistory
  rcases hr : st.rows k with _ | r
  · exact ⟨st, hl, pl, rfl, habs.unchanged k txid⟩
  obtain ⟨vs, history, hprune, hrep⟩ := habs.prune_row hr (st.oldestFor k r)
  exact ⟨_, _, _, by simp [hprune], habs.setRow_moves (some { r with history }) hrep
    (fun x hx => by cases hx; exact habs.reservation_some hr history)
    (moves_prune hl pl hr txid history)⟩

omit habs in
/-- A row without versions is dropped. -/
lemma rep_drop {H : RowKey → CommittedHistory} {P : RowKey → PendingVersions}
    {history : CommittedHistory} {pending : PendingVersions}
    (hrep : Rep vs (update H k history) (update P k pending) (update hl k h) (update pl k p))
    (hh : h = []) (hp : p = []) (hres : pending.historyReservation = .none) :
    history = .empty ∧ pending = .empty := by
  constructor
  · simpa using hrep.committed.handle_empty (k := k) (by simpa using hh)
  · simpa using hrep.pending.handle_empty (k := k) (by simpa using hp) (by simpa using hres)

/-- **`prune_snapshot_cell`** prunes one row and forgets it when nothing remains. -/
theorem Abs.pruneSnapshotCell_spec (k : RowKey) (deletionsIdle : Bool) (txid : ℕ) :
    ∃ st' hl' pl', st.pruneSnapshotCell k deletionsIdle = some st' ∧ Abs st' hl' pl' ∧
      Changed st hl pl st' hl' pl' k (st.Moves k txid) := by
  unfold pruneSnapshotCell
  rcases hr : st.rows k with _ | r
  · exact ⟨st, hl, pl, rfl, habs.unchanged k txid⟩
  obtain ⟨vs, history, hprune, hrep⟩ := habs.prune_row hr (st.oldestFor k r)
  have hmoves := moves_prune hl pl hr txid history
  have hres := habs.reservation_some hr history
  have hlen : history.len = (prunedHistory (r.oldestNeeding (st.oldestFor k r)) (hl k)).length := by
    simpa using hrep.committed.len k
  simp only [hprune, bind_eq_bind, bind_some]
  split_ifs with hremove
  · simp only [Bool.and_eq_true, beq_iff_eq, Option.isNone_iff_eq_none, List.isEmpty_iff] at hremove
    obtain ⟨⟨⟨⟨⟨-, hspill⟩, -⟩, hcom⟩, hhist⟩, hpend⟩ := hremove
    have hh : prunedHistory (r.oldestNeeding (st.oldestFor k r)) (hl k) = [] :=
      length_eq_zero_iff.mp (hlen.symm.trans hhist)
    have hp : pl k = [] := length_eq_zero_iff.mp ((habs.pending_len hr).symm.trans hpend)
    obtain ⟨rfl, hempty⟩ := rep_drop hrep hh hp (hres.1 hp)
    rw [hempty] at hrep
    refine ⟨_, _, _, rfl, habs.setRow_moves none hrep (fun x hx => by cases hx)
      (hmoves.tail (Move.forget _ ⟨hp, hh, .inr (.inr ⟨hcom, hspill⟩)⟩))⟩
  · exact ⟨_, _, _, rfl, habs.setRow_moves (some { r with history }) hrep
      (fun x hx => by cases hx; exact hres) hmoves⟩

/-- **`SavedEntries` cleaning** forgets a row its saved image reproduces. -/
theorem Abs.dropSavedEntry_spec (k : RowKey) (txid : ℕ) :
    ∃ hl' pl', Abs (st.dropSavedEntry k) hl' pl' ∧
      Changed st hl pl (st.dropSavedEntry k) hl' pl' k (st.Moves k txid) := by
  unfold dropSavedEntry
  rcases hr : st.rows k with _ | r
  · exact ⟨hl, pl, habs.unchanged k txid⟩
  dsimp only
  split_ifs with hredundant
  · simp only [RowState.redundantSpilled, Bool.and_eq_true, beq_iff_eq, Option.any_eq_true,
      Bool.not_eq_true'] at hredundant
    obtain ⟨⟨⟨⟨home, hhome, hheap⟩, hcp⟩, hhist⟩, hpend⟩ := hredundant
    have hh : hl k = [] := length_eq_zero_iff.mp ((habs.history_len hr).symm.trans hhist)
    have hp : pl k = [] := length_eq_zero_iff.mp ((habs.pending_len hr).symm.trans hpend)
    have hrep := habs.rep_some hr
    rw [← update_eq_self k hl, ← update_eq_self k pl] at hrep
    obtain ⟨hhe, hpe⟩ := rep_drop hrep hh hp ((habs.reservation k r hr).1 hp)
    rw [hhe, hpe] at hrep
    refine ⟨_, _, habs.setRow_moves none hrep (fun x hx => by cases hx) ?_⟩
    rw [image_some hr]
    exact ReflTransGen.single (Move.forget _ ⟨hp, hh, .inr (.inl ⟨hcp, home, hhome, hheap⟩)⟩)
  · exact ⟨hl, pl, habs.unchanged k txid⟩

/-- **`restore_pending`** undoes the newest image of the transaction, and forgets a row that then
has nothing of its own. -/
theorem Abs.restorePending_undoes (k : RowKey) (txid ident : ℕ) :
    ∃ st' hl' pl', st.restorePending k txid ident = some st' ∧
      (Abs st' hl' pl' ∧ Changed st hl pl st' hl' pl' k (st.Moves k txid)) ∧
      ∀ e rest, pl k = e :: rest → e.identity = ident → e.change.txid = txid → pl' k = rest := by
  unfold restorePending
  rcases hr : st.rows k with _ | r
  · exact ⟨st, hl, pl, rfl, habs.unchanged k txid, fun e rest hpl _ _ => by
      rw [(habs.lists_none hr).2] at hpl
      cases hpl⟩
  simp only [habs.pendingHead_eq hr, bind_eq_bind, bind_some]
  rcases hpl : pl k with _ | ⟨e, rest⟩
  · exact ⟨st, hl, pl, rfl, habs.unchanged k txid, fun e rest h _ _ => by cases h⟩
  simp only [head?_cons]
  split_ifs with hother
  · refine ⟨st, hl, pl, rfl, habs.unchanged k txid, fun x rest' h hid htx => ?_⟩
    obtain ⟨rfl, rfl⟩ := List.cons.inj h
    exact absurd hother (by simp [hid, htx])
  obtain ⟨-, htxid⟩ : e.identity = ident ∧ e.change.txid = txid := by
    simpa [not_or] using hother
  -- whatever becomes of the row, its list is the rest
  have hrest : ∀ x rest', e :: rest = x :: rest' → x.identity = ident → x.change.txid = txid →
      update pl k rest k = rest' := by
    intro x rest' h _ _
    rw [update_self]
    exact (List.cons.inj h).2
  obtain ⟨vs, pending, hpop, hrep, hreservation⟩ := habs.rep.pop hpl
  rw [(handles_some hr).2] at hpop hreservation
  have hrep' : Rep vs (update st.histories k r.history) (update st.pendings k pending)
      (update hl k (hl k))
      (update pl k rest) := by
    rwa [← (handles_some hr).1, update_eq_self, update_eq_self]
  have hmoves : st.Moves k txid (st.image hl pl k)
      (some (RowState.image { r with pending } (hl k) rest)) := by
    rw [image_some hr]
    exact ReflTransGen.single (Move.pop _ e rest hpl htxid)
  have hres : RowState.ReservationOk { r with pending } st.snapshots.transactionMode rest := by
    refine ⟨fun hrest => by simpa [hrest] using hreservation, fun hrest hhas hmode => ?_⟩
    obtain ⟨slot, hslot⟩ := (habs.reservation k r hr).2 (by simp [hpl]) hhas hmode
    exact ⟨slot, by simpa [hrest, hslot] using hreservation⟩
  have hlen : pending.len = rest.length := by simpa using hrep.pending.len k
  simp only [hpop, bind_some]
  split_ifs with hremove
  · -- the row had nothing else: no pending image, no history, and nothing or a saved image
    have hforget : RowImage.Forgettable (st.context k)
        (RowState.image { r with pending } (hl k) rest) := by
      simp only [Bool.or_eq_true, Bool.and_eq_true, beq_iff_eq, RowState.redundantSpilled,
        Option.any_eq_true, Bool.not_eq_true'] at hremove
      rcases hremove with ⟨⟨hhas, hhist⟩, hpend⟩ | ⟨⟨⟨⟨home, hhome, hheap⟩, hcp⟩, hhist⟩, hpend⟩
      · refine ⟨length_eq_zero_iff.mp (hlen.symm.trans hpend),
          length_eq_zero_iff.mp ((habs.history_len hr).symm.trans hhist), .inl ?_⟩
        simpa [RowState.hasCommittedVersion, RowState.image] using hhas
      · exact ⟨length_eq_zero_iff.mp (hlen.symm.trans hpend),
          length_eq_zero_iff.mp ((habs.history_len
          hr).symm.trans hhist), .inr (.inl ⟨hcp, home, hhome, hheap⟩)⟩
    obtain ⟨hhe, hpe⟩ := rep_drop hrep' hforget.2.1 hforget.1 (hres.1 hforget.1)
    rw [hhe, hpe] at hrep'
    exact ⟨_, _, _, rfl, habs.setRow_moves none hrep' (fun x hx => by cases hx)
      (hmoves.tail (Move.forget _ hforget)), hrest⟩
  · exact ⟨_, _, _, rfl, habs.setRow_moves (some { r with pending }) hrep'
      (fun x hx => by cases hx; exact hres) hmoves, hrest⟩

/-- The same, as a change of one row. -/
lemma Abs.restorePending_spec (k : RowKey) (txid ident : ℕ) :
    ∃ st' hl' pl', st.restorePending k txid ident = some st' ∧ Abs st' hl' pl' ∧
      Changed st hl pl st' hl' pl' k (st.Moves k txid) := by
  obtain ⟨st', hl', pl', hop, h, -⟩ := habs.restorePending_undoes k txid ident
  exact ⟨st', hl', pl', hop, h⟩

omit habs in
lemma withVersions_eq_setRow (k : RowKey) (vs : RowVersionState) :
    { st with versions := vs } = st.setRow k vs (st.rows k) := by
  simp [setRow]

/-- **`prepare_commit_row_keys`** freezes the newest image of the transaction. -/
theorem Abs.prepareCommitRowKeys_spec (k : RowKey) (txid : ℕ) :
    ∃ st' hl' pl', st.prepareCommitRowKeys k txid = some st' ∧ Abs st' hl' pl' ∧
      Changed st hl pl st' hl' pl' k (st.Moves k txid) := by
  unfold prepareCommitRowKeys
  rcases hr : st.rows k with _ | r
  · exact ⟨st, hl, pl, rfl, habs.unchanged k txid⟩
  rcases hpl : pl k with _ | ⟨e, rest⟩
  · have htail := habs.rep.pending.tail_none hpl
    rw [(handles_some hr).2] at htail
    exact ⟨st, hl, pl, by simp [htail], habs.unchanged k txid⟩
  obtain ⟨slot, s, htail, hs, hvalue, hrep⟩ :=
    habs.rep.pending.freeze hpl { e with keysPrepared := true }
  rw [(handles_some hr).2] at htail
  simp only [bind_some, htail, hs, bind_eq_bind, hvalue]
  split_ifs with htxid
  · obtain ⟨hh, hp⟩ := handles_some hr
    have hres := habs.reservation k r hr
    rw [hpl] at hres
    refine ⟨_, update hl k (hl k), update pl k ({ e with keysPrepared := true } :: rest), rfl, ?_⟩
    rw [withVersions_eq_setRow k, hr]
    refine habs.setRow_moves (some r) (p := { e with keysPrepared := true } :: rest) ?_
      (fun x hx => by cases hx; exact ⟨by simp, fun _ => hres.2 (by simp)⟩) ?_
    · simp only [elim_some, ← hh, ← hp, update_eq_self]
      exact ⟨habs.rep.committed, hrep⟩
    · rw [image_some hr]
      exact ReflTransGen.single (Move.freeze _ e rest hpl htxid)
  · exact ⟨st, hl, pl, rfl, habs.unchanged k txid⟩

/-! ## Writing -/

omit habs in
@[simp] lemma setRow_setRow (k : RowKey) (vs vs' : RowVersionState) (row row' : Option RowState) :
    (st.setRow k vs row).setRow k vs' row' = st.setRow k vs' row' := by
  simp [setRow]

/-- The row a write starts from. -/
def startRow (st : Storage) (k : RowKey) : RowState := (st.rows k).getD (st.synthesize k)

/-- The state in which a write that stops after pruning leaves the row. -/
def storedRow (st : Storage) (k : RowKey) (row : RowState) : Option RowState :=
  (st.rows k).map fun _ => row

omit habs in
/-- A row made from the saved version. -/
lemma synthesize_image (st : Storage) (k : RowKey) :
    (st.synthesize k).image [] [] = (st.context k).loaded ∧
      (st.synthesize k).history = .empty ∧ (st.synthesize k).pending = .empty := by
  unfold synthesize loaded newestSaved
  simp only [context]
  rcases probeSpillSource (st.spillGenerations k.table) k.rowid u64Max with _ | v
  · exact ⟨rfl, rfl, rfl⟩
  · exact ⟨rfl, rfl, rfl⟩

/-- The start of a write: the arrays seen from the row, its image and its reservation. -/
lemma Abs.startRow_spec (k : RowKey) (txid : ℕ) :
    Rep st.versions (update st.histories k (st.startRow k).history)
        (update st.pendings k (st.startRow k).pending) hl pl ∧
      st.Moves k txid (st.image hl pl k) (some ((st.startRow k).image (hl k) (pl k))) ∧
      (st.startRow k).ReservationOk st.snapshots.transactionMode (pl k) := by
  unfold startRow
  rcases hr : st.rows k with _ | r
  · obtain ⟨hload, hhist, hpend⟩ := synthesize_image st k
    obtain ⟨hh, hp⟩ := handles_none hr
    obtain ⟨hhl, hpl⟩ := habs.lists_none hr
    simp only [getD_none, hhist, hpend]
    refine ⟨?_, ?_, fun _ => by rw [hpend]; rfl, fun hne => absurd hpl hne⟩
    · rw [← hh, ← hp, update_eq_self, update_eq_self]
      exact habs.rep
    · rw [hhl, hpl, hload]
      simp only [image, hr]
      exact ReflTransGen.single Move.load
  · refine ⟨habs.rep_some hr, ?_, habs.reservation k r hr⟩
    simp only [image, hr]
    exact ReflTransGen.refl

/-- What the pruning before a write leaves. -/
structure WriteReady (st : Storage) (hl : RowKey → List CommittedVersion)
    (pl : RowKey → List PendingEntry) (k : RowKey) (txid : ℕ) (vs : RowVersionState)
    (row : RowState) (h : List CommittedVersion) : Prop where
  rep : Rep vs (update st.histories k row.history) (update st.pendings k row.pending)
    (update hl k h)
    (update pl k (pl k))
  moves : st.Moves k txid (st.image hl pl k) (some (row.image h (pl k)))
  reservation : row.ReservationOk st.snapshots.transactionMode (pl k)
  expired : (st.publication k.table).obsolete row = true → row.committed = none ∧ h = []
  unread : st.snapshots.oldest = none → h = []
  absent : st.rows k = none → h = []

/-- Dropping an obsolete row. -/
lemma Abs.dropObsolete_spec (k : RowKey) (txid : ℕ) :
    ∃ vs row h, st.dropObsolete k (st.startRow k) = some (vs, row) ∧
      Rep vs (update st.histories k row.history) (update st.pendings k row.pending) (update hl k h)
        pl ∧ st.Moves k txid (st.image hl pl k) (some (row.image h (pl k))) ∧
      row.ReservationOk st.snapshots.transactionMode (pl k) ∧
      ((st.publication k.table).obsolete row → row.committed = none ∧ h = []) ∧
      (st.rows k = none → h = []) := by
  obtain ⟨hrep, hmoves, hres⟩ := habs.startRow_spec k txid
  unfold dropObsolete
  by_cases hobs : (st.publication k.table).obsolete (st.startRow k) = true
  · obtain ⟨vs, history, hprune, hrep', -⟩ := hrep.pruneHistory none
    exact ⟨vs, { st.startRow k with history, committed := none }, [], by simp [hobs, hprune], hrep',
      hmoves.tail (Move.expire _ hobs), hres, fun _ => ⟨rfl, rfl⟩, fun _ => rfl⟩
  · refine ⟨st.versions, st.startRow k, hl k, by simp [hobs], ?_, hmoves, hres,
      fun h => absurd h hobs, fun h => (habs.lists_none h).1⟩
    rwa [update_eq_self k hl]

/-- **`publish_pending_write` prunes first.** -/
theorem Abs.pruneForWrite_spec (k : RowKey) (txid : ℕ) :
    ∃ vs row h, st.pruneForWrite k (st.startRow k) =
        some (st.setRow k vs (st.storedRow k row), row) ∧
      WriteReady st hl pl k txid vs row h := by
  obtain ⟨vs1, row1, h1, hdrop, hrep1, hmoves1, hreserved1, hexp1, habsent1⟩ :=
    habs.dropObsolete_spec k txid
  -- then prune for the oldest snapshot
  obtain ⟨vs2, history, hprune, hrep2, -⟩ := hrep1.pruneHistory st.snapshots.oldest
  rw [update_self, update_idem] at hrep2
  set h2 := prunedHistory (row1.oldestNeeding st.snapshots.oldest) h1 with hh2
  have hshort : h1 = [] → h2 = [] := by
    intro h
    have hle := prunedHistory_length_le (row1.oldestNeeding st.snapshots.oldest) h1
    rw [← hh2, h] at hle
    exact length_eq_zero_iff.mp (Nat.le_zero.mp hle)
  refine ⟨vs2, { row1 with history }, h2, ?_, ⟨?_, ?_, ?_, ?_, ?_, fun h => hshort (habsent1 h)⟩⟩
  · unfold pruneForWrite
    simp only [hdrop, bind_eq_bind, bind_some, hprune]
    rcases hr : st.rows k with _ | r
    · simp only [isSome_none, Bool.false_eq_true, if_false, storedRow, hr, map_none]
      rw [withVersions_eq_setRow k, hr]
    · simp [storedRow, hr]
  · rwa [update_eq_self k pl]
  · exact hmoves1.tail (Move.prune _ st.snapshots.oldest (.inl rfl))
  · exact hreserved1
  · intro hobs
    obtain ⟨h, h'⟩ := hexp1 hobs
    exact ⟨h, hshort h'⟩
  · intro hold
    rw [hh2, hold]
    rfl

/-- **A write that stops after pruning** leaves the row pruned, or absent as it was. -/
theorem Abs.write_abort {h : List CommittedVersion} (hready : WriteReady st hl pl k txid vs row h) :
    ∃ hl' pl', (Abs (st.setRow k vs (st.storedRow k row)) hl' pl' ∧
      Changed st hl pl (st.setRow k vs (st.storedRow k row)) hl' pl' k (st.Moves k txid)) ∧
      pl' k = pl k := by
  unfold storedRow
  rcases hr : st.rows k with _ | r
  · have hh := hready.absent hr
    have hp := (habs.lists_none hr).2
    obtain ⟨hhe, hpe⟩ := rep_drop hready.rep hh hp (hready.reservation.1 hp)
    have hrep := hready.rep
    rw [hhe, hpe] at hrep
    refine ⟨_, _, habs.setRow_moves none hrep (fun x hx => by cases hx) ?_, update_self ..⟩
    simp only [image, hr]
    exact ReflTransGen.refl
  · exact ⟨_, _, habs.setRow_moves (some row) hready.rep
      (fun x hx => by cases hx; exact hready.reservation) hready.moves, update_self ..⟩

/-- What a write does to the pending list of its row: it adds its change, or fails and leaves the
list as it was. -/
def Appends (change : PendingChange) (result : Except SqlError PendingPublication)
    (before after : List PendingEntry) : Prop :=
  match result with
  | .ok (.written identity) => after = ⟨identity, change, false⟩ :: before
  | _ => after = before

/-- A row that is being written has room for the entry its commit will add. -/
lemma Abs.write_room {h : List CommittedVersion} (hready : WriteReady st hl pl k txid vs row h)
    (hlimit : ¬ (st.snapshots.oldest.isSome ∧ row.pending.len = 0 ∧ row.hasCommittedVersion ∧
      row.history.len = st.maxRowVersionsPerRow))
    (hmax : row.pending.len < st.maxRowVersionsPerRow) :
    h.length < st.maxRowVersionsPerRow := by
  have hwf := habs.moves_wf hready.moves _ rfl
  have hpos : 0 < st.maxRowVersionsPerRow := lt_of_le_of_lt zero_le hmax
  have hhlen : row.history.len = h.length := by simpa using hready.rep.committed.len k
  have hplen : row.pending.len = (pl k).length := by simpa using hready.rep.pending.len k
  by_cases hp : pl k = []
  · rcases hold : st.snapshots.oldest with _ | o
    · rw [hready.unread hold]
      exact hpos
    rcases hgen : row.committedGeneration with _ | g
    · have hnil : h = [] := (hwf.fresh hgen).2.2.1
      rw [hnil]
      exact hpos
    have hne : row.history.len ≠ st.maxRowVersionsPerRow := fun heq =>
      hlimit
        ⟨by simp [hold], by simp [hplen, hp], by simp [RowState.hasCommittedVersion, hgen], heq⟩
    have hle : h.length ≤ st.maxRowVersionsPerRow := hwf.bounded
    omega
  · exact hwf.room hp

/-- **`publish_pending_write` appends the change**, or stops with the row as pruned. -/
theorem Abs.appendPending_spec {change : PendingChange} {row : RowState}
    (hready : WriteReady st hl pl k change.txid vs row h)
    (hlimit : ¬ (st.snapshots.oldest.isSome ∧ row.pending.len = 0 ∧ row.hasCommittedVersion ∧
      row.history.len = st.maxRowVersionsPerRow))
    (hown : ∀ e ∈ pl k, e.change.txid = change.txid) :
    ∃ st' result hl' pl', (st.setRow k vs (st.storedRow k row)).appendPending k row change =
        some (st', result) ∧ Abs st' hl' pl' ∧
      Changed st hl pl st' hl' pl' k (st.Moves k change.txid) ∧
      Appends change result (pl k) (pl' k) ∧ ∃ vs' row', st' = st.setRow k vs' row' := by
  have habort : ∀ vs', WriteReady st hl pl k change.txid vs' row h →
      ∀ result, (∀ before, Appends change
      result before before) → ∃ st' result' hl' pl', (some
        (st.setRow k vs' (st.storedRow k row), result) :
          Option (Storage × Except SqlError PendingPublication)) = some (st', result') ∧
        Abs st' hl' pl' ∧ Changed st hl pl st' hl' pl' k (st.Moves k change.txid) ∧
        Appends change result' (pl k) (pl' k) ∧ ∃ vs' row', st' = st.setRow k vs' row' := by
    intro vs' hready' result hfails
    obtain ⟨hl', pl', ⟨habs', hchg⟩, hpl⟩ := habs.write_abort hready'
    exact ⟨_, result, hl', pl', rfl, habs', hchg, hpl ▸ hfails (pl k), _, _, rfl⟩
  have hversions : (st.setRow k vs (st.storedRow k row)).versions = vs := rfl
  have hmaximum : (st.setRow k vs (st.storedRow k row)).maxRowVersionsPerRow =
      st.maxRowVersionsPerRow :=
    rfl
  unfold appendPending
  rw [hversions, hmaximum]
  have hpush := hready.rep.pending.push k st.maxRowVersionsPerRow change
  rw [update_self] at hpush
  rcases hpush with ⟨e, herr⟩ | ⟨pool, slot, hok, hmax, hpend⟩
  · simp only [herr]
    exact habort vs hready (.error e) fun _ => rfl
  simp only [hok, bind_eq_bind, bind_some]
  set identity := vs.pendingRowVersions.nextIdentity + 1
  set x : PendingVersions := { row.pending with tail := some slot, len := row.pending.len + 1 }
    with hx
  set e : PendingEntry := ⟨identity, change, false⟩
  rw [update_idem, update_self, update_idem] at hpend
  have hplen : row.pending.len = (pl k).length := by simpa using hready.rep.pending.len k
  have hroom := habs.write_room hready hlimit hmax
  have hmoves : st.Moves k change.txid (st.image hl pl k)
      (some { row.image h (pl k) with pending := e :: pl k }) :=
    hready.moves.tail (Move.push _ e rfl hown hroom hready.expired)
  have hcomm : CommittedRep vs.committedRowVersions (update st.histories k row.history)
      (update st.pendings k x) (update hl k h) := by
    have h := hready.rep.committed.update_pending (k := k) (x := x) (by simp [hx])
    rwa [update_idem] at h
  split_ifs with hreserve
  · -- the first change of a committed row reserves the slot its commit will need
    obtain ⟨hmode, hfirst, hhas⟩ := hreserve
    have hpl : pl k = [] := length_eq_zero_iff.mp (by
      have : row.pending.len + 1 = 1 := hfirst
      omega)
    have hnone : x.historyReservation = .none := hready.reservation.1 hpl
    rcases hcomm.reserve (k := k) (by simp [hnone, PendingHistory.slot?]) with
      ⟨err, herr⟩ | ⟨cpool, reserved, hok', hcomm'⟩
    · -- no slot: take the change back
      have hrep' : Rep { vs with pendingRowVersions := pool } (update st.histories k row.history)
          (update
          st.pendings k x) (update hl k h) (update pl k (e :: pl k)) := ⟨hcomm, hpend⟩
      have hhead : update pl k (e :: pl k) k = e :: pl k := update_self ..
      obtain ⟨vs', y, hpop, hrep'', hy⟩ := hrep'.pop hhead
      rw [update_self] at hpop hy
      rw [update_idem, update_idem] at hrep''
      have hyempty : y = .empty := by
        simpa using hrep''.pending.handle_empty (k := k) (by simp [hpl]) (by simpa [hpl] using hy)
      have hrowempty : row.pending = .empty := by
        simpa using hready.rep.pending.handle_empty (k := k) (by simp [hpl])
          (by simpa using hready.reservation.1 hpl)
      simp only [herr, bind_some, hpop]
      refine habort vs' ⟨?_, hready.moves, hready.reservation, hready.expired, hready.unread,
        hready.absent⟩ _ fun _ => rfl
      rwa [hyempty, ← hrowempty] at hrep''
    · simp only [hok', bind_some, setRow_setRow]
      rw [update_self, update_idem] at hcomm'
      have hpend' := hpend.update_handle (k := k)
        (x := { x with historyReservation := .reserved reserved }) (by simp) (by simp)
      rw [update_idem] at hpend'
      have hrep' :
          Rep { vs with pendingRowVersions := pool, committedRowVersions := cpool } _ _ _ _ :=
        ⟨hcomm', hpend'⟩
      obtain ⟨habs', hchg⟩ := habs.setRow_moves
        (some { row with pending := { x with historyReservation := .reserved reserved } }) hrep'
        (fun r hr => by cases hr; exact ⟨by simp, fun _ _ _ => ⟨reserved, rfl⟩⟩) hmoves
      exact ⟨_, _, _, _, rfl, habs', hchg, update_self .., _, _, rfl⟩
  · simp only [setRow_setRow]
    have hrep' : Rep { vs with pendingRowVersions := pool } _ _ _ _ := ⟨hcomm, hpend⟩
    obtain ⟨habs', hchg⟩ := habs.setRow_moves (some { row with pending := x }) hrep' (fun r hr => by
        cases hr
        refine ⟨by simp, fun _ hhas hmode => ?_⟩
        have hne : pl k ≠ [] := by
          intro hpl
          refine hreserve ⟨hmode, ?_, hhas⟩
          simp [hplen, hpl]
        exact hready.reservation.2 hne hhas hmode) hmoves
    exact ⟨_, _, _, _, rfl, habs', hchg, update_self .., _, _, rfl⟩

omit habs in
/-- One change after another. -/
lemma Changed.trans {st'' : Storage} {hl' hl'' : RowKey → List CommittedVersion}
    {pl' pl'' : RowKey → List PendingEntry}
    (h : Changed st hl pl st' hl' pl' k (st.Moves k txid))
    (h' : Changed st' hl' pl' st'' hl'' pl'' k (st'.Moves k txid))
    (hcontext : st'.context k = st.context k) :
    Changed st hl pl st'' hl'' pl'' k (st.Moves k txid) := by
  refine ⟨h.row.trans ?_, fun a ha => (h'.frame a ha).trans (h.frame a ha), h.env.trans h'.env⟩
  have hrow := h'.row
  unfold Moves at hrow
  rwa [hcontext, h.env.snapshots] at hrow

/-- **`publish_pending_write`** makes moves of the writer on its row. -/
theorem Abs.publishPendingWrite_spec (req : WriteRequest)
    (hown : ∀ e ∈ pl req.key, e.change.txid = req.change.txid) :
    ∃ st' result hl' pl', st.publishPendingWrite req = some (st', result) ∧ (Abs st' hl' pl' ∧
        Changed st hl pl st' hl' pl' req.key (st.Moves req.key req.change.txid)) ∧
      Appends req.change result (pl req.key) (pl' req.key) := by
  obtain ⟨vs, row, h, hprune, hready⟩ := habs.pruneForWrite_spec req.key req.change.txid
  unfold publishPendingWrite
  have hstart : (st.rows req.key).getD (st.synthesize req.key) = st.startRow req.key := rfl
  simp only [hstart, hprune, bind_eq_bind, bind_some]
  split_ifs with hlimit
  · obtain ⟨hl', pl', h, hpl⟩ := habs.write_abort hready
    exact ⟨_, _, hl', pl', rfl, h, hpl⟩
  obtain ⟨st', result, hl', pl', happ, habs', hchg, hpl, vs', row', rfl⟩ :=
    habs.appendPending_spec hready hlimit hown
  simp only [happ]
  rcases result with err | (identity | _ | _ | err | ⟨owner, message⟩)
  case ok.written =>
    rcases hstat : req.statistics with _ | err
    · exact ⟨_, _, hl', pl', rfl, ⟨habs', hchg⟩, hpl⟩
    -- statistics failed: the change is taken back before its locks are released
    obtain ⟨st'', hl'', pl'', hrestore, ⟨habs'', hchg''⟩, hundone⟩ :=
      habs'.restorePending_undoes req.key req.change.txid identity
    exact ⟨st'', .error err, hl'', pl'', by simp [hrestore],
      ⟨habs'', hchg.trans hchg'' rfl⟩, hundone _ _ hpl rfl rfl⟩
  all_goals exact ⟨_, _, hl', pl', rfl, ⟨habs', hchg⟩, hpl⟩

/-- **A pending write** makes moves of the writer on its row, and adds its change to the pending
list exactly when it says so. -/
theorem Abs.writePending_appends (req : WriteRequest) :
    ∃ st' result hl' pl', st.writePending req = some (st', result) ∧ (Abs st' hl' pl' ∧
        Changed st hl pl st' hl' pl' req.key (st.Moves req.key req.change.txid)) ∧
      Appends req.change result (pl req.key) (pl' req.key) := by
  have hsame : ∀ result : Except SqlError PendingPublication,
    (∀ before, Appends req.change result before before) →
      ∃ st' result' hl' pl', (some (st, result) : Option (Storage × _)) = some (st', result') ∧
        (Abs st' hl' pl' ∧
          Changed st hl pl st' hl' pl' req.key (st.Moves req.key req.change.txid)) ∧
        Appends req.change result' (pl req.key) (pl' req.key) := fun result hfails =>
    ⟨st, result, hl, pl, rfl, habs.unchanged _ _, hfails _⟩
  unfold writePending
  rcases req.definitionOwner.filter fun owner => owner ≠ req.change.txid with _ | owner
  swap
  · exact hsame _ fun _ => rfl
  by_cases hheap : (!req.heapAccepts) = true
  · rw [if_pos hheap]
    exact hsame _ fun _ => rfl
  rw [if_neg hheap]
  simp only [habs.rowHead_eq, bind_eq_bind, bind_some]
  generalize hother : Option.filter (fun e => decide (e.change.txid ≠ req.change.txid))
    (pl req.key).head? = other
  cases other with
  | some e => exact hsame _ fun _ => rfl
  | none =>
  by_cases hfull : req.overlayFull = true
  · rw [if_pos hfull]
    exact hsame _ fun _ => rfl
  rw [if_neg hfull]
  refine habs.publishPendingWrite_spec req fun e he => ?_
  -- the head belongs to the writer, and one transaction owns the chain
  rcases hpl : pl req.key with _ | ⟨x, rest⟩
  · rw [hpl] at he
    cases he
  · have hx : x.change.txid = req.change.txid := by
      simpa [hpl, Option.filter] using hother
    exact (habs.pending_owner hpl he).trans hx

/-- The same, as a change of one row. -/
lemma Abs.writePending_spec (req : WriteRequest) :
    ∃ st' result hl' pl', st.writePending req = some (st', result) ∧ Abs st' hl' pl' ∧
      Changed st hl pl st' hl' pl' req.key (st.Moves req.key req.change.txid) := by
  obtain ⟨st', result, hl', pl', hop, h, -⟩ := habs.writePending_appends req
  exact ⟨st', result, hl', pl', hop, h⟩

/-! ## Committing -/

omit habs in
/-- Well-formedness looks at the layout only. -/
lemma wf_of_layout {c : RowContext} {i : RowImage} (h : i.WF c) {publication : TablePublication}
    (hfirst : publication.firstGeneration = c.publication.firstGeneration) :
    i.WF { c with publication } := by
  have hobs : i.obsolete { c with publication } = i.obsolete c := by
    unfold RowImage.obsolete; rw [hfirst]
  exact ⟨h.owner, h.bounded, h.room, h.fresh, hobs ▸ h.saved, hobs ▸ h.expired⟩

/-- A publication that keeps the layout. -/
lemma Abs.withPublication {publication : ℕ → TablePublication}
    (hfirst : ∀ t, (publication t).firstGeneration = (st.publication t).firstGeneration)
    (hgen : ∀ t, (st.publication t).generation ≤ (publication t).generation) :
    Abs { st with publication } hl pl := by
  refine ⟨habs.rep, habs.reservation, fun k i hi => ?_, fun t => ?_⟩
  · exact wf_of_layout (habs.wf k i hi) (hfirst k.table)
  · rw [hfirst t]
    exact (habs.layout t).trans (hgen t)

/-- The retention a commit applies. Source: the condition of `publish_prepared_row`. -/
def retains (st : Storage) (r : RowState) (txid : ℕ) (rewritten : Bool) : Bool :=
  !rewritten && st.snapshots.retainsFor txid && r.hasCommittedVersion

/-- **The retention branch of a commit.** -/
theorem Abs.retainForCommit_spec (hr : st.rows k = some r) (hpl : pl k ≠ []) (txid : ℕ)
    (rew : Bool) :
    ∃ vs r', st.retainForCommit r txid rew = some (.ok (vs, r')) ∧
      Rep vs (update st.histories k r'.history) (update st.pendings k r'.pending)
        (update hl k (if st.retains r txid rew then
          ⟨r.committed, r.committedLsn⟩ :: hl k else [])) pl := by
  change ∃ vs r', (if st.retains r txid rew = true then _ else _) = _ ∧ _
  by_cases hretain : st.retains r txid rew = true
  · rw [if_pos hretain]
    simp only [hretain, if_true]
    obtain ⟨⟨-, hreg⟩, hhas⟩ : ((!rew) ∧ st.snapshots.retainsFor txid) ∧ r.hasCommittedVersion := by
      simpa [retains, Bool.and_eq_true] using hretain
    have hmode : st.snapshots.transactionMode = .mvcc := by
      simp only [SnapshotState.retainsFor, Bool.and_eq_true, beq_iff_eq] at hreg
      exact hreg.1
    obtain ⟨slot, hslot⟩ := (habs.reservation k r hr).2 hpl hhas hmode
    have hroom : r.history.len < st.maxRowVersionsPerRow := by
      rw [habs.history_len hr]
      exact (habs.wf k _ (image_some hr)).room hpl
    obtain ⟨hh, hp⟩ := handles_some hr
    -- the reserved slot becomes the newest history entry
    let x : PendingVersions := { r.pending with historyReservation := .published }
    obtain ⟨cpool, hpub, hcomm⟩ :=
      habs.rep.committed.publishReserved (k := k) (hp ▸ hslot) (hh ▸ hroom)
      ⟨r.committed, r.committedLsn⟩ (x := x) rfl
    rw [hh] at hpub hcomm
    have hpend := habs.rep.pending.update_handle (k := k) (x := x) (by rw [hp]) (by rw [hp])
    refine ⟨⟨st.versions.pendingRowVersions, cpool, st.versions.historyPressureChanged ||
        decide (st.maxRowVersionsPerRow ≤ r.history.len + 1 + 2)⟩,
      { r with history := ⟨some slot, r.history.len + 1⟩, pending := x }, ?_, ⟨hcomm, hpend⟩⟩
    simp [retainCurrentRow, hslot, hpub, x]
  · rw [if_neg hretain]
    simp only [hretain]
    obtain ⟨vs, history, hprune, hrep, -⟩ := (habs.rep_some hr).pruneHistory none
    exact ⟨vs, { r with history }, by simp [hprune], hrep⟩

/-- A commit installs the image of the newest pending version, and then perhaps forgets a row that
holds only a deletion. -/
def Installs (st : Storage) (k : RowKey) (txid commitLsn : ℕ) (rewritten : Bool)
    (a b : Option RowImage) : Prop :=
  ∃ i, CommitMove (st.context k) st.snapshots txid commitLsn rewritten a (some i) ∧
    (b = some i ∨ i.Forgettable (st.context k) ∧ b = none)

/-- What a commit may do to the row it is about. -/
def Commits (st : Storage) (k : RowKey) (txid commitLsn : ℕ) (rewritten : Bool)
    (a b : Option RowImage) : Prop :=
  a = b ∨ st.Installs k txid commitLsn rewritten a b

/-- The storage after a row commit: the row is stored and the table's generation advances.
Source: the end of `publish_prepared_row`. -/
def storeCommitted (st : Storage) (k : RowKey) (txid : ℕ) (versions : RowVersionState)
    (row : Option RowState) : Storage :=
  { st.setRow k versions row with
    publication :=
      update st.publication k.table ((st.publication k.table).publishReservedGeneration txid) }

/-- **Storing the committed row** keeps the abstraction. -/
theorem Abs.storeCommitted_spec {lsn : ℕ} {rew : Bool} (row : Option RowState) {state : RowState}
    (hmove : CommitMove (st.context k) st.snapshots txid lsn rew (st.image hl pl k)
      (some (state.image h [])))
    (hreservation : state.pending.historyReservation = .none)
    (hrep : Rep vs (update st.histories k (row.elim .empty RowState.history))
      (update st.pendings k (row.elim .empty RowState.pending)) (update hl k h) (update pl k []))
    (hcase : row = some state ∨ (state.image h []).Forgettable (st.context k) ∧ row = none) :
    ∃ hl' pl', Abs (st.storeCommitted k txid vs row) hl' pl' ∧
      Changed st hl pl (st.storeCommitted k txid vs row) hl' pl' k
        (st.Installs k txid lsn rew) := by
  have hpub : ∀ t, (update st.publication k.table
      ((st.publication k.table).publishReservedGeneration txid) t).firstGeneration =
      (st.publication t).firstGeneration ∧ (st.publication t).generation ≤ (update st.publication
        k.table ((st.publication k.table).publishReservedGeneration txid) t).generation := by
    intro t
    by_cases ht : t = k.table
    · subst ht; simp [publishReservedGeneration]
    · simp [update_of_ne ht]
  have hstored : ∀ x, row = some x → x = state := by
    rintro x rfl
    rcases hcase with h | ⟨-, h⟩
    · exact some.inj h
    · cases h
  have hwf := hmove.wf (habs.wf k) _ rfl
  have habs' :=
    habs.setRow (k := k) hrep (fun x hx => hstored x hx ▸ ⟨fun _ => hreservation, fun hne =>
    absurd rfl hne⟩) (fun x hx => hstored x hx ▸ hwf)
  refine ⟨_, _, habs'.withPublication (fun t => (hpub t).1) fun t => (hpub t).2, ⟨⟨_, hmove, ?_⟩,
    fun a ha => image_setRow_ne ha vs row h [], ⟨rfl, rfl, rfl, fun t => (hpub t).1⟩⟩⟩
  have hself := @image_setRow_self st hl pl k vs row h []
  rcases hcase with rfl | ⟨hforget, rfl⟩
  · exact .inl hself
  · exact .inr ⟨hforget, hself⟩

/-- **The installation of a committed image.** -/
theorem Abs.installCommitted_spec (hr : st.rows k = some r) {e : PendingEntry}
    {rest : List PendingEntry} (hpl : pl k = e :: rest) (htxid : e.change.txid = txid) (lsn : ℕ)
    (rew deletionsIdle : Bool) {r' : RowState}
    (hrep : Rep vs (update st.histories k r'.history) (update st.pendings k r'.pending)
      (update hl k (if st.retains r txid rew then
        ⟨r.committed, r.committedLsn⟩ :: hl k else [])) pl) :
    ∃ st' hl' pl', st.installCommitted k vs r' txid lsn
        ((st.publication k.table).generation + 1) e.change.loc deletionsIdle = some st' ∧
      Abs st' hl' pl' ∧
      Changed st hl pl st' hl' pl' k (st.Installs k txid lsn rew) := by
  obtain ⟨vs', y, hclear, hrep', hy⟩ := hrep.clear k (fun h => by rw [hpl] at h; cases h)
  rw [update_self] at hclear
  rw [update_idem] at hrep'
  set h' := (if st.retains r txid rew then ⟨r.committed, r.committedLsn⟩ :: hl k else [])
  set state : RowState := ⟨e.change.loc.map .heap, lsn,
    some ((st.publication k.table).generation + 1), lsn, r'.history, y⟩ with hstate
  have hmove : CommitMove (st.context k) st.snapshots txid lsn rew
      (st.image hl pl k) (some (state.image h' [])) := by
    rw [image_some hr]
    exact CommitMove.commit _ e rest hpl htxid
  have hhlen : r'.history.len = h'.length := by simpa using hrep'.committed.len k
  unfold installCommitted
  simp only [hclear, bind_eq_bind, bind_some]
  rw [← hstate]
  by_cases hremove : (state.committed.isNone && (st.spillGenerations k.table).isEmpty &&
      state.history.len == 0 && deletionsIdle) = true
  · rw [if_pos hremove]
    simp only [Bool.and_eq_true, Option.isNone_iff_eq_none, List.isEmpty_iff, beq_iff_eq] at hremove
    obtain ⟨⟨⟨hcom, hspill⟩, hhist⟩, -⟩ := hremove
    have hh : h' = [] := length_eq_zero_iff.mp (hhlen.symm.trans hhist)
    obtain ⟨hhe, hpe⟩ := rep_drop hrep' hh rfl hy
    rw [hhe, hpe] at hrep'
    have hforget : (state.image h' []).Forgettable (st.context k) :=
      ⟨rfl, hh, .inr (.inr ⟨hcom, hspill⟩)⟩
    obtain ⟨hl', pl', habs', hchg⟩ :=
      habs.storeCommitted_spec none hmove hy hrep' (.inr ⟨hforget, rfl⟩)
    exact ⟨_, hl', pl', rfl, habs', hchg⟩
  · rw [if_neg hremove]
    obtain ⟨hl', pl', habs', hchg⟩ :=
      habs.storeCommitted_spec (some state) hmove hy hrep' (.inl rfl)
    exact ⟨_, hl', pl', rfl, habs', hchg⟩

/-- **A row commit** installs the newest image of its transaction, or changes nothing; and if it
changes nothing without an error, the row had no pending version of the transaction. -/
theorem Abs.publishRow_cases (k : RowKey) (txid lsn : ℕ) (context : CommitContext) :
    (∃ result, st.publishRow k txid lsn context = some (st, result) ∧
      (result = .ok () → ∀ e, (pl k).head? = some e → e.change.txid ≠ txid)) ∨
    ∃ st' hl' pl' e, st.publishRow k txid lsn context = some (st', .ok ()) ∧
      (pl k).head? = some e ∧ e.change.txid = txid ∧ Abs st' hl' pl' ∧
      Changed st hl pl st' hl' pl' k (st.Installs k txid lsn context.rewritten) := by
  unfold publishRow
  rcases hr : st.rows k with _ | r
  · refine .inl ⟨_, rfl, fun _ e he => ?_⟩
    rw [(habs.lists_none hr).2] at he
    cases he
  simp only [habs.pendingHead_eq hr, bind_eq_bind, bind_some]
  rcases hpl : pl k with _ | ⟨e, rest⟩
  · refine .inl ⟨_, rfl, fun _ e he => ?_⟩
    cases he
  simp only [head?_cons]
  by_cases htxid : e.change.txid = txid
  swap
  · rw [if_pos htxid]
    refine .inl ⟨_, rfl, fun _ x hx => ?_⟩
    cases hx
    exact htxid
  rw [if_neg (not_not.mpr htxid)]
  -- every failure leaves the storage as it is
  have herror : ∀ err : SqlError, ∃ result : Except SqlError Unit,
      (some (st, .error err) : Option (Storage × Except SqlError Unit)) = some (st, result) ∧
      (result = .ok () → ∀ x, some e = some x → x.change.txid ≠ txid) :=
    fun err => ⟨.error err, rfl, fun h => by cases h⟩
  by_cases hkeys : (!e.keysPrepared) = true
  · rw [if_pos hkeys]
    exact .inl (herror _)
  rw [if_neg hkeys]
  unfold publishPreparedRow
  rcases context.validation with err | _
  · exact .inl (herror _)
  rcases hgen : (st.publication k.table).previewReservedGeneration txid with err | generation
  · exact .inl (herror _)
  have hgeneration : generation = (st.publication k.table).generation + 1 := by
    unfold previewReservedGeneration at hgen
    split_ifs at hgen
    exact (Except.ok.inj hgen).symm
  obtain ⟨vs, r', hretain, hrep⟩ :=
    habs.retainForCommit_spec hr (by simp [hpl]) txid context.rewritten
  obtain ⟨st', hl', pl', hinstall, habs', hchg⟩ :=
    habs.installCommitted_spec hr hpl htxid lsn context.rewritten context.deletionsIdle hrep
  refine .inr ⟨st', hl', pl', e, ?_, rfl, htxid, habs', hchg⟩
  simp [hr, habs.pendingHead_eq hr, hpl, hretain, hgeneration, hinstall]

/-- The same, as a change of one row. -/
lemma Abs.publishRow_spec (k : RowKey) (txid lsn : ℕ) (context : CommitContext) :
    ∃ st' result hl' pl', st.publishRow k txid lsn context = some (st', result) ∧ Abs st' hl' pl' ∧
      Changed st hl pl st' hl' pl' k (st.Commits k txid lsn context.rewritten) := by
  rcases habs.publishRow_cases k txid lsn context with
    ⟨result, hop, -⟩ | ⟨st', hl', pl', e, hop, -, -, habs', hrow, hframe, henv⟩
  · exact ⟨st, result, hl, pl, hop, habs, ⟨.inl rfl, fun _ _ => rfl, SameEnv.refl st⟩⟩
  · exact ⟨st', .ok (), hl', pl', hop, habs', ⟨.inr hrow, hframe, henv⟩⟩

end

end Storage

end Pos3ql
