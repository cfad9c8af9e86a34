import Pos3ql.Storage.RowPublication
import Pos3ql.Storage.VersionChains

/-!
# Row images: one row, its chains as lists

The abstract model of a row: the fields of its state with the history and pending chains as lists
(`RowImage`), in the context its table fixes (`RowContext`). What can happen to one row is said
once, by two relations: `Move` (loading, pruning, writing, undoing, freezing keys, forgetting) and
`CommitMove`. Everything about snapshots is then proved here, on lists:

* `RowImage.WF` is kept by every move (`Move.wf`, `CommitMove.wf`);
* **`Move.committedRow_eq`** and **`CommitMove.committedRow_eq`**: a move leaves the committed row a
  registered snapshot sees as it was. No order of the history is assumed: the newest entry at or
  below the snapshot survives pruning because the oldest registered LSN is no larger, and a commit
  above the snapshot puts the image it replaces in front.

`Pos3ql.Storage.RowRefinement` proves that the storage operations make exactly such moves.
-/

namespace Pos3ql

open List Option

/-! ## Saved rows -/

variable {t rowid : ℕ} {v : SpillVersion} {members : List SpillMember}

lemma find?_eq_of_le {l : List SpillVersion} {s : ℕ} (hst : s ≤ t)
    (h : l.find? (fun v => decide (v.commitLsn ≤ t)) = some v) (hv : v.commitLsn ≤ s) :
    l.find? (fun v => decide (v.commitLsn ≤ s)) = some v := by
  induction l with
  | nil => simp at h
  | cons x l ih =>
    by_cases hx : x.commitLsn ≤ t
    · obtain rfl : x = v := by simpa [hx] using h
      simp [hv]
    · have hxs : ¬ x.commitLsn ≤ s := fun hxs => hx (hxs.trans hst)
      simp only [find?_cons, hx, hxs] at h ⊢
      exact ih h

lemma find?_eq_none_of_le {l : List SpillVersion} {s : ℕ} (hst : s ≤ t)
    (h : l.find? (fun v => decide (v.commitLsn ≤ t)) = none) :
    l.find? (fun v => decide (v.commitLsn ≤ s)) = none := by
  rw [find?_eq_none] at h ⊢
  intro v hv
  have := h v hv
  simp only [decide_eq_true_eq] at this ⊢
  omega

@[simp] lemma betterProbe_none_right (a : Option SpillVersion) : betterProbe a none = a := by
  cases a <;> rfl

@[simp] lemma betterProbe_none_left (p : Option SpillVersion) : betterProbe none p = p := by
  cases p <;> rfl

@[simp] lemma betterProbe_some_some (a p : SpillVersion) :
    betterProbe (some a) (some p) = if a.commitLsn ≤ p.commitLsn then some p else some a := rfl

lemma betterProbe_eq_some {a p : Option SpillVersion} (h : a ≠ none ∨ p ≠ none) :
    ∃ b, betterProbe a p = some b ∧ (∀ x, a = some x → x.commitLsn ≤ b.commitLsn) ∧
      ∀ x, p = some x → x.commitLsn ≤ b.commitLsn := by
  rcases p with _ | p <;> rcases a with _ | a
  · simp at h
  · exact ⟨a, by simp, by simp, by simp⟩
  · exact ⟨p, by simp, by simp, by simp⟩
  · by_cases hle : a.commitLsn ≤ p.commitLsn
    · exact ⟨p, by simp [hle], by simpa using hle, by simp⟩
    · exact ⟨a, by simp [hle], by simp, by simp; omega⟩

/-- The walk of `probe_spill_source` from a given best. -/
def probeFrom (rowid snapshot : ℕ) (members : List SpillMember) (best : Option SpillVersion) :
    Option SpillVersion :=
  members.foldl (fun best m =>
    betterProbe best ((m.versions rowid).find? fun v => decide (v.commitLsn ≤ snapshot))) best

@[simp] lemma probeFrom_cons (rowid snap : ℕ) (m : SpillMember) (members : List SpillMember)
    (best : Option SpillVersion) :
    probeFrom rowid snap (m :: members) best =
      probeFrom rowid snap members
        (betterProbe best ((m.versions rowid).find? fun v => decide (v.commitLsn ≤ snap))) := rfl

lemma probeFrom_some (rowid snap : ℕ) (members : List SpillMember) (b : SpillVersion) :
    ∃ v, probeFrom rowid snap members (some b) = some v ∧ b.commitLsn ≤ v.commitLsn := by
  induction members generalizing b with
  | nil => exact ⟨b, rfl, le_rfl⟩
  | cons m members ih =>
    obtain ⟨b', hb', hle, -⟩ := betterProbe_eq_some (a := some b)
      (p := (m.versions rowid).find? fun v => decide (v.commitLsn ≤ snap)) (.inl (by simp))
    obtain ⟨v, hv, hle'⟩ := ih b'
    exact ⟨v, by rw [probeFrom_cons, hb', hv], (hle b rfl).trans hle'⟩

/-- If the walk at `t` ends at a version the smaller snapshot `s` also admits, then every member
answers `s` and `t` alike, and the two walks agree. -/
lemma probeFrom_of_le {s : ℕ} (hst : s ≤ t) (hv : v.commitLsn ≤ s) {best : Option SpillVersion}
    (h : probeFrom rowid t members best = some v) :
    probeFrom rowid s members best = some v := by
  induction members generalizing best with
  | nil => exact h
  | cons m members ih =>
    rw [probeFrom_cons] at h ⊢
    rcases hp : (m.versions rowid).find? (fun v => decide (v.commitLsn ≤ t)) with _ | p
    · rw [hp] at h
      rw [find?_eq_none_of_le hst hp]
      exact ih h
    rw [hp] at h
    obtain ⟨b, hb, -, hle⟩ := betterProbe_eq_some (a := best) (p := some p) (.inr (by simp))
    rw [hb] at h
    obtain ⟨v', hv', hbv⟩ := probeFrom_some rowid t members b
    obtain rfl : v' = v := by simpa [hv'] using h
    rw [find?_eq_of_le hst hp (((hle p rfl).trans hbv).trans hv), hb]
    exact ih h

/-- **The newest saved version answers every snapshot at or above it.**
Source: `probe_spill_source`. -/
theorem probeSpillSource_of_le {s : ℕ} (hst : s ≤ t) (h : probeSpillSource members rowid t = some v)
    (hv : v.commitLsn ≤ s) :
    probeSpillSource members rowid s = some v :=
  probeFrom_of_le hst hv h

/-- A probe finds nothing above its snapshot. Source: `probe_spill_source`. -/
lemma probeSpillSource_le (h : probeSpillSource members rowid t = some v) : v.commitLsn ≤ t := by
  have hwalk : ∀ best : Option SpillVersion, (∀ b, best = some b → b.commitLsn ≤ t) →
      ∀ v, probeFrom rowid t members best = some v → v.commitLsn ≤ t := by
    clear h
    induction members with
    | nil =>
      intro best hbest v hv
      exact hbest v hv
    | cons m members ih =>
      intro best hbest v hv
      rw [probeFrom_cons] at hv
      refine ih _ (fun b hb => ?_) v hv
      rcases hp : (m.versions rowid).find? (fun v => decide (v.commitLsn ≤ t)) with _ | p
      · rw [hp] at hb
        exact hbest b hb
      have hle : p.commitLsn ≤ t := by simpa using find?_some hp
      rcases best with _ | a
      · rw [hp] at hb
        exact some.inj hb ▸ hle
      rw [hp, betterProbe_some_some] at hb
      split at hb
      · exact some.inj hb ▸ hle
      · exact hbest b hb
  exact hwalk none (fun b hb => by cases hb) v h

/-- A row with no saved version has none at any smaller snapshot.
Source: `probe_spill_source`. -/
lemma probeSpillSource_none_of_le {s : ℕ} (hst : s ≤ t)
    (h : probeSpillSource members rowid t = none) : probeSpillSource members rowid s = none := by
  change probeFrom rowid t members none = none at h
  change probeFrom rowid s members none = none
  induction members with
  | nil => rfl
  | cons m members ih =>
    rw [probeFrom_cons, betterProbe_none_left] at h ⊢
    rcases hp : (m.versions rowid).find? (fun v => decide (v.commitLsn ≤ t)) with _ | p
    · rw [hp] at h
      rw [find?_eq_none_of_le hst hp]
      exact ih h
    · obtain ⟨v, hv, -⟩ := probeFrom_some rowid t members p
      rw [hp, hv] at h
      cases h

/-! ## Images and their context -/

/-- A row with its chains as lists. Source: `RowState` with `CapturedRowMetadata`. -/
structure RowImage where
  committed : Option RowHome
  committedLsn : ℕ
  committedGeneration : Option ℕ
  checkpointChangeLsn : ℕ
  history : List CommittedVersion
  pending : List PendingEntry
  deriving DecidableEq, Repr

/-- What a row's table fixes while the row moves. -/
structure RowContext where
  publication : TablePublication
  members : List SpillMember
  rowid : ℕ
  /-- `max_row_versions_per_row`. -/
  maximum : ℕ

namespace RowImage

/-- Source: `RowState::has_committed_version`. -/
def hasCommittedVersion (i : RowImage) : Bool := i.committedGeneration.isSome

/-- Source: `RowLayout::obsolete`. -/
def obsolete (c : RowContext) (i : RowImage) : Bool :=
  i.committedGeneration.any fun generation => generation < c.publication.firstGeneration

/-- The images readers may use. Source: `RowLayout::visible_state`. -/
def visible (c : RowContext) (i : RowImage) : Option RowHome × List CommittedVersion :=
  if i.obsolete c then (none, []) else (i.committed, i.history)

/-- Source: the `filter` of `prune_committed_history`. -/
def oldestNeeding (i : RowImage) (oldestSnapshot : Option ℕ) : Option ℕ :=
  oldestSnapshot.filter fun snapshot =>
    !i.hasCommittedVersion || decide (snapshot < i.committedLsn)

end RowImage

namespace RowContext

variable (c : RowContext)

/-- The saved version current at the last LSN. -/
def newestSaved : Option SpillVersion := probeSpillSource c.members c.rowid u64Max

/-- Source: `lookup_owned_objects`. -/
def savedAt (s : ℕ) : Option VisibleRow :=
  (probeSpillSource c.members c.rowid s).bind fun v =>
    v.home.map fun home => ⟨.committed v.commitLsn, home⟩

/-- The image a write starts from when the row is not resident. -/
def loaded : RowImage :=
  match c.newestSaved with
  | some v => ⟨v.home, v.commitLsn, some c.publication.generation, 0, [], []⟩
  | none => ⟨none, 0, none, 0, [], []⟩

/-- What a committed-only reader sees in a resident row. -/
def committedView (i : RowImage) (s : ℕ) : Option VisibleRow :=
  if i.committedLsn ≤ s then
    (i.visible c).1.map fun home => ⟨.committed i.committedLsn, home⟩
  else
    match (i.visible c).2.find? fun v => decide (v.lsn ≤ s) with
    | some v => v.home.map fun home => ⟨.committed v.lsn, home⟩
    | none => c.savedAt s

/-- **What transaction `txid` sees** in a row at a command and a commit snapshot.
Source: `visible_row_home_at`, on lists. -/
def view (row : Option RowImage) (txid commandSnapshot s : ℕ) : Option VisibleRow :=
  match row with
  | none => c.savedAt s
  | some i =>
    match i.pending.find? fun e =>
        e.change.txid == txid && decide (e.change.cid < commandSnapshot) with
    | some e => e.change.loc.map fun loc => ⟨.pending e.identity, .heap loc⟩
    | none => c.committedView i s

end RowContext

/-- **The invariant of one row.** -/
structure RowImage.WF (c : RowContext) (i : RowImage) : Prop where
  /-- One transaction owns the pending chain. -/
  owner : ∀ e ∈ i.pending, ∀ e' ∈ i.pending, e.change.txid = e'.change.txid
  /-- History respects the limit. -/
  bounded : i.history.length ≤ c.maximum
  /-- A row being written has room for one more history entry. -/
  room : i.pending ≠ [] → i.history.length < c.maximum
  /-- A row that was never committed has nothing to show and nothing saved. -/
  fresh : i.committedGeneration = none →
    i.committed = none ∧ i.committedLsn = 0 ∧ i.history = [] ∧ c.newestSaved = none
  /-- A saved image that no later change covers is the newest saved version, in the current
  layout. -/
  saved : i.checkpointChangeLsn = 0 → ∀ home, i.committed = some home → home.isHeap = false →
    i.obsolete c = false ∧
      ∃ v, c.newestSaved = some v ∧ v.home = some home ∧ v.commitLsn = i.committedLsn
  /-- A row of an old layout that is being written shows nothing. -/
  expired : i.obsolete c = true → i.pending ≠ [] → i.committed = none ∧ i.history = []

/-! ## Moves -/

/-- The row may be dropped from the overlay: its saved image, or its absence, says the same.
Source: the removals in `restore_pending_locked`, `publish_prepared_row`, `prune_snapshot_cell`
and `clean_row_slots`. -/
def RowImage.Forgettable (c : RowContext) (i : RowImage) : Prop :=
  i.pending = [] ∧ i.history = [] ∧ (i.committedGeneration = none ∨
      (i.checkpointChangeLsn = 0 ∧ ∃ home, i.committed = some home ∧ home.isHeap = false) ∨
      (i.committed = none ∧ c.members = []))

/-- **What a transaction, or the cleaner, can do to one row short of committing it.** -/
inductive Move (c : RowContext) (snapshots : SnapshotState) (txid : ℕ) :
    Option RowImage → Option RowImage → Prop
  /-- Bring a saved or absent row into the overlay. -/
  | load : Move c snapshots txid none (some c.loaded)
  /-- Drop the images of an old layout. -/
  | expire (i : RowImage) : i.obsolete c = true →
      Move c snapshots txid (some i) (some { i with committed := none, history := [] })
  /-- Prune for the oldest registered snapshot, or entirely if the layout is old. -/
  | prune (i : RowImage) (o : Option ℕ) : o = snapshots.oldest ∨ i.obsolete c = true →
      Move c snapshots txid (some i)
        (some { i with history := prunedHistory (i.oldestNeeding o) i.history })
  /-- Write a command's image. -/
  | push (i : RowImage) (e : PendingEntry) : e.change.txid = txid →
      (∀ e' ∈ i.pending, e'.change.txid = txid) → i.history.length < c.maximum →
      (i.obsolete c = true → i.committed = none ∧ i.history = []) →
      Move c snapshots txid (some i) (some { i with pending := e :: i.pending })
  /-- Undo the newest command's image. -/
  | pop (i : RowImage) (e : PendingEntry) (rest : List PendingEntry) : i.pending = e :: rest →
      e.change.txid = txid → Move c snapshots txid (some i) (some { i with pending := rest })
  /-- Freeze the index keys of the newest image. -/
  | freeze (i : RowImage) (e : PendingEntry) (rest : List PendingEntry) : i.pending = e :: rest →
      e.change.txid = txid → Move c snapshots txid (some i)
        (some { i with pending := { e with keysPrepared := true } :: rest })
  /-- Drop the row from the overlay. -/
  | forget (i : RowImage) : i.Forgettable c → Move c snapshots txid (some i) none

/-- The image a commit installs. Source: `publish_prepared_row`. -/
def RowImage.commit (c : RowContext) (i : RowImage) (retain : Bool) (loc : Option RowLoc)
    (commitLsn : ℕ) : RowImage where
  committed := loc.map .heap
  committedLsn := commitLsn
  committedGeneration := some (c.publication.generation + 1)
  checkpointChangeLsn := commitLsn
  history := if retain then ⟨i.committed, i.committedLsn⟩ :: i.history else []
  pending := []

/-- **What a commit does to one row.** -/
inductive CommitMove (c : RowContext) (snapshots : SnapshotState) (txid commitLsn : ℕ)
    (rewritten : Bool) : Option RowImage → Option RowImage → Prop
  | commit (i : RowImage) (e : PendingEntry) (rest : List PendingEntry) : i.pending = e :: rest →
      e.change.txid = txid →
      CommitMove c snapshots txid commitLsn rewritten (some i)
        (some (i.commit c (!rewritten && snapshots.retainsFor txid && i.hasCommittedVersion)
          e.change.loc commitLsn))

section Invariant

variable {c : RowContext} {snapshots : SnapshotState} {txid commitLsn : ℕ} {rew : Bool}
  {a b : Option RowImage}

lemma prunedHistory_length_le (o : Option ℕ) (h : List CommittedVersion) :
    (prunedHistory o h).length ≤ h.length := by
  cases o with
  | none => exact zero_le
  | some o => exact keepThrough_length_le _ h

lemma RowContext.loaded_wf (hgen : c.publication.firstGeneration ≤ c.publication.generation) :
    c.loaded.WF c := by
  unfold RowContext.loaded
  rcases hv : c.newestSaved with _ | v
  · exact ⟨by simp, by simp, by simp, by simp [hv], by simp, by simp⟩
  · refine ⟨by simp, by simp, by simp, by simp, fun _ home hhome _ => ⟨?_, v, hv, hhome, rfl⟩,
      by simp⟩
    simp [RowImage.obsolete, hgen]

/-- **A move keeps the invariant.** One case per move. -/
theorem Move.wf (hgen : c.publication.firstGeneration ≤ c.publication.generation)
    (hmove : Move c snapshots txid a b) (ha : ∀ i, a = some i → i.WF c) :
    ∀ j, b = some j → j.WF c := by
  intro j hj
  cases hmove with
  | load =>
    cases hj
    exact RowContext.loaded_wf hgen
  | expire i hobs =>
    cases hj
    have hi := ha i rfl
    refine ⟨hi.owner, zero_le, fun hp => ?_, fun hg => ?_, by simp, fun _ _ => ⟨rfl, rfl⟩⟩
    · exact lt_of_le_of_lt zero_le (hi.room hp)
    · exact ⟨rfl, (hi.fresh hg).2.1, rfl, (hi.fresh hg).2.2.2⟩
  | prune i o ho =>
    cases hj
    have hi := ha i rfl
    have hlen := prunedHistory_length_le (i.oldestNeeding o) i.history
    have hnil : i.history = [] → prunedHistory (i.oldestNeeding o) i.history = [] := by
      intro h
      rw [h] at hlen ⊢
      exact length_eq_zero_iff.mp (Nat.le_zero.mp hlen)
    refine ⟨hi.owner, hlen.trans hi.bounded, fun hp => hlen.trans_lt (hi.room hp),
      fun hg => ?_, hi.saved, fun hobs hp => ?_⟩
    · obtain ⟨h1, h2, h3, h4⟩ := hi.fresh hg
      exact ⟨h1, h2, hnil h3, h4⟩
    · obtain ⟨h1, h2⟩ := hi.expired hobs hp
      exact ⟨h1, hnil h2⟩
  | push i e he hown hroom hexp =>
    cases hj
    have hi := ha i rfl
    have hall : ∀ e' ∈ e :: i.pending, e'.change.txid = txid := forall_mem_cons.mpr ⟨he, hown⟩
    exact ⟨fun x hx y hy => (hall x hx).trans (hall y hy).symm, hi.bounded, fun _ => hroom,
      hi.fresh, hi.saved, fun hobs _ => hexp hobs⟩
  | pop i e rest hp he =>
    cases hj
    have hi := ha i rfl
    have hsub : ∀ x ∈ rest, x ∈ i.pending := fun x hx => by
      rw [hp]; exact mem_cons_of_mem _ hx
    have hne : i.pending ≠ [] := by simp [hp]
    exact ⟨fun x hx y hy => hi.owner x (hsub x hx) y (hsub y hy), hi.bounded,
      fun _ => hi.room hne, hi.fresh, hi.saved, fun hobs _ => hi.expired hobs hne⟩
  | freeze i e rest hp he =>
    cases hj
    have hi := ha i rfl
    have hne : i.pending ≠ [] := by simp [hp]
    have hall : ∀ x ∈ { e with keysPrepared := true } :: rest, x.change.txid = e.change.txid :=
      forall_mem_cons.mpr ⟨rfl, fun x hx => hi.owner x (by simp [hp, hx]) e (by simp [hp])⟩
    exact ⟨fun x hx y hy => (hall x hx).trans (hall y hy).symm, hi.bounded, fun _ => hi.room hne,
      hi.fresh, hi.saved, fun hobs _ => hi.expired hobs hne⟩
  | forget i hf => cases hj

/-- **A commit keeps the invariant.** -/
theorem CommitMove.wf (hmove : CommitMove c snapshots txid commitLsn rew a b)
    (ha : ∀ i, a = some i → i.WF c) : ∀ j, b = some j → j.WF c := by
  intro j hj
  cases hmove with
  | commit i e rest hp he =>
    cases hj
    have hi := ha i rfl
    have hroom := hi.room (by simp [hp])
    refine ⟨by simp [RowImage.commit], ?_, by simp [RowImage.commit], by simp [RowImage.commit],
      fun _ home hhome hheap => ?_, by simp [RowImage.commit]⟩
    · unfold RowImage.commit
      split_ifs
      · exact hroom
      · exact zero_le
    · -- a committed image starts on the heap
      obtain ⟨loc, -, rfl⟩ := map_eq_some_iff.mp hhome
      cases hheap

end Invariant

/-! ## What a registered snapshot sees -/

section Stability

variable {c : RowContext} {snapshots : SnapshotState} {txid reader s : ℕ} {a b : Option RowImage}

/-- The newest entry at or below `s` survives pruning at any `o ≤ s`: the walk keeps everything
up to the first entry at or below `o`. -/
lemma find?_keepThrough {o : ℕ} (ho : o ≤ s) (h : List CommittedVersion) :
    (keepThrough (fun v => decide (v.lsn ≤ o)) h).find? (fun v => decide (v.lsn ≤ s)) =
      h.find? fun v => decide (v.lsn ≤ s) := by
  induction h with
  | nil => rfl
  | cons v h ih =>
    by_cases hv : v.lsn ≤ o
    · simp [keepThrough, hv, hv.trans ho]
    · simp [keepThrough, hv, find?_cons, ih]

variable {i : RowImage} {lsn : ℕ}

/-- Pruning for the oldest snapshot does not change what a later one sees, nor what a snapshot at or
above the current version sees. Source: `prune_committed_history`. -/
lemma RowImage.committedView_prune {o : Option ℕ}
    (ho : (∃ oldest, o = some oldest ∧ oldest ≤ s) ∨ i.committedLsn ≤ s ∨ i.obsolete c) :
    c.committedView { i with history := prunedHistory (i.oldestNeeding o) i.history } s =
      c.committedView i s := by
  have hobs : RowImage.obsolete c { i with
      history := prunedHistory (i.oldestNeeding o) i.history } = i.obsolete c := rfl
  unfold RowContext.committedView RowImage.visible
  rw [hobs]
  by_cases hlsn : i.committedLsn ≤ s
  · split_ifs <;> rfl
  simp only [hlsn, if_false]
  by_cases hold : i.obsolete c = true
  · simp [hold]
  obtain ⟨oldest, rfl, hle⟩ := ho.resolve_right (not_or.mpr ⟨hlsn, hold⟩)
  -- the current version is newer than the snapshot, hence newer than the oldest one
  have hneed : i.oldestNeeding (some oldest) = some oldest := by
    have : oldest < i.committedLsn := by omega
    simp [RowImage.oldestNeeding, this]
  simp only [hold, hneed, prunedHistory, find?_keepThrough hle, Bool.false_eq_true, if_false]

lemma RowContext.committedView_loaded (hs : s ≤ u64Max)
    (hgen : c.publication.firstGeneration ≤ c.publication.generation) :
    c.committedView c.loaded s = c.savedAt s := by
  unfold RowContext.loaded
  rcases hv : c.newestSaved with _ | v
  · have hprobe : probeSpillSource c.members c.rowid s = none :=
      probeSpillSource_none_of_le hs hv
    simp [RowContext.committedView, RowImage.visible, RowContext.savedAt, hprobe]
  have hobs : RowImage.obsolete c
      ⟨v.home, v.commitLsn, some c.publication.generation, 0, [], []⟩ = false := by
    simp [RowImage.obsolete, hgen]
  by_cases hle : v.commitLsn ≤ s
  · have hprobe := probeSpillSource_of_le hs hv hle
    simp [RowContext.committedView, RowImage.visible, hobs, hle, RowContext.savedAt, hprobe]
  · simp [RowContext.committedView, RowImage.visible, hobs, hle]

lemma RowImage.Forgettable.committedView (h : i.Forgettable c) (hi : i.WF c)
    (hs : s ≤ u64Max) : c.committedView i s = c.savedAt s := by
  obtain ⟨-, hhist, hcase⟩ := h
  rcases hcase with hgen | ⟨hcp, home, hhome, hheap⟩ | ⟨hcom, hmem⟩
  · obtain ⟨hcom, hlsn, -, hsaved⟩ := hi.fresh hgen
    have hprobe : probeSpillSource c.members c.rowid s = none :=
      probeSpillSource_none_of_le hs hsaved
    simp [RowContext.committedView, RowImage.visible, RowImage.obsolete, hgen, hcom, hlsn,
      RowContext.savedAt, hprobe]
  · obtain ⟨hobs, v, hv, hvhome, hvlsn⟩ := hi.saved hcp home hhome hheap
    by_cases hle : v.commitLsn ≤ s
    · have hprobe := probeSpillSource_of_le hs hv hle
      simp [RowContext.committedView, RowImage.visible, hobs, ← hvlsn, hle, RowContext.savedAt,
        hprobe, hvhome, hhome]
    · simp [RowContext.committedView, RowImage.visible, hobs, ← hvlsn, hle, hhist]
  · have hprobe : probeSpillSource c.members c.rowid s = none := by rw [hmem]; rfl
    simp [RowContext.committedView, RowImage.visible, hcom, hhist, RowContext.savedAt, hprobe]

/-- What every transaction without a pending version of its own sees in a row. -/
def RowContext.committedRow (c : RowContext) (row : Option RowImage) (s : ℕ) : Option VisibleRow :=
  match row with
  | none => c.savedAt s
  | some i => c.committedView i s

/-- Nobody but others writes the row. -/
def NotPending (reader : ℕ) (row : Option RowImage) : Prop :=
  ∀ i, row = some i → ∀ e ∈ i.pending, e.change.txid ≠ reader

lemma NotPending.view_eq (h : NotPending reader a) (cs : ℕ) :
    c.view a reader cs s = c.committedRow a s := by
  rcases a with _ | i
  · rfl
  have hnone : (i.pending.find? fun e =>
      e.change.txid == reader && decide (e.change.cid < cs)) = none := by
    rw [find?_eq_none]
    intro e he
    simp [h i rfl e he]
  simp only [RowContext.view, hnone, RowContext.committedRow]

section

variable (hmove : Move c snapshots txid a b)
include hmove

/-- A move of another transaction leaves the reader without pending versions. -/
lemma Move.notPending (hne : txid ≠ reader) (ha : NotPending reader a) : NotPending reader b := by
  intro j hj e he
  cases hmove with
  | load =>
    cases hj
    unfold RowContext.loaded at he
    split at he <;> cases he
  | expire i _ | prune i _ _ => cases hj; exact ha i rfl e he
  | push i x hx hown hroom hexp =>
    cases hj
    rcases mem_cons.mp he with rfl | he
    · exact fun h => hne (hx.symm.trans h)
    · exact ha i rfl e he
  | pop i x rest hp hx =>
    cases hj
    exact ha i rfl e (hp ▸ mem_cons_of_mem _ he)
  | freeze i x rest hp hx =>
    cases hj
    rcases mem_cons.mp he with rfl | he
    · exact fun h => hne (hx.symm.trans h)
    · exact ha i rfl e (hp ▸ mem_cons_of_mem _ he)
  | forget i hf => cases hj

/-- **No move changes what a retained snapshot sees**: one at or above the oldest registered LSN, or
at or above the row's current version. One case per move. -/
theorem Move.committedRow_eq (hwf : ∀ i, a = some i → i.WF c)
    (hgen : c.publication.firstGeneration ≤ c.publication.generation) (hs : s ≤ u64Max)
    (hkept : (∃ oldest, snapshots.oldest = some oldest ∧ oldest ≤ s) ∨
      ∀ i, a = some i → i.committedLsn ≤ s) :
    c.committedRow b s = c.committedRow a s := by
  cases hmove with
  | load => exact RowContext.committedView_loaded hs hgen
  | expire i hobs =>
    have hobs' : RowImage.obsolete c { i with committed := none, history := [] } := hobs
    simp [RowContext.committedRow, RowContext.committedView, RowImage.visible, hobs]
  | prune i o ho =>
    refine RowImage.committedView_prune ?_
    rcases ho with rfl | hobs
    · exact hkept.imp_right fun h => .inl (h i rfl)
    · exact .inr (.inr hobs)
  | push i e he hown hroom hexp => rfl
  | pop i e rest hp he => rfl
  | freeze i e rest hp he => rfl
  | forget i hf => exact (hf.committedView (hwf i rfl) hs).symm

/-- Short of a commit, a row's current version only ever becomes the saved one. -/
lemma Move.committedLsn_le (ha : ∀ i, a = some i → i.committedLsn ≤ s)
    (hsaved : ∀ v, c.newestSaved = some v → v.commitLsn ≤ s) :
    ∀ j, b = some j → j.committedLsn ≤ s := by
  intro j hj
  cases hmove with
  | load =>
    cases hj
    unfold RowContext.loaded
    rcases hv : c.newestSaved with _ | v
    · exact Nat.zero_le s
    · exact hsaved v hv
  | expire i _ | prune i _ _ | push i _ _ _ _ _ | pop i _ _ _ _ | freeze i _ _ _ _ =>
    obtain rfl := some.inj hj; exact ha i rfl
  | forget i hf => cases hj

end

/-- What a snapshot below a retaining commit sees afterwards is what it saw before. -/
lemma RowImage.committedView_commit_retain (hi : i.WF c) (hp : i.pending ≠ [])
    (hgen : c.publication.firstGeneration ≤ c.publication.generation) (hlt : s < lsn)
    (loc : Option RowLoc) :
    c.committedView (i.commit c true loc lsn) s = c.committedView i s := by
  have hobs' : RowImage.obsolete c (i.commit c true loc lsn) = false := by
    simp [RowImage.obsolete, RowImage.commit]
    omega
  have hnot : ¬ (i.commit c true loc lsn).committedLsn ≤ s := by
    simp [RowImage.commit, hlt]
  rw [RowContext.committedView, if_neg hnot]
  simp only [RowImage.visible, hobs', Bool.false_eq_true, if_false]
  by_cases hobs : i.obsolete c = true
  · -- a written row of an old layout keeps a deletion as its only history entry
    obtain ⟨hcom, hhist⟩ := hi.expired hobs hp
    by_cases hle : i.committedLsn ≤ s
    · simp [RowImage.commit, RowContext.committedView, RowImage.visible, hobs, hcom, hhist, hle]
    · simp [RowImage.commit, RowContext.committedView, RowImage.visible, hobs, hcom, hhist, hle]
  · by_cases hle : i.committedLsn ≤ s
    · simp [RowImage.commit, RowContext.committedView, RowImage.visible, hobs, hle]
    · simp [RowImage.commit, RowContext.committedView, RowImage.visible, hobs, hle]

lemma RowImage.committedView_commit_fresh (hi : i.WF c) (hfresh : i.committedGeneration = none)
    (hs : s ≤ u64Max) (hlt : s < lsn) (loc : Option RowLoc) :
    c.committedView (i.commit c false loc lsn) s =
      c.committedView i s := by
  obtain ⟨hcom, hlsn, hhist, hsaved⟩ := hi.fresh hfresh
  have hprobe : probeSpillSource c.members c.rowid s = none :=
    probeSpillSource_none_of_le hs hsaved
  have hnot : ¬ (i.commit c false loc lsn).committedLsn ≤ s := by
    simp [RowImage.commit, hlt]
  have hempty : ((i.commit c false loc lsn).visible c).2 = [] := by
    unfold RowImage.visible
    split_ifs <;> rfl
  rw [RowContext.committedView, if_neg hnot, hempty]
  simp [RowContext.committedView, RowImage.visible, RowImage.obsolete, hfresh, hcom, hlsn,
    RowContext.savedAt, hprobe]

lemma RowImage.committedView_commit_ge (i : RowImage) (retain : Bool)
    (hgen : c.publication.firstGeneration ≤ c.publication.generation) (hle : lsn ≤ s)
    (loc : Option RowLoc) :
    c.committedView (i.commit c retain loc lsn) s =
      loc.map fun loc => ⟨.committed lsn, .heap loc⟩ := by
  have hobs : RowImage.obsolete c (i.commit c retain loc lsn) = false := by
    simp [RowImage.obsolete, RowImage.commit]
    omega
  have hle' : (i.commit c retain loc lsn).committedLsn ≤ s := hle
  rw [RowContext.committedView, if_pos hle', RowImage.visible, hobs]
  cases loc <;> rfl

/-- **A commit above a snapshot that history is kept for does not change what the snapshot sees**,
unless it rewrites the table. -/
theorem CommitMove.committedRow_eq (hmove : CommitMove c snapshots txid lsn false a b)
    (hwf : ∀ i, a = some i → i.WF c)
    (hgen : c.publication.firstGeneration ≤ c.publication.generation) (hs : s ≤ u64Max)
    (hretain : snapshots.retainsFor txid) (hlt : s < lsn) :
    c.committedRow b s = c.committedRow a s := by
  cases hmove with
  | commit i e rest hp he =>
    unfold RowContext.committedRow
    have hi := hwf i rfl
    rw [hretain]
    rcases hhas : i.committedGeneration with _ | g
    · simpa [RowImage.hasCommittedVersion, hhas] using
        RowImage.committedView_commit_fresh hi hhas hs hlt e.change.loc
    · simpa [RowImage.hasCommittedVersion, hhas] using
        RowImage.committedView_commit_retain hi (by simp [hp]) hgen hlt e.change.loc

lemma CommitMove.committedLsn_eq {commitLsn : ℕ} {rew : Bool} {j : RowImage}
    (hmove : CommitMove c snapshots txid commitLsn rew a (some j)) :
    j.committedLsn = commitLsn := by
  cases hmove with
  | commit i e rest hp he => rfl

/-- **A snapshot at or above a commit sees the newest pending image.** -/
theorem CommitMove.committedRow_ge {rew : Bool} (hmove : CommitMove c snapshots txid lsn rew a b)
    (hgen : c.publication.firstGeneration ≤ c.publication.generation) (hle : lsn ≤ s) :
    ∃ i, a = some i ∧ ∀ e, i.pending.head? = some e → c.committedRow b s =
      e.change.loc.map fun loc => ⟨.committed lsn, .heap loc⟩ := by
  cases hmove with
  | commit i e rest hp he =>
    refine ⟨i, rfl, fun x hx => ?_⟩
    rw [hp] at hx
    cases hx
    exact RowImage.committedView_commit_ge i _ hgen hle _

lemma CommitMove.notPending {rew : Bool} (hmove : CommitMove c snapshots txid lsn rew a b)
    (reader : ℕ) :
    NotPending reader b := by
  intro j hj x hx
  cases hmove with
  | commit i e rest hp he =>
    cases hj
    cases hx

end Stability

end Pos3ql
