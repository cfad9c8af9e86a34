import Pos3ql.Storage.RowPublication

/-!
# Captured rows

A point read copies the version chains of its row into arrays of its own (`capture`) and selects a
version from the copy once the chains are unlocked. The copy selects what the walk over the live
chains selects (`captured_reads_like_live`).

Left out: the pool that lends the arrays, and the heap and object sources pinned beside them.
Source: `storage/row_reads.rs`.
-/

namespace Pos3ql

open Foundation SlotPool

/-- The copied chains of a row, newest first. Source: `CapturedRowMetadata`. -/
structure CapturedRowMetadata where
  pending : FixedVec (ℕ × PendingChange)
  history : FixedVec CommittedVersion

section Chain

variable {α β : Type} {p : SlotPool α} {f : α → β} {image image' : FixedVec β}

/-- Push every entry of a chain; the inner `none` is a full array.
Source: the `while` loops of `capture`. -/
def captureChain (p : SlotPool α) (f : α → β) :
    ℕ → Option ℕ → FixedVec β → Option (Option (FixedVec β))
  | _, none, image => some (some image)
  | 0, some _, _ => none
  | fuel + 1, some i, image => do
      let s ← p.slots[i]?
      match image.push (f s.value) with
      | none => some none
      | some image => captureChain p f fuel s.previous image

/-- A loop that ends has walked a linked chain and copied it. Induction on the fuel. -/
lemma captureChain_ok {fuel : ℕ} {t : Option ℕ}
    (h : captureChain p f fuel t image = some (some image')) :
    ∃ cells, p.Linked t cells ∧ image'.items = image.items ++ (p.read cells).map f := by
  induction fuel generalizing t image with
  | zero =>
    cases t with
    | none =>
      cases h
      exact ⟨[], .nil, by simp⟩
    | some i => cases h
  | succ fuel ih =>
    cases t with
    | none =>
      cases h
      exact ⟨[], .nil, by simp⟩
    | some i =>
      obtain ⟨s, hs, h⟩ := Option.bind_eq_some_iff.mp h
      rcases hpush : image.push (f s.value) with _ | pushed
      · simp [hpush] at h
      simp only [hpush] at h
      obtain ⟨cells, hlink, hitems⟩ := ih h
      refine ⟨i :: cells, .cons hs hlink, ?_⟩
      rw [hitems, FixedVec.push_items hpush, read_cons hs]
      simp

end Chain

/-- Source: `capture`, with `maximum` for `max_row_versions_per_row`. -/
def capture (versions : RowVersionState) (state : RowState) (maximum : ℕ) :
    Option (Except SqlError CapturedRowMetadata) := do
  let capacity : SqlError :=
    ⟨.programLimitExceeded, "retained row metadata exceeds max_row_versions_per_row"⟩
  let pool := versions.pendingRowVersions.pool
  match ← captureChain pool (fun e => (e.identity, e.change)) pool.slots.length
      state.pending.tail (.empty maximum) with
  | none => some (.error capacity)
  | some pending =>
    let pool := versions.committedRowVersions.pool
    match ← captureChain pool id pool.slots.length state.history.tail (.empty maximum) with
    | none => some (.error capacity)
    | some history => some (.ok ⟨pending, history⟩)

/-- Source: `visible_version_at`, of a retained row. -/
def CapturedRowMetadata.visibleVersionAt (image : CapturedRowMetadata) (state : RowState)
    (txid commandSnapshot commitSnapshot : ℕ) : Option (RowVersionIdentity × Option RowHome) :=
  match image.pending.items.find? fun entry =>
      entry.2.txid == txid && decide (entry.2.cid < commandSnapshot) with
  | some (identity, change) => some (.pending identity, change.loc.map .heap)
  | none =>
    if state.committedLsn ≤ commitSnapshot then
      some (.committed state.committedLsn, state.committed)
    else
      (image.history.items.find? fun v => decide (v.lsn ≤ commitSnapshot)).map fun v =>
        (.committed v.lsn, v.home)

variable {versions : RowVersionState} {state : RowState} {maximum : ℕ} {image : CapturedRowMetadata}

lemma capture_ok (h : capture versions state maximum = some (.ok image)) :
    ∃ cells cells', versions.pendingRowVersions.pool.Linked state.pending.tail cells ∧
      versions.committedRowVersions.pool.Linked state.history.tail cells' ∧
      image.pending.items = (versions.pendingRowVersions.pool.read cells).map
        (fun e => (e.identity, e.change)) ∧
      image.history.items = versions.committedRowVersions.pool.read cells' := by
  obtain ⟨_ | pending, hp, h⟩ := Option.bind_eq_some_iff.mp h
  · cases h
  obtain ⟨_ | history, hh, h⟩ := Option.bind_eq_some_iff.mp h
  · cases h
  cases h
  obtain ⟨cells, hlink, hitems⟩ := captureChain_ok hp
  obtain ⟨cells', hlink', hitems'⟩ := captureChain_ok hh
  exact ⟨cells, cells', hlink, hlink', hitems, by simpa [FixedVec.empty] using hitems'⟩

/-- **A captured row reads like the live one**: whatever the state, the transaction, its command
and its snapshot, the version selected from the copy is the one the walk over the live chains
selects. -/
theorem captured_reads_like_live (h : capture versions state maximum = some (.ok image))
    (txid commandSnapshot commitSnapshot : ℕ) :
    visibleVersionAt versions state txid commandSnapshot commitSnapshot =
      some (image.visibleVersionAt state txid commandSnapshot commitSnapshot) := by
  obtain ⟨cells, cells', hlink, hlink', hpending, hhistory⟩ := capture_ok h
  unfold CapturedRowMetadata.visibleVersionAt
  rw [visibleVersionAt_linked hlink hlink', hpending, hhistory, List.find?_map]
  simp only [Function.comp_def]
  rcases List.find? _ (versions.pendingRowVersions.pool.read cells) with _ | e <;> rfl

/-- One pending deletion and one history entry. -/
def capturedVersions : RowVersionState :=
  ⟨⟨⟨[⟨true, none, ⟨1, ⟨2, 0, none⟩, false⟩⟩], none, 4⟩, 1⟩,
    ⟨⟨[⟨true, none, ⟨some (.heap ⟨0, 8, 0⟩), 3⟩⟩], none, 4⟩, 0⟩, false⟩

/-- The row that owns both. -/
def capturedState : RowState :=
  ⟨none, 5, some 1, 5, ⟨some 0, 1⟩, ⟨some 0, 1, .published⟩⟩

theorem captured_reads_like_live_history :
    ∃ image,
      capture capturedVersions capturedState 4 = some (.ok image) ∧
      visibleVersionAt capturedVersions capturedState 7 1 4 =
        some (some (.committed 3, some (.heap ⟨0, 8, 0⟩))) := by
  have hcapture : capture capturedVersions capturedState 4 = some (.ok
      ⟨⟨[(1, ⟨2, 0, none⟩)], 4, by decide⟩, ⟨[⟨some (.heap ⟨0, 8, 0⟩), 3⟩], 4, by decide⟩⟩) := rfl
  exact ⟨_, hcapture, captured_reads_like_live hcapture 7 1 4⟩

end Pos3ql
