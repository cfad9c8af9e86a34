import Pos3ql.Transaction.UndoLog

/-!
# A write and its undo

`writeUndo` publishes a pending write and, if it was written, restores the row. Nothing that can
still be read changes, for the writer or anybody else (**`write_undo_invisible`**). What cannot be
read any more may go: publication prunes the history that no registered snapshot needs
(`write_undo_prunes`).

Source: `storage/row_publication.rs`.
-/

namespace Pos3ql.Storage

open Foundation List Option

variable {st st' : Storage} {hl hl' : RowKey → List CommittedVersion}
  {pl pl' : RowKey → List PendingEntry}

/-- Publish a write, and restore the row if the write was made. A publication that fails, waits or
asks for a retry is left as it is. -/
def writeUndo (st : Storage) (req : WriteRequest) : Option Storage := do
  let (st, result) ← st.writePending req
  match result with
  | .ok (.written identity) => st.restorePending req.key req.change.txid identity
  | _ => some st

/-- **Nothing that can still be read has changed**: every transaction sees at every command what it
saw, at every snapshot that is registered or not below the row's newest version. -/
def LooksSame (st st' : Storage) : Prop := ∀ k txid commandSnapshot s reader, s ≤ u64Max →
  st.Readable reader k (st.commitSnapshot s) → st'.visibleRowHomeAt k txid commandSnapshot s =
    st.visibleRowHomeAt k txid commandSnapshot s

/-- **Steps that leave a row's entries** change nothing of it that can still be read. -/
lemma Steady.visible_eq {k : RowKey} {reader txid s : ℕ} (h : Steady reader st hl pl st' hl' pl')
    (habs : Abs st hl pl) (habs' : Abs st' hl' pl') (hpl : pl' k = pl k) (hs : s ≤ u64Max)
    (hread : st.Readable reader k (st.commitSnapshot s)) (cs : ℕ) :
    st'.visibleRowHomeAt k txid cs s = st.visibleRowHomeAt k txid cs s := by
  rw [habs'.visibleRowHomeAt_view, habs.visibleRowHomeAt_view, h.keeps.commitSnapshot_eq s]
  refine congrArg some (RowContext.view_congr ?_ ?_ cs)
  · rw [habs'.pendingOf_image, habs.pendingOf_image, hpl]
  · exact h.committedRow k _ (st.commitSnapshot_le hs) hread

/-- **A write and its undo are invisible**, from every reachable state and whatever is written,
deleted or refused. Source: `publish_pending_write`, `restore_pending`. -/
theorem write_undo_invisible (hreach : Reachable st) (req : WriteRequest) :
    ∃ st', st.writeUndo req = some st' ∧ LooksSame st st' := by
  obtain ⟨hl, pl, habs⟩ := hreach.abs
  obtain ⟨st₁, result, hl₁, pl₁, hwrite, ⟨habs₁, hchg⟩, happends⟩ := habs.writePending_appends req
  unfold writeUndo
  simp only [hwrite, bind_eq_bind, bind_some]
  have hframe : ∀ k, k ≠ req.key → pl₁ k = pl k := fun k hk => hchg.pending_frame habs habs₁ hk
  -- a write that was not made leaves the entries of its row
  have hkept : pl₁ req.key = pl req.key → ∃ st', some st₁ = some st' ∧ LooksSame st st' := by
    intro hpl
    refine ⟨st₁, rfl, fun k _ cs _ _ hs hread =>
      (hchg.steady habs).visible_eq habs habs₁ ?_ hs hread cs⟩
    by_cases hk : k = req.key
    · rw [hk, hpl]
    · exact hframe k hk
  rcases result with err | (identity | _ | _ | err | ⟨owner, message⟩)
  case ok.written =>
    obtain ⟨st₂, hl₂, pl₂, hrestore, ⟨habs₂, hchg₂⟩, hundone⟩ :=
      habs₁.restorePending_undoes req.key req.change.txid identity
    have hpl : pl₂ req.key = pl req.key := hundone _ _ happends rfl rfl
    refine ⟨st₂, hrestore, fun k _ cs _ _ hs hread =>
      ((hchg.steady habs).trans (hchg₂.steady habs₁)).visible_eq habs habs₂ ?_ hs hread cs⟩
    by_cases hk : k = req.key
    · rw [hk, hpl]
    · rw [hchg₂.pending_frame habs₁ habs₂ hk, hframe k hk]
  all_goals exact hkept happends

/-- Transaction 3 replaces a row. -/
def sampleWrite : WriteRequest := ⟨⟨0, 1⟩, ⟨3, 0, some sampleLoc⟩, none, true, false, none⟩

theorem write_undo_invisible_sample :
    ∃ st', sampleStart.writeUndo sampleWrite = some st' ∧
      st'.visibleRowHomeAt ⟨0, 1⟩ 3 1 7 = some (some ⟨.committed 5, .heap ⟨0, 8, 0⟩⟩) := by
  obtain ⟨st', hundo, hsame⟩ := write_undo_invisible sampleStart_reachable sampleWrite
  refine ⟨st', hundo, (hsame _ 3 1 7 1 (by decide) (.inr ⟨rfl, by decide⟩)).trans ?_⟩
  decide

/-- **History that nobody has registered for is gone.** Transaction 2 replaces the row at LSN 9
while a snapshot at LSN 7 is registered, and the transaction that holds it ends. A read at LSN 7
still finds the old image; after another transaction's write and undo it finds none. -/
theorem write_undo_prunes :
    ∃ st st' : Storage, Reachable st ∧ st.writeUndo sampleWrite = some st' ∧
      st.visibleRowHomeAt ⟨0, 1⟩ 3 1 7 = some (some ⟨.committed 5, .heap ⟨0, 8, 0⟩⟩) ∧
      st'.visibleRowHomeAt ⟨0, 1⟩ 3 1 7 = some none := by
  have hviews : (sampleStart.run (sampleRun false ++ [.snapshot (.endTransaction 1)])).bind
      (fun st =>
      (st.writeUndo sampleWrite).map fun st' =>
        (st.visibleRowHomeAt ⟨0, 1⟩ 3 1 7, st'.visibleRowHomeAt ⟨0, 1⟩ 3 1 7)) =
      some (some (some ⟨.committed 5, .heap ⟨0, 8, 0⟩⟩), some none) := by decide +kernel
  obtain ⟨st, hrun, hafter⟩ := bind_eq_some_iff.mp hviews
  obtain ⟨st', hundo, hsees⟩ := map_eq_some_iff.mp hafter
  exact ⟨st, st', ⟨sampleStart, _, sampleStart_initial, hrun⟩, hundo, congrArg Prod.fst hsees,
    congrArg Prod.snd hsees⟩

end Pos3ql.Storage
