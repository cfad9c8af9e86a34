import Pos3ql.Wal.Staging

/-!
# Histories of a journal

The calls a process makes on its journal, in any order and for any number of transactions, together
with a record of the batches the file should hold.

* `Journal` is the journal with two ghost fields: the batch waiting in the buffer, and the batches
  flushed since writing last started at the front of the file.
* `Journal.step` makes one call. Failed assertions end the process, so `step` returns no state then.
* **`Journal.step_inv`** and **`Journal.run_inv`**: after every call, and so after every history,
  the file starts with exactly the bytes of those batches, and the write offset is where they end.
-/

namespace Pos3ql

open Foundation List Option Wal

/-! ## Calls -/

/-- An operation as statements stage it: not a marker, and short enough for the length field. -/
structure StagedOp (C : CatalogCodec) where
  op : WalOp C
  short : op.payload.length < 2 ^ 32
  inner : isBoundary op.kind = false

/-- The insertion of a row of one byte. -/
def StagedOp.insertByte (rowid : UInt64) (byte : UInt8) : StagedOp .rowsOnly :=
  ⟨.insertRow rowid [byte], (by decide : (28 : ℕ) < 2 ^ 32), rfl⟩

/-- The calls on a journal. A stage is cut back to a record's end, which is what `stage_mark`
returned when the savepoint was set. -/
inductive JournalCall (C : CatalogCodec)
  | stage (database : Int32) (transactionId : UInt32) (provisionalLsn : ℕ) (operation : StagedOp C)
  | truncateStage (transactionId : UInt32) (kept : ℕ)
  | discardStage (transactionId : UInt32)
  | commitStage (transactionId : UInt32) (lsnFloor : ℕ) (assignedTransactionIdentity : Bool)
    (now : Int64)
  | prepareStage (executing : Int32) (metadata : PreparedTransactionMetadata)
    (lsnFloor recordsCapacity : ℕ)
  | commit
  | clearBatchMarker
  | resetAfterCheckpoint

/-- A journal, with the batch in its buffer, the batches flushed since the last reset, and the LSN
at that reset. -/
structure Journal (C : CatalogCodec) where
  wal : Wal
  unflushed : Option (Batch C)
  batches : List (Batch C)
  base : ℕ

namespace Journal

variable {C : CatalogCodec}

/-- A new journal. -/
def create (C : CatalogCodec) (walBytes walBufferBytes maxConnections : ℕ) : Journal C :=
  ⟨⟨zeros walBytes, [], walBufferBytes, replicate maxConnections ⟨0, 5, []⟩, 0, 0, false, 0, 0⟩,
    none, [], 0⟩

/-- Everything flushed since the reset, and the batch in the buffer. -/
def finishedBatches (j : Journal C) : List (Batch C) := j.batches ++ j.unflushed.toList

/-- Take over the outcome of finishing a stage as the batch `b`. The LSN returned is the floor when
there was nothing to write, and the batch's last otherwise. -/
def finish (j : Journal C) (b : Batch C) : Outcome (ℕ × Bytes) → Option (Journal C)
  | none => none
  | some (wal, .error _) => some { j with wal }
  | some (wal, .ok (lsn, _)) =>
    some { j with wal, unflushed := if lsn = b.floor then j.unflushed else some b }

/-- One call. -/
def step (j : Journal C) : JournalCall C → Option (Journal C)
  | .stage database transactionId provisionalLsn operation =>
    (j.wal.stage database transactionId provisionalLsn operation.op).map
      fun outcome => { j with wal := outcome.1 }
  | .truncateStage transactionId kept =>
    (j.wal.truncateStage transactionId
      (recordEnd (((j.wal.stageIndex transactionId).map j.wal.staged).getD []) kept)).map
      fun wal => { j with wal }
  | .discardStage transactionId =>
    (j.wal.discardStage transactionId).map fun wal => { j with wal }
  | .commitStage transactionId lsnFloor assigned now =>
    j.finish ⟨lsnFloor, j.wal.stagedOps C transactionId, .commit transactionId assigned (some now)⟩
      (j.wal.commitStage C transactionId lsnFloor assigned now)
  | .prepareStage executing metadata lsnFloor recordsCapacity =>
    j.finish ⟨lsnFloor, j.wal.prepareOps C metadata, prepareMarker C metadata⟩
      (j.wal.prepareStage C executing metadata lsnFloor recordsCapacity)
  | .commit => some { j with
      wal := j.wal.commit
      unflushed := none
      batches := j.finishedBatches }
  | .clearBatchMarker => some { j with wal := j.wal.clearBatchMarker }
  | .resetAfterCheckpoint => some ⟨j.wal.resetAfterCheckpoint, none, [], j.wal.lastLsn⟩

/-- A history. -/
def run (j : Journal C) (calls : List (JournalCall C)) : Option (Journal C) := calls.foldlM step j

/-! ## The invariant -/

/-- **What every history keeps.** -/
structure Inv (j : Journal C) : Prop where
  stages : j.wal.StagesSound C
  file : j.wal.file.take j.wal.writeOffset = Batch.allBytes j.batches
  tail : j.wal.writeOffset = (Batch.allBytes j.batches).length
  sound : ∀ b ∈ j.finishedBatches, b.Sound
  ascending : Batch.Ascending j.base j.finishedBatches
  lastLsn : j.wal.lastLsn = Batch.lastOf j.base j.finishedBatches
  dirty : j.wal.dirty = j.unflushed.isSome
  fits : ∀ b ∈ j.finishedBatches, b.bytes.length ≤ j.wal.bufferCapacity
  buffer : ∀ b, j.unflushed = some b →
    j.wal.buffer = b.bytes ∧ j.wal.writeOffset + b.bytes.length ≤ j.wal.file.length

lemma Inv.room {j : Journal C} (h : j.Inv) {b : Batch C} (hb : b ∈ j.batches)
    {r : JournalRecord C} (hr : r ∈ b.records) : r.bytes.length ≤ j.wal.bufferCapacity := by
  have hfits := h.fits b (mem_append_left _ hb)
  have hpart : r.bytes.length ≤ b.bytes.length := by
    exact (sublist_flatten_of_mem (mem_map_of_mem hr)).length_le
  exact le_trans hpart hfits

end Journal

lemma Batch.bytes_ne_nil {C : CatalogCodec} (b : Batch C) : b.bytes ≠ [] := by
  intro hnil
  have hlen := congrArg List.length hnil
  rw [Batch.bytes, Batch.records_eq, JournalRecord.allBytes, flatMap_append,
    flatMap_singleton, length_append, JournalRecord.length_bytes] at hlen
  unfold headerLen at hlen
  simp only [length_nil] at hlen
  omega

namespace Journal

variable {C : CatalogCodec}

lemma create_inv (walBytes walBufferBytes maxConnections : ℕ) :
    (create C walBytes walBufferBytes maxConnections).Inv := by
  have hstaged : ∀ index,
      (create C walBytes walBufferBytes maxConnections).wal.staged index = [] := by
    intro index
    unfold create staged
    rw [getElem?_replicate]
    split_ifs <;> rfl
  refine ⟨fun index => ?_, rfl, rfl, ?_, trivial, rfl, rfl, ?_, ?_⟩
  · rw [hstaged]
    exact ⟨[], stageHolds_nil⟩
  · nofun
  · nofun
  · nofun

variable {j j' : Journal C} {b : Batch C} {wal : Wal}

lemma Inv.of_unfinished (h : j.Inv) (hstages : wal.StagesSound C)
    (hun : Unfinished j.wal wal) : ({ j with wal } : Journal C).Inv where
  stages := hstages
  file := by rw [hun.file, hun.writeOffset]; exact h.file
  tail := hun.writeOffset.trans h.tail
  sound := h.sound
  ascending := h.ascending
  lastLsn := hun.lastLsn.trans h.lastLsn
  dirty := hun.dirty.trans h.dirty
  fits := by rw [hun.bufferCapacity]; exact h.fits
  buffer := by
    intro b hb
    obtain ⟨hbuf, hroom⟩ := h.buffer b hb
    rw [hun.writeOffset, hun.file]
    -- a waiting batch is not empty, so the buffer was not touched
    rcases hun.buffer with hsame | hnil
    · exact ⟨hsame.trans hbuf, hroom⟩
    · exact absurd (hbuf.symm.trans hnil) b.bytes_ne_nil

lemma Inv.of_sameFile (h : j.Inv) (hstages : wal.StagesSound C)
    (hsame : SameFile j.wal wal) : ({ j with wal } : Journal C).Inv :=
  h.of_unfinished hstages hsame.unfinished

lemma Inv.of_finished (h : j.Inv) (hstages : wal.StagesSound C)
    (hfin : Finished j.wal wal b) (hmarker : isBoundary b.boundary.kind)
    (hshort : b.boundary.payload.length < 2 ^ 32) :
    ({ j with wal, unflushed := some b } : Journal C).Inv := by
  -- no batch can be waiting: the buffer was empty
  have hnone : j.unflushed = none := by
    rcases hwait : j.unflushed with _ | waiting
    · rfl
    · exact absurd ((h.buffer waiting hwait).1.symm.trans hfin.empty) waiting.bytes_ne_nil
  have hbs : j.finishedBatches = j.batches := by
    rw [finishedBatches, hnone]
    exact append_nil _
  have hsound : b.Sound :=
    ⟨hfin.inner, hmarker, forall_mem_append.mpr ⟨hfin.short, forall_mem_singleton.mpr hshort⟩,
      hfin.bound⟩
  refine ⟨hstages, ?_, hfin.writeOffset.trans h.tail, ?_, ?_, ?_, hfin.dirty, ?_, ?_⟩
  · rw [hfin.file, hfin.writeOffset]
    exact h.file
  · intro b' hb'
    rcases mem_append.mp hb' with hb' | hb'
    · exact h.sound b' (hbs.symm ▸ hb')
    · obtain rfl : b' = b := by simpa using hb'
      exact hsound
  · refine Batch.ascending_append.mpr ⟨hbs ▸ h.ascending, ?_, trivial⟩
    have hfloor := hfin.floor
    rwa [h.lastLsn, hbs] at hfloor
  · exact hfin.lastLsn.trans (Batch.lastOf_append ..).symm
  · intro b' hb'
    rw [hfin.bufferCapacity]
    rcases mem_append.mp hb' with hb' | hb'
    · exact h.fits b' (hbs.symm ▸ hb')
    · obtain rfl : b' = b := by simpa using hb'
      exact hfin.fits
  · intro b' hb'
    cases hb'
    rw [hfin.writeOffset, hfin.file]
    exact ⟨hfin.buffer, hfin.room⟩

lemma Inv.finish {outcome : Outcome (ℕ × Bytes)} (h : j.Inv)
    (hspec : ∀ wal result, outcome = some (wal, result) → wal.StagesSound C ∧
      ((Unfinished j.wal wal ∧ ∀ lsn copy, result = .ok (lsn, copy) → lsn = b.floor) ∨
        (Finished j.wal wal b ∧ ∃ copy, result = .ok (b.lastLsn, copy))))
    (hmarker : isBoundary b.boundary.kind) (hshort : b.boundary.payload.length < 2 ^ 32)
    (hfinish : j.finish b outcome = some j') : j'.Inv := by
  rcases outcome with _ | ⟨wal, e | ⟨lsn, copy⟩⟩
  · cases hfinish
  · cases hfinish
    obtain ⟨hstages, ⟨hun, -⟩ | ⟨-, copy, hres⟩⟩ := hspec wal _ rfl
    · exact h.of_unfinished hstages hun
    · cases hres
  cases hfinish
  obtain ⟨hstages, ⟨hun, hfloor⟩ | ⟨hfin, copy', hres⟩⟩ := hspec wal _ rfl
  · rw [if_pos (hfloor lsn copy rfl)]
    exact h.of_unfinished hstages hun
  · cases hres
    rw [if_neg (by unfold Batch.lastLsn; omega)]
    exact h.of_finished hstages hfin hmarker hshort

lemma take_writeAt {file data : Bytes} {off : ℕ} (hroom : off + data.length ≤ file.length) :
    (writeAt file data off).take (off + data.length) = file.take off ++ data := by
  unfold writeAt
  rw [← append_assoc]
  refine take_left' ?_
  rw [length_append, length_take]
  omega

lemma Inv.commit (h : j.Inv) :
    ({ j with
    wal := j.wal.commit
    unflushed := none
    batches := j.finishedBatches } : Journal C).Inv := by
  have hfind : ({ j with
      wal := j.wal.commit
      unflushed := none
      batches := j.finishedBatches } : Journal C).finishedBatches = j.finishedBatches :=
    append_nil _
  have hnobuffer : ∀ b : Batch C, (none : Option (Batch C)) = some b →
      j.wal.commit.buffer = b.bytes ∧
        j.wal.commit.writeOffset + b.bytes.length ≤ j.wal.commit.file.length := by
    nofun
  rcases hwait : j.unflushed with _ | b
  · -- nothing is waiting: the call returns at once
    have hclean : j.wal.dirty = false := by rw [h.dirty, hwait]; rfl
    have hcom : j.wal.commit = j.wal := by
      unfold Wal.commit
      rw [hclean]
      rfl
    have hbs : j.finishedBatches = j.batches := by
      rw [finishedBatches, hwait]
      exact append_nil _
    refine ⟨?_, ?_, ?_, ?_, ?_, ?_, ?_, ?_, hnobuffer⟩
    · rw [hcom]
      exact h.stages
    · rw [hcom, hbs]
      exact h.file
    · rw [hcom, hbs]
      exact h.tail
    · rw [hfind]
      exact h.sound
    · rw [hfind]
      exact h.ascending
    · rw [hfind, hcom]
      exact h.lastLsn
    · rw [hcom]
      exact hclean
    · rw [hfind, hcom]
      exact h.fits
  obtain ⟨hbuf, hroom⟩ := h.buffer b hwait
  have hdirty : j.wal.dirty := by rw [h.dirty, hwait]; rfl
  have hcom : j.wal.commit = { j.wal with
      file := writeAt j.wal.file b.bytes j.wal.writeOffset
      writeOffset := j.wal.writeOffset + b.bytes.length
      buffer := []
      dirty := false } := by
    unfold Wal.commit
    rw [hdirty, hbuf]
    rfl
  have hbytes : Batch.allBytes j.finishedBatches = Batch.allBytes j.batches ++ b.bytes := by
    rw [finishedBatches, hwait, Batch.allBytes, flatMap_append]
    exact congrArg _ (flatMap_singleton ..)
  refine ⟨?_, ?_, ?_, ?_, ?_, ?_, ?_, ?_, hnobuffer⟩
  · rw [hcom]
    exact h.stages.of_stages_eq rfl
  · rw [hcom, hbytes, ← h.file]
    exact take_writeAt hroom
  · rw [hcom, hbytes, length_append, ← h.tail]
  · rw [hfind]
    exact h.sound
  · rw [hfind]
    exact h.ascending
  · rw [hfind, hcom]
    exact h.lastLsn
  · rw [hcom]
    rfl
  · rw [hfind, hcom]
    exact h.fits

lemma Inv.reset (h : j.Inv) :
    (⟨j.wal.resetAfterCheckpoint, none, [], j.wal.lastLsn⟩ : Journal C).Inv := by
  refine ⟨h.stages.of_stages_eq rfl, rfl, rfl, ?_, trivial, rfl, rfl, ?_, ?_⟩
  · nofun
  · nofun
  · nofun

lemma length_commit_payload (tx : UInt32) (assigned : Bool) (now : Int64) :
    (WalOp.commit (C := C) tx assigned (some now)).payload.length < 2 ^ 32 := by
  simp only [WalOp.payload, length_append, length_leBytes, Take.flagBytes, length_cons, length_nil]
  omega

lemma length_prepareMarker (pm : PreparedTransactionMetadata) :
    (prepareMarker C pm).payload.length < 2 ^ 32 := by
  have hgid := pm.gid.length_bytes
  simp only [prepareMarker, WalOp.payload, length_append, length_leBytes, Take.countedBytes]
  omega

/-- **One call keeps the invariant.** -/
theorem step_inv {call : JournalCall C} (hstep : j.step call = some j') (h : j.Inv) : j'.Inv := by
  cases call with
  | stage database transactionId provisionalLsn operation =>
    obtain ⟨⟨wal, result⟩, hstage, rfl⟩ := map_eq_some_iff.mp hstep
    obtain ⟨hstages, hsame⟩ := stage_spec hstage h.stages operation.short operation.inner
    exact h.of_sameFile hstages hsame
  | truncateStage transactionId kept =>
    obtain ⟨wal, hcut, rfl⟩ := map_eq_some_iff.mp hstep
    obtain ⟨hstages, hsame⟩ := truncateStage_spec hcut h.stages
    exact h.of_sameFile hstages hsame
  | discardStage transactionId =>
    obtain ⟨wal, hdisc, rfl⟩ := map_eq_some_iff.mp hstep
    obtain ⟨hstages, hsame⟩ := discardStage_spec hdisc h.stages
    exact h.of_sameFile hstages hsame
  | commitStage transactionId lsnFloor assigned now =>
    exact h.finish (fun wal result hout => finishStage_spec hout h.stages) rfl
      (length_commit_payload ..) hstep
  | prepareStage executing metadata lsnFloor recordsCapacity =>
    exact h.finish (fun wal result hout => prepareStage_spec hout h.stages) rfl
      (length_prepareMarker ..) hstep
  | commit =>
    cases hstep
    exact h.commit
  | clearBatchMarker =>
    cases hstep
    exact h.of_sameFile (h.stages.of_stages_eq rfl) ⟨rfl, rfl, rfl, rfl, rfl, rfl⟩
  | resetAfterCheckpoint =>
    cases hstep
    exact h.reset

/-- **Every history keeps the invariant.** Induction on the calls. -/
theorem run_inv {calls : List (JournalCall C)} (hrun : j.run calls = some j') (h : j.Inv) :
    j'.Inv := by
  induction calls generalizing j with
  | nil =>
    cases hrun
    exact h
  | cons call rest ih =>
    obtain ⟨j₁, hstep, hrest⟩ := bind_eq_some_iff.mp hrun
    exact ih hrest (step_inv hstep h)

/-! ## Histories without a reset -/

end Journal

end Pos3ql
