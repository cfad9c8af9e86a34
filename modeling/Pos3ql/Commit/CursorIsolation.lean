import Pos3ql.Commit.CommitCursor

/-!
# Isolation of the committed-transaction cursors

A cursor should hand over one committed batch at a time. Both cursors collect every record above the
floor until they meet a commit marker, so a batch that ends in a prepare marker is handed over as
part of the next committed one.

* `DeliversCommitted next batches ceiling`: what a cursor is for. From the start, or from a commit
  marker it has delivered, it hands over exactly the next committed batch; iterated, it delivers
  every committed batch at or below the ceiling, once and in order.
* `Isolated`: the committed batches at or below the ceiling come before all others, and fit the
  buffer.
* **`cursors_deliver_iff`**: for both cursors that is the condition.
* `prepared_rows_delivered`: a prepared transaction handed over with an unrelated commit.
-/

namespace Pos3ql

open Foundation List Batch

/-! ## What a cursor is for -/

section Purpose

variable {C : CatalogCodec}

/-- A batch that ends in a commit marker. -/
def Batch.isCommit (b : Batch C) : Bool := b.boundary.kind == kindCommit

/-- A committed batch at or below the ceiling. -/
def Batch.isDue (ceiling : ℕ) (b : Batch C) : Bool := b.isCommit && decide (b.lastLsn ≤ ceiling)

/-- A batch as a cursor hands it over. -/
def Batch.handed (b : Batch C) : ℕ × Bytes := (b.lastLsn, b.bytes)

/-- **The condition**: the committed batches at or below the ceiling come first and fit the buffer
one by one; the records at or below the ceiling that follow them fit it together. -/
def Isolated (ceiling scratchCapacity : ℕ) : List (Batch C) → Prop
  | [] => True
  | b :: rest =>
    if b.isDue ceiling then b.bytes.length ≤ scratchCapacity ∧ Isolated ceiling scratchCapacity rest
    else (∀ later ∈ rest, later.isDue ceiling = false) ∧
      (JournalRecord.allBytes ((Batch.allRecords (b :: rest)).filter
        fun r => decide (r.lsn ≤ ceiling))).length ≤ scratchCapacity

end Purpose

/-! ## What the cursors take from batches -/

section Batches

variable {C : CatalogCodec} {floor ceiling scap lsn : ℕ} {b : Batch C} {rest bs : List (Batch C)}
  {r : JournalRecord C}

lemma Batch.allRecords_cons (b : Batch C) (rest : List (Batch C)) :
    allRecords (b :: rest) = b.records ++ allRecords rest := flatMap_cons ..

lemma Batch.lsn_of_mem (hr : r ∈ b.records) : b.floor < r.lsn ∧ r.lsn ≤ b.lastLsn := by
  obtain ⟨-, hlo, hhi⟩ := JournalRecord.mem_stamp hr
  rw [length_append] at hhi
  exact ⟨hlo, by unfold lastLsn; omega⟩

/-- The LSNs of ascending batches. Induction on the batches. -/
lemma Batch.Ascending.above (h : Ascending lsn bs) :
    (∀ b ∈ bs, lsn ≤ b.floor) ∧ ∀ r ∈ allRecords bs, lsn < r.lsn := by
  have hfloor : ∀ b ∈ bs, lsn ≤ b.floor := by
    induction bs generalizing lsn with
    | nil => intro b hb; cases hb
    | cons b rest ih =>
      intro b' hb'
      rcases mem_cons.mp hb' with rfl | hb'
      · exact h.1
      have := ih h.2 b' hb'
      have := h.1
      unfold lastLsn at *
      omega
  refine ⟨hfloor, fun r hr => ?_⟩
  obtain ⟨b, hb, hr⟩ := mem_flatMap.mp hr
  exact (hfloor b hb).trans_lt (lsn_of_mem hr).1

/-- The batches before and after one of ascending batches. Induction on those before. -/
lemma Batch.Ascending.split {pre : List (Batch C)} (h : Ascending lsn (pre ++ b :: rest)) :
    (∀ b' ∈ pre, b'.lastLsn ≤ b.floor) ∧ Ascending b.lastLsn rest := by
  induction pre generalizing lsn with
  | nil => exact ⟨fun b' hb' => (not_mem_nil hb').elim, h.2⟩
  | cons b' pre ih =>
    obtain ⟨hearlier, hrest⟩ := ih h.2
    refine ⟨forall_mem_cons.mpr ⟨?_, hearlier⟩, hrest⟩
    exact h.2.above.1 b (mem_append_right _ mem_cons_self)

/-- Records that are no commit markers, below the ceiling, are taken. Induction on them. -/
lemma taken_append {inner : List (JournalRecord C)} (rest : List (JournalRecord C))
    (h : ∀ r ∈ inner, r.isCommit = false ∧ r.lsn ≤ ceiling) :
    taken ceiling (inner ++ rest) = inner ++ taken ceiling rest := by
  induction inner with
  | nil => rfl
  | cons r inner ih =>
    obtain ⟨hcom, hlsn⟩ := h r mem_cons_self
    rw [cons_append, taken, if_neg (by omega), hcom, ih (forall_mem_cons.mp h).2]
    rfl

/-- Without a commit marker below the ceiling, everything below it is taken. Induction on the
records. -/
lemma taken_eq_filter {rs : List (JournalRecord C)} (hascends : JournalRecord.Ascends lsn rs)
    (h : ∀ r ∈ rs, r.isCommit → ceiling < r.lsn) :
    taken ceiling rs = rs.filter fun r => decide (r.lsn ≤ ceiling) := by
  induction rs generalizing lsn with
  | nil => rfl
  | cons r rest ih =>
    have habove := (JournalRecord.pairwise_of_ascends hascends.2).1
    rw [taken]
    by_cases htop : ceiling < r.lsn
    · rw [if_pos htop]
      refine (filter_eq_nil_iff.mpr fun r' hr' => ?_).symm
      rcases mem_cons.mp hr' with rfl | hr'
      · simpa using htop
      · simpa using lt_trans htop (habove r' hr')
    · have hcom : ¬ r.isCommit := fun hcom =>
        htop (h r mem_cons_self hcom)
      rw [if_neg htop, if_neg hcom, filter_cons_of_pos (by simpa using htop),
        ih hascends.2 (forall_mem_cons.mp h).2]

/-- The records of a sound batch before its marker are no commit markers. -/
lemma Batch.Sound.isCommit_inner (hb : b.Sound)
    (hr : r ∈ JournalRecord.stamp b.floor b.ops) : r.isCommit = false := by
  have hinner := hb.inner r.op (JournalRecord.mem_stamp hr).1
  exact (Bool.or_eq_false_iff.mp hinner).1

lemma Batch.Sound.eq_of_isCommit (hb : b.Sound)
    (hr : r ∈ b.records) (hcom : r.isCommit) : b.isCommit ∧ r.lsn = b.lastLsn := by
  rw [records_eq, mem_append, mem_singleton] at hr
  rcases hr with hr | rfl
  · rw [hb.isCommit_inner hr] at hcom
    cases hcom
  · exact ⟨hcom, rfl⟩

lemma taken_due (hb : b.Sound) (hdue : b.isDue ceiling)
    (rest : List (JournalRecord C)) : taken ceiling (b.records ++ rest) = b.records := by
  obtain ⟨hcom, hlast⟩ := Bool.and_eq_true_iff.mp hdue
  have hlast := of_decide_eq_true hlast
  rw [records_eq, append_assoc, taken_append]
  · congr 1
    change taken ceiling (⟨b.lastLsn, b.boundary⟩ :: rest) = _
    rw [taken, if_neg (show ¬ ceiling < b.lastLsn by omega)]
    exact if_pos hcom
  intro r hr
  refine ⟨hb.isCommit_inner hr, le_trans (lsn_of_mem ?_).2 hlast⟩
  rw [records_eq]
  exact mem_append_left _ hr

/-- A batch that is not due, before one that is, is taken with what follows. -/
lemma taken_not_due (hb : b.Sound) (hdue : b.isDue ceiling = false) (hlast : b.lastLsn ≤ ceiling)
    (rest : List (JournalRecord C)) :
    taken ceiling (b.records ++ rest) = b.records ++ taken ceiling rest := by
  refine taken_append rest fun r hr => ?_
  refine ⟨?_, le_trans (lsn_of_mem hr).2 hlast⟩
  by_contra hcom
  obtain ⟨hcom, -⟩ := hb.eq_of_isCommit hr (Bool.not_eq_false _ ▸ hcom)
  unfold isDue at hdue
  rw [hcom, decide_eq_true hlast] at hdue
  cases hdue

/-- Batches that are not due, before one that is. Induction on them. -/
lemma taken_before_due {pre : List (Batch C)} (hsound : ∀ b' ∈ pre ++ b :: rest, b'.Sound)
    (hasc : Ascending lsn (pre ++ b :: rest)) (hearlier : ∀ b' ∈ pre, b'.isDue ceiling = false)
    (hdue : b.isDue ceiling) :
    taken ceiling (allRecords (pre ++ b :: rest)) = allRecords pre ++ b.records := by
  induction pre generalizing lsn with
  | nil =>
    exact taken_due (hsound b mem_cons_self) hdue _
  | cons b' pre ih =>
    have hb : b ∈ pre ++ b :: rest := mem_append_right _ mem_cons_self
    have hlast : b'.lastLsn ≤ ceiling := by
      have hle := hasc.2.above.1 b hb
      have := of_decide_eq_true (Bool.and_eq_true_iff.mp hdue).2
      unfold lastLsn at *
      omega
    rw [cons_append, allRecords_cons, allRecords_cons, taken_not_due (hsound b' mem_cons_self)
      (hearlier b'
      mem_cons_self) hlast, ih (fun b'' hb'' => hsound b'' (mem_cons_of_mem _ hb'')) hasc.2
        fun b'' hb'' => hearlier b'' (mem_cons_of_mem _ hb''), append_assoc]

lemma pickNext_batches (hasc : Ascending floor bs) :
    pickNext floor ceiling scap [] (allRecords bs) =
      if scap < (JournalRecord.allBytes (taken ceiling (allRecords bs))).length then
        .error exceedsReplicationBuffer
      else .ok (handedOver ceiling [] (allRecords bs)) := by
  rw [pickNext_above hasc.above.2 zero_le, length_nil, Nat.zero_add]

/-- The cursor before its first due batch: everything up to it, or an error. -/
lemma pickNext_before_due {pre : List (Batch C)} (hsound : ∀ b' ∈ pre ++ b :: rest, b'.Sound)
    (hasc : Ascending floor (pre ++ b :: rest)) (hearlier : ∀ b' ∈ pre, b'.isDue ceiling = false)
    (hdue : b.isDue ceiling) :
    pickNext floor ceiling scap [] (allRecords (pre ++ b :: rest)) =
      if scap < (allBytes pre).length + b.bytes.length then
        .error exceedsReplicationBuffer
      else .ok (some (b.lastLsn, allBytes pre ++ b.bytes)) := by
  have htaken := taken_before_due hsound hasc hearlier hdue
  have hbytes : JournalRecord.allBytes (allRecords pre ++ b.records) = allBytes pre ++ b.bytes := by
    rw [allBytes_eq]
    exact flatMap_append ..
  rw [pickNext_batches hasc, handedOver, htaken, hbytes, length_append]
  congr 2
  rw [records_eq, ← append_assoc, getLast?_concat]
  dsimp only
  rw [if_pos (show JournalRecord.isCommit ⟨b.lastLsn, b.boundary⟩ = true from
    (Bool.and_eq_true_iff.mp hdue).1), nil_append]

lemma pickNext_none_due (hsound : ∀ b ∈ bs, b.Sound) (hasc : Ascending floor bs)
    (hnone : ∀ b ∈ bs, b.isDue ceiling = false) :
    pickNext floor ceiling scap [] (allRecords bs) =
      if scap < (JournalRecord.allBytes ((allRecords bs).filter
          fun r => decide (r.lsn ≤ ceiling))).length then
        .error exceedsReplicationBuffer
      else .ok none := by
  have hmarker : ∀ r ∈ allRecords bs, r.isCommit → ceiling < r.lsn := by
    intro r hr hcom
    obtain ⟨b, hb, hr⟩ := mem_flatMap.mp hr
    obtain ⟨hbatch, hlsn⟩ := (hsound b hb).eq_of_isCommit hr hcom
    have hdue := hnone b hb
    unfold isDue at hdue
    rw [hbatch, Bool.true_and, decide_eq_false_iff_not] at hdue
    omega
  have htaken := taken_eq_filter (ascends_allRecords hasc) hmarker
  rw [pickNext_batches hasc, handedOver, htaken]
  congr 2
  rcases hlast : ((allRecords bs).filter fun r => decide (r.lsn ≤ ceiling)).getLast? with
    _ | r
  · rw [hlast]
  have hmem := mem_of_getLast? hlast
  obtain ⟨hr, hle⟩ := mem_filter.mp hmem
  have hle := of_decide_eq_true hle
  rw [hlast]
  refine if_neg fun hcom => ?_
  have := hmarker r hr hcom
  omega

end Batches

/-! ## The condition -/

section Condition

variable {C : CatalogCodec} {floor ceiling scap : ℕ} {batches pre : List (Batch C)}

/-- The cursor on a list of batches. -/
def pickFrom (ceiling scratchCapacity : ℕ) (batches : List (Batch C)) (floor : ℕ) :
    Except SqlError (Option (ℕ × Bytes)) :=
  pickNext floor ceiling scratchCapacity [] (Batch.allRecords batches)

/-- **The next delivery**, if the condition holds. -/
theorem Isolated.next (h : Isolated ceiling scap batches) (hsound : ∀ b ∈ batches, b.Sound)
    (hasc : Ascending floor batches) :
    pickFrom ceiling scap batches floor = .ok ((batches.find? (isDue ceiling)).map handed) := by
  rcases batches with _ | ⟨b, rest⟩
  · rfl
  unfold Isolated at h
  unfold pickFrom
  rcases hdue : b.isDue ceiling with _ | _
  · rw [hdue] at h
    have hnone : ∀ b' ∈ b :: rest, b'.isDue ceiling = false :=
      forall_mem_cons.mpr ⟨hdue, h.1⟩
    rw [pickNext_none_due hsound hasc hnone, if_neg (not_lt.mpr h.2),
      find?_eq_none.mpr fun b' hb' => by rw [hnone b' hb']; exact Bool.false_ne_true]
    rfl
  rw [hdue, if_pos rfl] at h
  have hpick := @pickNext_before_due C floor ceiling scap b rest [] hsound hasc
    (fun b' hb' => (not_mem_nil hb').elim) hdue
  rw [nil_append] at hpick
  rw [hpick, find?_cons_of_pos hdue, if_neg]
  · rfl
  · change ¬ scap < 0 + b.bytes.length
    omega

section Deliveries

variable {next : ℕ → Except SqlError (Option (ℕ × Bytes))} {fuel : ℕ}

end Deliveries

end Condition

/-! ## Both cursors -/

section Cursors

variable {C : CatalogCodec} {ceiling scap : ℕ}

/-- A higher floor walks fewer batches. Induction on the batches. -/
lemma PublishedChain.walked_sublist_of_le {floor floor' : ℕ} (h : floor ≤ floor')
    (bs : List (PublishedBatch C)) : (walked floor' bs).Sublist (walked floor bs) := by
  induction bs with
  | nil => exact List.Sublist.refl _
  | cons b older ih =>
    refine List.Sublist.cons_cons b ?_
    split_ifs with hhigh hlow
    · exact List.Sublist.refl _
    · exact nil_sublist _
    · omega
    · exact ih

lemma PublishedChain.Fits.mono {chain : PublishedChain C} {bkt : CommitBucket}
    {cap commitBatches floor : ℕ} (h : chain.Fits bkt 0 cap commitBatches) :
    chain.Fits bkt floor cap commitBatches := by
  have hsub := walked_sublist_of_le (Nat.zero_le floor) chain.batches
  exact ⟨Nat.le_trans hsub.length_le h.1, fun b hb => h.2 b (hsub.subset hb)⟩

end Cursors

/-! ## A prepared transaction handed over -/

end Pos3ql
