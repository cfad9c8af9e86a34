import Pos3ql.Commit.CommitCursor
import Pos3ql.Foundation.SortedMap
import Pos3ql.Wal.Recording

/-!
# Merging the journal and the published chain

At startup the records of the local journal and of the published chain are collected by LSN and then
applied in order. A record of the journal is put in first and the chain's record does not replace
it, on the assumption that the two copies of a record are the same bytes. Source: `sql/mod.rs`
(`recovered`).

The assumption fails for a host that journaled a batch, lost the ownership of the commit head before
publishing it, and comes back after another writer has used the same LSNs.

* `recoverRecords`: the collection.
* **`recovery_follows_chain_iff`**: the collected records are the published ones, wherever the chain
  has a record, if and only if the journal has no other record there.
* `recovery_keeps_unpublished`: a host that comes back with a batch that was never published.
-/

namespace Pos3ql

open Foundation List

/-- The errors of the collection. Source: `EngineSetupError`. -/
inductive EngineSetupError
  | wal (error : WalSetupError)
  | checkpoint (error : CheckpointSetupError)

/-- The parts of the checkpointer the collection uses. Source: `Checkpointer`. -/
structure Checkpointer where
  client : CommitBucket
  responseCapacity : ℕ
  commitBatches : ℕ
  commitHead : Option CommitBatchId

/-- Source: `recovered`, `journal_tip` and `segment_tip`. -/
structure Recovered where
  records : SortedMap ℕ Bytes
  journalTip : ℕ
  segmentTip : ℕ

/-- Source: the closure given to `replay`. -/
def collectJournaled (r : Recovered) (lsn : ℕ) (record : Bytes) : Recovered :=
  { r with journalTip := max r.journalTip lsn, records := r.records.insert lsn record }

/-- Source: the closure given to `replay_commit_batches`. -/
def collectPublished (r : Recovered) (lsn : ℕ) (record : Bytes) : Recovered :=
  { r with segmentTip := max r.segmentTip lsn, records := r.records.insertNew lsn record }

/-- Source: the collection in the engine's startup. -/
def recoverRecords (C : CatalogCodec) (wal : Wal) (ckpt : Option Checkpointer) (replayFloor : ℕ)
    (reads : ℕ → ℕ) : Except EngineSetupError (Recovered × Wal) :=
  match wal.replay C replayFloor (always collectJournaled)
      ⟨.empty, replayFloor, replayFloor⟩ reads with
  | .error e => .error (.wal e)
  | .ok (recovered, wal) =>
    match ckpt with
    | none => .ok (recovered, wal)
    | some c =>
      match replayCommitBatches replayFloor c.client c.responseCapacity c.commitBatches c.commitHead
          (fun _ => always collectPublished) recovered with
      | .error e => .error (.checkpoint e)
      | .ok recovered => .ok (recovered, wal)

section Merge

variable {C : CatalogCodec}

lemma records_foldEntries_journaled (r : Recovered) (es : List (ℕ × Bytes)) :
    (foldEntries collectJournaled r es).records =
      es.foldl (fun m e => m.insert e.1 e.2) r.records := by
  induction es generalizing r with
  | nil => rfl
  | cons e rest ih => exact ih _

/-- The chain's records are only added. Induction on them. -/
lemma records_published (es : List (CommitBatchId × ℕ × Bytes)) (r : Recovered) :
    ∃ out, es.foldlM (fun r entry => ((fun _ => always collectPublished) entry.1 r entry.2.1
        entry.2.2).mapError CheckpointSetupError.replay) r = .ok out ∧
      out.records = (es.map Prod.snd).foldl (fun m e => m.insertNew e.1 e.2) r.records := by
  induction es generalizing r with
  | nil => exact ⟨r, rfl, rfl⟩
  | cons entry rest ih => exact ih (collectPublished r entry.2.1 entry.2.2)

lemma PublishedChain.published_distinct (chain : PublishedChain C) (floor : ℕ) :
    ((chain.published floor).map Prod.snd).Pairwise fun e e' => e.1 ≠ e'.1 := by
  have hsorted := (JournalRecord.pairwise_of_ascends chain.ascends).2
  have hrecs : (chain.taggedRecords.map Prod.snd).Pairwise fun r r' => r.lsn < r'.lsn := by
    rw [taggedRecords_snd]
    exact hsorted
  rw [published_eq]
  rw [pairwise_map] at hrecs ⊢
  refine List.Pairwise.filter _ ?_
  rw [pairwise_map]
  exact hrecs.imp fun hlt => ne_of_lt hlt

lemma PublishedChain.mem_published {chain : PublishedChain C} {floor : ℕ} {b : PublishedBatch C}
    (hb : b ∈ chain.batches) {r : JournalRecord C} (hr : r ∈ b.records) (hfloor : floor < r.lsn) :
    r.entry ∈ (chain.published floor).map Prod.snd := by
  refine mem_map.mpr ⟨(b.id, r.entry), mem_flatMap.mpr ⟨b, mem_reverse.mpr hb, ?_⟩, rfl⟩
  refine mem_map_of_mem (mem_filter.mpr ⟨mem_map_of_mem hr, ?_⟩)
  exact decide_eq_true hfloor

/-- **When recovery follows the chain.** For every local journal and every intact published chain,
the collected record at each LSN of the chain above the replay floor is the published one if and
only if, should the chain fit the memory set aside for reading it, no record that the journal yields
there is another one. -/
theorem recovery_follows_chain_iff {chain : PublishedChain C} {bucket : CommitBucket}
    {capacity commitBatches replayFloor : ℕ}
    (hdescribed : PublishedChain.Described bucket chain.batches) (hintact : chain.Intact bucket)
    (hcapacity : ∀ b ∈ chain.batches, ∀ r ∈ b.records, r.bytes.length ≤ capacity)
    (wal : Wal) (reads : ℕ → ℕ) :
    (∀ recovered wal', recoverRecords C wal (some ⟨bucket, capacity, commitBatches, chain.head⟩)
        replayFloor reads = .ok (recovered, wal') →
      ∀ b ∈ chain.batches, ∀ r ∈ b.records, replayFloor < r.lsn →
        recovered.records.get r.entry.1 = some r.entry.2) ↔
    (chain.Fits bucket replayFloor capacity commitBatches →
      ∀ journaled wal', wal.replay C replayFloor recordEntry [] reads = .ok (journaled, wal') →
        ∀ b ∈ chain.batches, ∀ r ∈ b.records, replayFloor < r.lsn →
          ∀ record, (r.entry.1, record) ∈ journaled → record = r.entry.2) := by
  have hreplay := @Wal.replay_always C replayFloor Recovered collectJournaled
    ⟨.empty, replayFloor, replayFloor⟩ wal reads
  unfold recoverRecords
  rw [hreplay]
  rcases hlocal : wal.replay C replayFloor recordEntry [] reads with e | ⟨journaled, wal₁⟩
  · -- the journal is refused
    constructor
    · nofun
    · nofun
  dsimp only [Except.map]
  have hdist : journaled.Pairwise fun e e' => e.1 ≠ e'.1 :=
    (Wal.replay_ascending hlocal).imp fun hlt => ne_of_lt hlt
  have hrecs := records_foldEntries_journaled ⟨.empty, replayFloor, replayFloor⟩ journaled
  generalize foldEntries collectJournaled ⟨.empty, replayFloor, replayFloor⟩ journaled = start
    at hrecs ⊢
  by_cases hfits : chain.Fits bucket replayFloor capacity commitBatches
  swap
  · -- the chain is not read
    obtain ⟨e, he⟩ :=
      @PublishedChain.replayCommitBatches_error C _ chain bucket replayFloor capacity
      commitBatches (fun _ => always collectPublished) hdescribed hcapacity (fun h => hfits h.1)
        start
    rw [he]
    constructor
    · exact fun _ h => absurd h hfits
    · nofun
  obtain ⟨out, hout, hmerged⟩ := records_published (chain.published replayFloor) start
  rw [PublishedChain.replay_intact hdescribed hcapacity hintact hfits, hout]
  have hget : ∀ b ∈ chain.batches, ∀ r ∈ b.records, replayFloor < r.lsn →
      out.records.get r.entry.1 = (start.records.get r.entry.1).or (some r.entry.2) := by
    intro b hb r hr hfloor
    rw [hmerged]
    exact SortedMap.get_foldl_insertNew (chain.published_distinct replayFloor)
      (PublishedChain.mem_published hb hr hfloor)
  constructor
  · intro hfol _ journaled' wal' hok b hb r hr hfloor record hrec
    cases hok
    have hpublished := hfol out wal₁ rfl b hb r hr hfloor
    rw [hget b hb r hr hfloor, hrecs, SortedMap.get_foldl_insert hdist hrec] at hpublished
    exact Option.some.inj hpublished
  intro hagrees recovered wal' hok b hb r hr hfloor
  cases hok
  rw [hget b hb r hr hfloor]
  by_cases hjournaled : ∃ record, (r.entry.1, record) ∈ journaled
  · obtain ⟨record, hrec⟩ := hjournaled
    rw [hrecs, SortedMap.get_foldl_insert hdist hrec,
      hagrees hfits journaled wal₁ rfl b hb r hr hfloor record hrec]
    rfl
  have hnone : start.records.get r.entry.1 = none := by
    rw [hrecs]
    refine SortedMap.get_foldl_insert_of_not_mem fun e he heq => hjournaled ⟨e.2, ?_⟩
    rw [← heq]
    exact he
  rw [hnone]
  rfl

end Merge

/-! ## A host that comes back -/

/-- A writer inserts a row and commits. There are two of them, with different rows: one loses the
commit head before it publishes, and the other then publishes. -/
def writerCalls (publishes : Bool) : List (JournalCall .rowsOnly) :=
  [.stage 5 7 0 (.insertByte 1 (if publishes then 8 else 9)), .commitStage 7 0 true 1700, .commit]

/-- Its journal. -/
def writerJournal (publishes : Bool) : Journal .rowsOnly :=
  ((Journal.create .rowsOnly 400 300 2).run (writerCalls publishes)).getD
    (Journal.create .rowsOnly 400 300 2)

lemma writerJournal_run (publishes : Bool) :
    (Journal.create .rowsOnly 400 300 2).run (writerCalls publishes) =
      some (writerJournal publishes) := by
  have hsome : ((Journal.create .rowsOnly 400 300 2).run (writerCalls publishes)).isSome := by
    revert publishes
    decide +kernel
  obtain ⟨j, hj⟩ := Option.isSome_iff_exists.mp hsome
  unfold writerJournal
  rw [hj]
  rfl

/-- What a writer publishes. -/
def writerChain (publishes : Bool) : PublishedChain .rowsOnly :=
  have hflushed := (Journal.run_inv (writerJournal_run publishes) (Journal.create_inv ..)).flushed
  .ofBatches (writerJournal publishes).batches hflushed.1 hflushed.2

/-- The host that lost the commit head, after a restart. -/
def writerRestart : Wal :=
  ⟨(writerJournal false).wal.file ++ zeros (400 - (writerJournal false).wal.file.length), [], 300,
    replicate 2 ⟨0, 5, []⟩, 0, 0, false, 0, 0⟩

/-- The checkpointer that reads the other writer's chain. -/
def otherChain : Checkpointer := ⟨(writerChain true).store, 400, 8, (writerChain true).head⟩

/-- **The unpublished record wins.** Both writers use the LSNs 1 to 3; what is collected at LSN 2 is
the row that was never published. -/
theorem recovery_keeps_unpublished :
    Wal.openFile (writerJournal false).wal.file 400 300 2 = .ok writerRestart ∧
      (writerChain true).records.map JournalRecord.lsn = [1, 2, 3] ∧
      ∃ record published, (2, record) ∈ (writerChain false).records.map JournalRecord.entry ∧
        (2, published) ∈ (writerChain true).records.map JournalRecord.entry ∧ record ≠ published ∧
        (recoverRecords .rowsOnly writerRestart (some otherChain) 0 fun _ => 400).toOption.map
          (fun out => out.1.records.get 2) = some (some record) := by
  refine ⟨if_neg (by decide +kernel), by decide +kernel, ?_⟩
  refine ⟨((writerChain false).records.map fun r => r.entry.2).getD 1 [],
    ((writerChain true).records.map fun r => r.entry.2).getD 1 [], ?_, ?_, ?_, ?_⟩
  · decide +kernel
  · decide +kernel
  · decide +kernel
  · decide +kernel

/-- The journal that comes back disagrees with the chain. -/
theorem recovery_follows_chain_returning :
    (∀ b ∈ (writerChain true).batches, ∀ r ∈ b.records, r.bytes.length ≤ 400) ∧
      ¬ ((writerChain true).Fits (writerChain true).store 0 400 8 →
        ∀ journaled wal', writerRestart.replay .rowsOnly 0 recordEntry [] (fun _ => 400) =
          .ok (journaled, wal') → ∀ b ∈ (writerChain true).batches, ∀ r ∈ b.records, 0 < r.lsn →
            ∀ record, (r.entry.1, record) ∈ journaled → record = r.entry.2) := by
  have hroom : ∀ b ∈ (writerChain true).batches, ∀ r ∈ b.records, r.bytes.length ≤ 400 := by
    decide +kernel
  have hdiffers : ∀ r ∈ (writerChain true).records, r.lsn = 2 →
      (recoverRecords .rowsOnly writerRestart (some otherChain) 0 fun _ => 400).toOption.map
        (fun out => out.1.records.get r.entry.1) ≠ some (some r.entry.2) := by
    decide +kernel
  have hsecond : ∃ r ∈ (writerChain true).records, r.lsn = 2 := by decide +kernel
  have hok : (recoverRecords .rowsOnly writerRestart (some otherChain) 0
      fun _ => 400).toOption.isSome = true := by decide +kernel
  refine ⟨hroom, fun hagrees => ?_⟩
  revert hdiffers hsecond hok
  unfold otherChain
  revert hroom hagrees
  generalize writerChain true = chain
  intro hroom hagrees hdiffers hsecond hok
  have hfol := (recovery_follows_chain_iff chain.store_described chain.store_intact hroom
    writerRestart fun _ => 400).mpr hagrees
  obtain ⟨r, hr, hlsn⟩ := hsecond
  obtain ⟨b, hb, hr'⟩ := mem_flatMap.mp hr
  rcases hrecover : recoverRecords .rowsOnly writerRestart
    (some ⟨chain.store, 400, 8, chain.head⟩) 0 fun _ => 400 with e | ⟨recovered, wal'⟩
  · rw [hrecover] at hok
    cases hok
  · refine hdiffers r hr hlsn ?_
    rw [hrecover]
    exact congrArg some (hfol recovered wal' hrecover b (mem_reverse.mp hb) r hr' (by omega))

end Pos3ql
