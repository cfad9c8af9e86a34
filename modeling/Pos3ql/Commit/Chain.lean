import Pos3ql.Commit.Descriptor
import Pos3ql.Wal.Batches

/-!
# The chain of commit batches

Committed batches are published as objects, each with a descriptor that names the batch before it;
the object `commit-head` names the newest. Recovery walks the chain back to its floor and then reads
the batches forward, through a response buffer of fixed size. Source: `checkpoint.rs`
(`replay_commit_batches`, `replay_segment_bytes`).

`CommitBucket` is what the store returns for the two objects of a batch: bytes, or an error. The
callback is told which batch a record was read from; the source's callback is not, and ignores it
here. A response is as long as the range that was asked for, or ends where the object ends.
-/

namespace Pos3ql

open Foundation

/-! ## Requests -/

/-- The errors of a request for an object, but for a range past its end. Source: `Error`; the cases
that a read cannot tell apart are one, with their text. -/
inductive ObjectError
  | status (code : ℕ) (serviceCode message : String)
  | responseTooLarge (contentLength capacity : ℕ)
  | request (detail : String)
  deriving DecidableEq, Repr

/-- Source: `Display for Error`. -/
def ObjectError.text : ObjectError → String
  | .status code serviceCode message =>
    if serviceCode = "" then s!"object store returned {code}: {message}"
    else s!"object store returned {code} ({serviceCode}): {message}"
  | .responseTooLarge contentLength capacity =>
    s!"object store response of {contentLength} bytes exceeds buffer of {capacity}"
  | .request detail => detail

/-- Source: `CheckpointSetupError`, the errors of `replay_commit_batches`. -/
inductive CheckpointSetupError
  | request (context : String) (error : ObjectError)
  | objectStore (detail : String)
  | corrupt (what : String)
  | replay (error : SqlError)
  deriving DecidableEq, Repr

/-- Source: `Display for CheckpointSetupError`. -/
def CheckpointSetupError.text : CheckpointSetupError → String
  | .request context error => s!"checkpoint: {context}: {error.text}"
  | .objectStore detail => s!"checkpoint: {detail}"
  | .corrupt what => s!"checkpoint: corrupt bucket state: {what}"
  | .replay error => s!"checkpoint: wal replay failed: {error.message}"

/-- What the store returns for the objects of the batches. -/
structure CommitBucket where
  descriptor : CommitBatchId → Except ObjectError Bytes
  batch : CommitBatchId → Except ObjectError Bytes

/-- Source: `Client::get` without a range. -/
def getObject (capacity : ℕ) (object : Except ObjectError Bytes) : Except ObjectError Bytes := do
  let bytes ← object
  if capacity < bytes.length then .error (.responseTooLarge bytes.length capacity) else .ok bytes

/-- Source: `Client::get` with the range from `first` to `last`; no bytes when it starts past the
end (status 416). -/
def getRange (object : Except ObjectError Bytes) (first last : ℕ) :
    Except ObjectError (Option Bytes) := do
  let bytes ← object
  if bytes.length ≤ first then .ok none
  else .ok (some ((bytes.drop first).take (last + 1 - first)))

/-! ## Reading the chain -/

section Replay

variable {σ : Type} (floor : ℕ)

/-- Source: `replay_segment_bytes`; the result is the number of bytes consumed. Every round takes at
least a header, so the length of the bytes bounds the rounds. -/
def replaySegmentBytes (apply : σ → ℕ → Bytes → Except SqlError σ) :
    ℕ → σ → Bytes → Except SqlError (ℕ × σ)
  | 0, applied, _ => .ok (0, applied)
  | fuel + 1, applied, bytes =>
    if bytes.length < headerLen then .ok (0, applied)
    else if bytes.length < frameTotal bytes then .ok (0, applied)
    else if !crcMatches bytes then .ok (0, applied)
    else do
      let applied ←
        if floor < frameLsn bytes then
          apply applied (frameLsn bytes) ((bytes.take (frameTotal bytes)).drop 16)
        else .ok applied
      let (consumed, applied) ←
        replaySegmentBytes apply fuel applied (bytes.drop (frameTotal bytes))
      .ok (frameTotal bytes + consumed, applied)

/-- Source: the loop over the windows of one batch in `replay_commit_batches`. Every round but the
last consumes a byte, so one more than the object's length bounds the rounds. -/
def replayWindows (capacity : ℕ) (key : String) (object : Except ObjectError Bytes)
    (apply : σ → ℕ → Bytes → Except SqlError σ) : ℕ → ℕ → σ → Except CheckpointSetupError σ
  | 0, _, applied => .ok applied
  | fuel + 1, offset, applied =>
    match getRange object offset (offset + capacity - 1) with
    | .error e => .error (.request "get commit batch" e)
    | .ok none => .ok applied
    | .ok (some body) =>
      if body = [] then .ok applied
      else
        match replaySegmentBytes floor apply body.length applied body with
        | .error e => .error (.replay e)
        | .ok (consumed, applied) =>
          if consumed = 0 then
            if body.length < capacity then .ok applied
            else .error (.objectStore (s!"commit record in {key} exceeds " ++
              "object_store_response_bytes; raise it past wal_buffer_bytes"))
          else if body.length < capacity then .ok applied
          else replayWindows capacity key object apply fuel (offset + consumed) applied

/-- The records of one batch object. -/
def replayObject (capacity : ℕ) (key : String) (object : Except ObjectError Bytes)
    (apply : σ → ℕ → Bytes → Except SqlError σ) (applied : σ) : Except CheckpointSetupError σ :=
  replayWindows floor capacity key object apply ((object.map List.length).toOption.getD 0 + 1) 0
    applied

/-- Source: the walk along the descriptors in `replay_commit_batches`, newest batch first. Every
round adds a batch to `scratch`, so one more than its capacity bounds the rounds. -/
def walkCommits (bucket : CommitBucket) (capacity scratchCapacity : ℕ) :
    ℕ → List CommitBatchId → Option CommitBatchId → Except CheckpointSetupError (List CommitBatchId)
  | _, scratch, none => .ok scratch
  | 0, scratch, some _ => .ok scratch
  | fuel + 1, scratch, some current =>
    if scratch.length = scratchCapacity then
      .error
        (.objectStore s!"commit-head chain exceeds checkpoint_commit_batches ({scratchCapacity})")
    else
      match getObject capacity (bucket.descriptor current) with
      | .error e => .error (.request "get commit head" e)
      | .ok body =>
        match parseCommitDescriptor body with
        | .error what => .error (.corrupt what)
        | .ok (described, previous) =>
          if described ≠ current then
            .error (.corrupt "commit descriptor does not match its head")
          else if current.firstLsn ≤ floor then .ok (scratch ++ [current])
          else walkCommits bucket capacity scratchCapacity fuel (scratch ++ [current]) previous

/-- Source: `replay_commit_batches`. -/
def replayCommitBatches (bucket : CommitBucket) (capacity scratchCapacity : ℕ)
    (head : Option CommitBatchId) (apply : CommitBatchId → σ → ℕ → Bytes → Except SqlError σ)
    (start : σ) : Except CheckpointSetupError σ := do
  let scratch ← walkCommits floor bucket capacity scratchCapacity (scratchCapacity + 1) [] head
  scratch.reverse.foldlM
    (fun applied id => replayObject floor capacity id.batchKey (bucket.batch id) (apply id) applied)
    start

end Replay

/-! ## Published chains -/

/-- A batch as it was published: at least one record. -/
structure PublishedBatch (C : CatalogCodec) where
  first : JournalRecord C
  others : List (JournalRecord C)

namespace PublishedBatch

variable {C : CatalogCodec}

/-- The records of a batch. -/
def records (b : PublishedBatch C) : List (JournalRecord C) := b.first :: b.others

/-- Its object. -/
def bytes (b : PublishedBatch C) : Bytes := JournalRecord.allBytes b.records

/-- Its identity. -/
def id (b : PublishedBatch C) : CommitBatchId := .fromBytes b.first.lsn b.bytes

/-- Its records above a floor, as recovery hands them over. -/
def entriesAbove (b : PublishedBatch C) (floor : ℕ) : List (ℕ × Bytes) :=
  (b.records.map JournalRecord.entry).filter fun entry => decide (floor < entry.1)

@[simp]
lemma id_firstLsn (b : PublishedBatch C) : b.id.firstLsn = b.first.lsn := rfl

end PublishedBatch

/-- **A published chain**, newest batch first: the LSNs ascend through all records, from the oldest
batch to the newest. -/
structure PublishedChain (C : CatalogCodec) where
  batches : List (PublishedBatch C)
  sound : ∀ b ∈ batches, ∀ r ∈ b.records, r.Sound
  ascends : JournalRecord.Ascends 0 (batches.reverse.flatMap PublishedBatch.records)

namespace PublishedChain

variable {C : CatalogCodec}

/-- The batch `commit-head` names. -/
def head (chain : PublishedChain C) : Option CommitBatchId :=
    chain.batches.head?.map PublishedBatch.id

/-- Every descriptor is stored, and names the batch before. -/
def Described (bucket : CommitBucket) : List (PublishedBatch C) → Prop
  | [] => True
  | b :: older =>
    bucket.descriptor b.id = .ok (commitDescriptorBytes b.id (older.head?.map PublishedBatch.id)) ∧
      Described bucket older

/-- The batches a walk down to a floor reads, newest first. -/
def walked (floor : ℕ) : List (PublishedBatch C) → List (PublishedBatch C)
  | [] => []
  | b :: older => b :: if b.first.lsn ≤ floor then [] else walked floor older

end PublishedChain

end Pos3ql
