import Pos3ql.Foundation.Text
import Pos3ql.Wal.Records

/-!
# Commit descriptors

A published batch of journal records has two objects: its bytes, and a descriptor that names the
batch before it. Both keys are made from the LSN of its first record and the checksum of its bytes.
Source: `checkpoint.rs` (`CommitBatchId`, `begin_commit_publication`, `parse_commit_descriptor`).

* **`parseCommitDescriptor_bytes`**: a descriptor read back is the descriptor that was written.
-/

namespace Pos3ql

open Foundation Text Option

/-- Source: `CommitBatchId`. -/
structure CommitBatchId where
  firstLsn : ℕ
  digest : UInt32
  deriving DecidableEq, Repr

namespace CommitBatchId

/-- Source: `CommitBatchId::EMPTY`. -/
def empty : CommitBatchId := ⟨0, 0⟩

/-- Source: `CommitBatchId::from_bytes`. -/
def fromBytes (firstLsn : ℕ) (bytes : Bytes) : CommitBatchId := ⟨firstLsn, crc32c bytes⟩

/-- The key of the batch's bytes. -/
def batchKey (id : CommitBatchId) : String :=
  let first := decimal id.firstLsn
  String.ofList ("commits/".toList ++ List.replicate (20 - first.length) '0' ++ first ++
    '-' :: hex 8 id.digest.toNat ++ ".batch".toList)

end CommitBatchId

/-- Source: `COMMIT_HEAD_HEADER`. -/
def commitHeadHeader : Text := "pos3ql-commit-head-v1".toList

/-- Source: the descriptor text in `begin_commit_publication`. -/
def formatCommitDescriptor (batch : CommitBatchId) (previous : Option CommitBatchId) : Text :=
  let before := previous.getD .empty
  commitHeadHeader ++ '\n' :: ("first ".toList ++ decimal batch.firstLsn ++
    '\n' :: ("digest ".toList ++ hex 8 batch.digest.toNat ++
      '\n' :: ("previous ".toList ++ (decimal before.firstLsn ++
        ' ' :: hex 8 before.digest.toNat) ++ '\n' :: ("end".toList ++ ['\n']))))

/-- The largest `u32`. -/
def u32Max : ℕ := 2 ^ 32 - 1

/-- Source: the two words after `previous `. -/
def parsePrevious (word : Text) : Option (ℕ × UInt32) :=
  match splitOn ' ' word with
  | lsn :: digest :: _ =>
    match parseNumber 10 u64Max lsn, parseNumber 16 u32Max digest with
    | some lsn, some digest => some (lsn, UInt32.ofNat digest)
    | _, _ => none
  | _ => none

/-- The line with a keyword. -/
def keywordLine (keyword : String) (line : Option Text) : Option Text :=
  line.bind (stripPrefix keyword.toList)

/-- Source: `parse_commit_descriptor`, on a text. -/
def parseDescriptorText (text : Text) : Except String (CommitBatchId × Option CommitBatchId) :=
  let lines := Text.lines text
  if lines[0]? ≠ some commitHeadHeader then .error "bad commit descriptor header"
  else
    match ((keywordLine "first " lines[1]?).bind (parseNumber 10 u64Max)).filter (· != 0) with
    | none => .error "bad commit descriptor first LSN"
    | some firstLsn =>
      match (keywordLine "digest " lines[2]?).bind (parseNumber 16 u32Max) with
      | none => .error "bad commit descriptor digest"
      | some digest =>
        match (keywordLine "previous " lines[3]?).bind parsePrevious with
        | none => .error "bad commit descriptor previous LSN"
        | some (previousLsn, previousDigest) =>
          if (previousLsn ≠ 0 ∧ firstLsn ≤ previousLsn) ∨
              (previousLsn = 0 ∧ previousDigest ≠ 0) ∨ lines[4]? ≠ some "end".toList ∨
              lines[5]? ≠ none then
            .error "bad commit descriptor chain"
          else
            .ok (⟨firstLsn, UInt32.ofNat digest⟩,
              if previousLsn ≠ 0 then some ⟨previousLsn, previousDigest⟩ else none)

/-- The descriptor object of a batch. -/
def commitDescriptorBytes (batch : CommitBatchId) (previous : Option CommitBatchId) : Bytes :=
  (formatCommitDescriptor batch previous).toUtf8

/-- Source: `parse_commit_descriptor`. -/
def parseCommitDescriptor (bytes : Bytes) : Except String (CommitBatchId × Option CommitBatchId) :=
  match ofUtf8 bytes with
  | none => .error "commit descriptor is not UTF-8"
  | some text => parseDescriptorText text

/-! ## Reading back -/

lemma lines_formatCommitDescriptor (batch : CommitBatchId) (previous : Option CommitBatchId) :
    Text.lines (formatCommitDescriptor batch previous) =
      [commitHeadHeader, "first ".toList ++ decimal batch.firstLsn, "digest ".toList ++ hex 8
        batch.digest.toNat, "previous ".toList ++ (decimal (previous.getD .empty).firstLsn ++
          ' ' :: hex 8 (previous.getD .empty).digest.toNat), "end".toList] := by
  have hplain : ∀ {text : Text}, (text.all fun c => c != '\n' && c != '\r') →
      ∀ c ∈ text, c ≠ '\n' ∧ c ≠ '\r' := by
    intro text hall c hc
    have hc := List.all_eq_true.mp hall c hc
    rw [Bool.and_eq_true, bne_iff_ne, bne_iff_ne] at hc
    exact hc
  have hword : ∀ {keyword word : Text}, (∀ c ∈ keyword, c ≠ '\n' ∧ c ≠ '\r') →
      (∀ c ∈ word, c ≠ '\n' ∧ c ≠ '\r') → ∀ c ∈ keyword ++ word, c ≠ '\n' ∧ c ≠ '\r' := by
    intro keyword word hkeyword hplain c hc
    rcases List.mem_append.mp hc with hc | hc
    · exact hkeyword c hc
    · exact hplain c hc
  have hdecimal : ∀ n, ∀ c ∈ decimal n, c ≠ '\n' ∧ c ≠ '\r' :=
    fun n c hc => ⟨(mem_decimal hc).2.1, (mem_decimal hc).2.2.1⟩
  have hhex : ∀ n, ∀ c ∈ hex 8 n, c ≠ '\n' ∧ c ≠ '\r' :=
    fun n c hc => ⟨(mem_hex hc).2.1, (mem_hex hc).2.2.1⟩
  unfold formatCommitDescriptor
  rw [lines_append (hplain (by decide)), lines_append (hword (hplain (by decide)) (hdecimal _)),
    lines_append (hword (hplain (by decide)) (hhex _)), lines_append ?_]
  · rfl
  refine hword (hplain (by decide)) (hword (hdecimal _) fun c hc => ?_)
  rcases List.mem_cons.mp hc with rfl | hc
  · decide
  · exact hhex _ c hc

lemma parsePrevious_words (batch : CommitBatchId) (hlsn : batch.firstLsn ≤ u64Max) :
    parsePrevious (decimal batch.firstLsn ++ ' ' :: hex 8 batch.digest.toNat) =
      some (batch.firstLsn, batch.digest) := by
  have hspace : ' ' ∉ decimal batch.firstLsn := fun hc => (mem_decimal hc).2.2.2 rfl
  have hspace' : ' ' ∉ hex 8 batch.digest.toNat := fun hc => (mem_hex hc).2.2.2 rfl
  have hdigest : batch.digest.toNat ≤ u32Max := Nat.le_pred_of_lt batch.digest.toNat_lt
  unfold parsePrevious
  rw [splitOn_append hspace, splitOn_of_not_mem hspace']
  dsimp only
  rw [parseNumber_decimal hlsn, parseNumber_hex 8 hdigest]
  simp

/-- **A descriptor read back.** The batch before, if any, has a smaller first LSN. -/
theorem parseDescriptorText_format {batch : CommitBatchId} {prev : Option CommitBatchId}
    (hfirst : batch.firstLsn ≠ 0) (hlsn : batch.firstLsn ≤ u64Max)
    (hprevious : ∀ before, prev = some before →
      before.firstLsn ≠ 0 ∧ before.firstLsn < batch.firstLsn) :
    parseDescriptorText (formatCommitDescriptor batch prev) = .ok (batch, prev) := by
  have hdigest : batch.digest.toNat ≤ u32Max := Nat.le_pred_of_lt batch.digest.toNat_lt
  have hbefore : (prev.getD .empty).firstLsn ≤ u64Max := by
    rcases prev with _ | before
    · exact zero_le
    · have := (hprevious before rfl).2
      change before.firstLsn ≤ u64Max
      omega
  have hkeyword : ∀ (keyword : String) (word : Text),
      keywordLine keyword (some (keyword.toList ++ word)) = some word :=
    fun keyword word => stripPrefix_append ..
  unfold parseDescriptorText
  rw [lines_formatCommitDescriptor]
  simp only [List.getElem?_cons_zero, List.getElem?_cons_succ, List.getElem?_nil, ne_eq,
    not_true_eq_false, if_false, hkeyword, bind_some, parseNumber_decimal hlsn,
    parseNumber_hex 8 hdigest, parsePrevious_words _ hbefore, UInt32.ofNat_toNat, or_false]
  rw [filter_some_pos (by simpa using hfirst)]
  dsimp only
  rcases prev with _ | before
  · rfl
  · obtain ⟨hne, hlt⟩ := hprevious before rfl
    rw [getD_some, if_neg (by omega), if_pos hne]

/-- **A descriptor object read back.** -/
theorem parseCommitDescriptor_bytes {batch : CommitBatchId} {prev : Option CommitBatchId}
    (hfirst : batch.firstLsn ≠ 0) (hlsn : batch.firstLsn ≤ u64Max)
    (hprevious : ∀ before, prev = some before →
      before.firstLsn ≠ 0 ∧ before.firstLsn < batch.firstLsn) :
    parseCommitDescriptor (commitDescriptorBytes batch prev) = .ok (batch, prev) := by
  unfold parseCommitDescriptor commitDescriptorBytes
  rw [ofUtf8_toUtf8]
  exact parseDescriptorText_format hfirst hlsn hprevious

end Pos3ql
