import Pos3ql.Wal.Journal

/-!
# What recovery reads

`replay` works through a fixed buffer and with reads of any length. `Scans` says what it computes
without either: it judges the file from the parsed offset on, record after record, until the journal
ends or is refused.

* **`replayLoop_eq`**: with a buffer that holds a header, the buffered loop computes exactly that,
  whatever the reads return. The invariant is `Loaded`: the buffer is a stretch of the file from the
  parsed offset on.
* **`Wal.replay_eq`**: the same for `replay` as a whole.
-/

namespace Pos3ql

open Foundation List

section Scans

variable {σ : Type} (C : CatalogCodec) (file : Bytes) (bufferCapacity floor : ℕ)
  (apply : σ → ℕ → Bytes → Except SqlError σ)

/-- The verdict on the file at the parsed offset. -/
def verdict (p : ReplayProgress σ) : FrameCheck :=
  checkFrame C bufferCapacity p.lastSeenLsn (file.drop p.parsedOffset) (file.drop p.parsedOffset)

/-- **What replay computes**: the callback's result, the last LSN and the write offset, or an
error. -/
inductive Scans : ReplayProgress σ → Except WalSetupError (σ × ℕ × ℕ) → Prop
  | stop {p : ReplayProgress σ} :
      verdict C file bufferCapacity p = .stop ∨ verdict C file bufferCapacity p = .needMore →
      Scans p (.ok (p.applied, p.lastLsn, p.writeOffset))
  | refuse {p : ReplayProgress σ} {e : WalSetupError} :
      verdict C file bufferCapacity p = .refuse e → Scans p (.error e)
  | fail {p : ReplayProgress σ} {lsn total : ℕ} {kind : UInt8} {raw : Bytes} {e : WalSetupError} :
      verdict C file bufferCapacity p = .accept lsn kind raw total →
      acceptRecord floor apply p lsn kind raw total = .error e → Scans p (.error e)
  | accept {p p' : ReplayProgress σ} {lsn total : ℕ} {kind : UInt8} {raw : Bytes}
      {res : Except WalSetupError (σ × ℕ × ℕ)} :
      verdict C file bufferCapacity p = .accept lsn kind raw total →
      acceptRecord floor apply p lsn kind raw total = .ok p' → Scans p' res → Scans p res

variable {C file bufferCapacity floor apply} {res : Except WalSetupError (σ × ℕ × ℕ)}
  {st : ReplayState σ} {p : ReplayProgress σ}

section

variable (h : Scans C file bufferCapacity floor apply p res)
include h

lemma Scans.of_accept {lsn total : ℕ} {kind : UInt8} {raw : Bytes}
    (hv : verdict C file bufferCapacity p = .accept lsn kind raw total) :
    (∃ e, acceptRecord floor apply p lsn kind raw total = .error e ∧ res = .error e) ∨
      ∃ p', acceptRecord floor apply p lsn kind raw total = .ok p' ∧
        Scans C file bufferCapacity floor apply p' res := by
  cases h with
  | stop hstop =>
    rw [hv] at hstop
    rcases hstop with h | h <;> cases h
  | refuse hrefuse =>
    rw [hv] at hrefuse
    cases hrefuse
  | fail hfail herr =>
    rw [hv] at hfail
    obtain ⟨rfl, rfl, rfl, rfl⟩ := FrameCheck.accept.inj hfail
    exact .inl ⟨_, herr, rfl⟩
  | accept hacc hok hscan =>
    rw [hv] at hacc
    obtain ⟨rfl, rfl, rfl, rfl⟩ := FrameCheck.accept.inj hacc
    exact .inr ⟨_, hok, hscan⟩

lemma Scans.of_stop
    (hv : verdict C file bufferCapacity p = .stop ∨ verdict C file bufferCapacity p = .needMore) :
    res = .ok (p.applied, p.lastLsn, p.writeOffset) := by
  cases h with
  | stop => rfl
  | refuse h | fail h | accept h => rcases hv with hv | hv <;> rw [hv] at h <;> cases h

lemma Scans.of_refuse {e : WalSetupError}
    (hv : verdict C file bufferCapacity p = .refuse e) : res = .error e := by
  cases h with
  | stop h => rw [hv] at h; rcases h with h | h <;> cases h
  | refuse h => rw [hv] at h; cases h; rfl
  | fail h | accept h => rw [hv] at h; cases h

end

lemma acceptRecord_ok {p' : ReplayProgress σ} {lsn total : ℕ} {kind : UInt8} {raw : Bytes}
    (hok : acceptRecord floor apply p lsn kind raw total = .ok p') :
    p'.parsedOffset = p.parsedOffset + total ∧ p'.lastSeenLsn = lsn := by
  unfold acceptRecord at hok
  split_ifs at hok
  · cases hok
    exact ⟨rfl, rfl⟩
  · obtain ⟨applied, -, hok⟩ := ok_of_bind_ok hok
    cases hok
    exact ⟨rfl, rfl⟩

/-! ## The buffered loop -/

/-- The buffer is the stretch of the file from the parsed offset to the file offset. -/
structure Loaded (file : Bytes) (st : ReplayState σ) : Prop where
  le : st.parsedOffset ≤ st.fileOffset
  bound : st.fileOffset ≤ file.length
  buffer : st.buffer = (file.drop st.parsedOffset).take (st.fileOffset - st.parsedOffset)

lemma Loaded.length_buffer (h : Loaded file st) :
    st.buffer.length = st.fileOffset - st.parsedOffset := by
  have := h.le
  have := h.bound
  rw [h.buffer, length_take, length_drop]
  omega

lemma Loaded.buffer_prefix (h : Loaded file st) : st.buffer <+: file.drop st.parsedOffset := by
  rw [h.buffer]
  exact take_prefix _ _

lemma Loaded.read (h : Loaded file st) {n : ℕ} (hn : n ≤ file.length - st.fileOffset) :
    Loaded file { st with
      buffer := st.buffer ++ (file.drop st.fileOffset).take n
      fileOffset := st.fileOffset + n } := by
  have hle := h.le
  have hbound := h.bound
  refine ⟨by dsimp only; omega, by dsimp only; omega, ?_⟩
  dsimp only
  have hsplit : st.fileOffset + n - st.parsedOffset = (st.fileOffset - st.parsedOffset) + n := by
    omega
  rw [hsplit, take_add, drop_drop, ← h.buffer]
  congr 3
  omega

lemma Loaded.consume (h : Loaded file st) {total : ℕ} (htotal : total ≤ st.buffer.length)
    (hp : p.parsedOffset = st.parsedOffset + total) :
    Loaded file ⟨p, st.buffer.drop total, st.fileOffset⟩ := by
  have hle := h.le
  rw [h.length_buffer] at htotal
  refine ⟨by dsimp only; omega, h.bound, ?_⟩
  dsimp only
  rw [h.buffer, drop_take, drop_drop, hp]
  congr 1
  omega

variable {reads : ℕ → ℕ}

/-- **The buffered loop computes the scan.** Induction on the fuel; each round either reads at least
a byte or consumes at least a header. -/
theorem replayLoop_eq (hcap : headerLen ≤ bufferCapacity) {fuel : ℕ} (hload : Loaded file st)
    (hfuel : 2 * (file.length - st.fileOffset) + st.buffer.length < fuel)
    (hscan : Scans C file bufferCapacity floor apply st.toReplayProgress res) :
    (replayLoop C file bufferCapacity floor apply reads fuel st).map
      (fun st => (st.applied, st.lastLsn, st.writeOffset)) = res := by
  induction fuel generalizing st with
  | zero => nomatch hfuel
  | succ fuel ih =>
    unfold replayLoop
    rcases hcheck : checkFrame C bufferCapacity st.lastSeenLsn (file.drop st.parsedOffset)
      st.buffer with _ | _ | e | ⟨lsn, kind, raw, total⟩
    · -- more bytes are needed
      dsimp only
      have hroom := length_lt_of_needMore hcap hcheck
      split_ifs with hwant
      · -- the file has been read to its end: the verdict on all of it is the same
        have hend : st.fileOffset = file.length := by
          have := hload.bound
          omega
        have hall : st.buffer = file.drop st.parsedOffset := by
          rw [hload.buffer, hend]
          exact take_of_length_le (le_of_eq (length_drop ..))
        rw [hall] at hcheck
        rw [hscan.of_stop (.inr hcheck)]
        rfl
      · refine ih (hload.read (by omega)) ?_ hscan
        dsimp only
        rw [length_append, length_take]
        have := hload.bound
        omega
    · have hv := checkFrame_mono hload.buffer_prefix (by rw [hcheck]; simp)
      rw [hcheck] at hv
      rw [hscan.of_stop (.inl hv.symm)]
      rfl
    · have hv := checkFrame_mono hload.buffer_prefix (by rw [hcheck]; simp)
      rw [hcheck] at hv
      rw [hscan.of_refuse hv.symm]
      rfl
    · have hv := checkFrame_mono hload.buffer_prefix (by rw [hcheck]; simp)
      rw [hcheck] at hv
      obtain ⟨hheader, htotal, -, -⟩ := accept_total hcheck
      dsimp only
      rcases hscan.of_accept hv.symm with ⟨e, herr, rfl⟩ | ⟨p', hok, hscan'⟩
      · rw [herr]
        rfl
      rw [hok]
      refine ih (hload.consume htotal (acceptRecord_ok hok).1) ?_ hscan'
      dsimp only
      rw [length_drop]
      unfold headerLen at hheader
      omega

/-- A buffer too small for a header: nothing is ever accepted. Induction on the fuel. -/
lemma replayLoop_small (hcap : bufferCapacity < headerLen) {fuel : ℕ}
    (hbuf : st.buffer.length ≤ bufferCapacity) :
    (replayLoop C file bufferCapacity floor apply reads fuel st).map ReplayState.toReplayProgress =
      .ok st.toReplayProgress := by
  induction fuel generalizing st with
  | zero => rfl
  | succ fuel ih =>
    have hmore : checkFrame C bufferCapacity st.lastSeenLsn (file.drop st.parsedOffset) st.buffer =
        .needMore := by
      unfold checkFrame
      rw [if_pos (by omega)]
    unfold replayLoop
    rw [hmore]
    dsimp only
    split_ifs with hwant
    · rfl
    refine (@ih { st with
      buffer := _
      fileOffset := _ } ?_).trans rfl
    rw [length_append, length_take]
    omega

/-- **What `replay` returns**, and where it leaves the journal. -/
theorem Wal.replay_eq {w : Wal} {start : σ} (hcap : headerLen ≤ w.bufferCapacity)
    (hscan : Scans C w.file w.bufferCapacity floor apply ⟨0, 0, [], w.lastLsn, w.writeOffset, start⟩
      res) :
    w.replay C floor apply start reads = res.map fun out =>
      (out.1, { w with buffer := [], lastLsn := out.2.1, writeOffset := out.2.2 }) := by
  have hload : Loaded w.file
      (⟨⟨0, 0, [], w.lastLsn, w.writeOffset, start⟩, [], 0⟩ : ReplayState σ) :=
    ⟨Nat.le_refl 0, zero_le, rfl⟩
  have hloop := @replayLoop_eq _ C w.file w.bufferCapacity floor apply res _ reads hcap
    (2 * w.file.length + 1) hload (by simp) hscan
  unfold Wal.replay
  rw [← hloop]
  rcases replayLoop C w.file w.bufferCapacity floor apply reads (2 * w.file.length + 1)
    ⟨⟨0, 0, [], w.lastLsn, w.writeOffset, start⟩, [], 0⟩ with e | st
  · rfl
  · rfl

/-- `replay` with a buffer too small for a header leaves the journal as it is. -/
lemma Wal.replay_small {w : Wal} {start : σ} (hcap : w.bufferCapacity < headerLen) :
    w.replay C floor apply start reads = .ok (start, { w with buffer := [] }) := by
  have hloop := @replayLoop_small _ C w.file w.bufferCapacity floor apply
    ⟨⟨0, 0, [], w.lastLsn, w.writeOffset, start⟩, [], 0⟩ reads hcap (2 * w.file.length + 1) zero_le
  unfold Wal.replay
  revert hloop
  rcases replayLoop C w.file w.bufferCapacity floor apply reads (2 * w.file.length + 1)
    ⟨⟨0, 0, [], w.lastLsn, w.writeOffset, start⟩, [], 0⟩ with e | st
  · nofun
  intro hloop
  have hprogress : st.toReplayProgress = ⟨0, 0, [], w.lastLsn, w.writeOffset, start⟩ :=
    Except.ok.inj hloop
  change Except.ok (st.applied, { w with
    buffer := []
    lastLsn := st.lastLsn
    writeOffset := st.writeOffset }) = _
  rw [hprogress]

end Scans

end Pos3ql
