import Pos3ql.Wal.Operations

/-!
# Journal records

A record is a header of 24 bytes (checksum, payload length, LSN, kind, version, padding) and a
payload. Sources: `wal/crc32c.rs`; `wal/mod.rs` (`append_record`, the frame checks of `replay`,
`decode_record`).

* `frame` is what `append_record` writes. `frame_fields` says what the header reads back as.
* `checkFrame` is one round of replay's inner loop: more bytes are needed, the journal ends here, it
  is refused, or a record is accepted. **`checkFrame_frame`**: a frame with an LSN above the last
  one seen is accepted, whatever follows it, once enough bytes are there.
* `checkFrame_mono`: a verdict does not change when more of the file has been read.
-/

namespace Pos3ql

open Foundation List

/-! ## The checksum -/

/-- Source: `crc32c::build_table`. -/
def crcTable (i : UInt32) : UInt32 :=
  (range 8).foldl (fun crc _ => if crc &&& 1 ≠ 0 then (crc >>> 1) ^^^ 0x82F63B78 else crc >>> 1) i

/-- Source: `crc32c::crc32c`. -/
def crc32c (bytes : Bytes) : UInt32 :=
  ~~~ (bytes.foldl (fun crc b => (crc >>> 8) ^^^ crcTable ((crc ^^^ b.toUInt32) &&& 0xff)) (~~~ 0))

example : crc32c [0x31, 0x32, 0x33, 0x34, 0x35, 0x36, 0x37, 0x38, 0x39] = 0xE3069283 := by
  decide +kernel

/-! ## Frames -/

/-- Source: `HEADER_LEN`. -/
def headerLen : ℕ := 24

/-- Source: `RECORD_VERSION`. -/
def recordVersion : UInt8 := 26

/-- A record from its kind byte on: what is handed to recovery. -/
def rawRecord (kind : UInt8) (payload : Bytes) : Bytes :=
  [kind, recordVersion, 0, 0, 0, 0, 0, 0] ++ payload

/-- The bytes the checksum covers. -/
def frameBody (lsn : ℕ) (kind : UInt8) (payload : Bytes) : Bytes :=
  leBytes 4 payload.length ++ (leBytes 8 lsn ++ rawRecord kind payload)

/-- A record as written. -/
def frame (lsn : ℕ) (kind : UInt8) (payload : Bytes) : Bytes :=
  leBytes 4 (crc32c (frameBody lsn kind payload)).toNat ++ frameBody lsn kind payload

/-- The checks made before a record is written. Source: the start of `append_record`. -/
def WalOp.validate {C : CatalogCodec} : WalOp C → Except SqlError Unit
  | .catalog op => C.validate op
  | _ => .ok ()

/-- Source: `append_record`, into a buffer of `capacity` bytes. -/
def appendRecord {C : CatalogCodec} (capacity : ℕ) (buffer : Bytes) (lsn : ℕ)
    (operation : WalOp C) :
    Except SqlError Bytes := do
  operation.validate
  if capacity - buffer.length < headerLen + operation.payload.length then
    .error ⟨.programLimitExceeded,
      s!"transaction exceeds wal_buffer_bytes ({capacity}); raise it or commit in smaller batches"⟩
  else .ok (buffer ++ frame lsn operation.kind operation.payload)

/-! ## Reading a header -/

/-- The stored checksum. -/
def storedCrc (data : Bytes) : ℕ := leNat (data.take 4)

/-- The stored payload length. -/
def payloadLen (data : Bytes) : ℕ := leNat ((data.drop 4).take 4)

/-- The stored LSN. -/
def frameLsn (data : Bytes) : ℕ := leNat ((data.drop 8).take 8)

/-- The stored kind. -/
def frameKind (data : Bytes) : UInt8 := data.getD 16 0

/-- The length of the frame at the front. -/
def frameTotal (data : Bytes) : ℕ := headerLen + payloadLen data

/-- The checksum of the frame at the front is right. -/
def crcMatches (data : Bytes) : Bool :=
  (crc32c ((data.take (frameTotal data)).drop 4)).toNat == storedCrc data

/-- A known kind, this version, and no padding bits. -/
def formatKnown (data : Bytes) : Bool :=
  recordKindKnown (frameKind data) && data.getD 17 0 ==
    recordVersion && ((data.drop 18).take 6).all (· == 0)

/-- The marker that ends a batch. -/
def isBoundary (kind : UInt8) : Bool := kind == kindCommit || kind == kindPrepareTransaction

/-- Source: `WalSetupError`, the errors of `open` and `replay`. -/
inductive WalSetupError
  | unsupportedRecordFormat
  | shrinkRefused (file config : ℕ)
  | replay (error : SqlError)
  deriving DecidableEq, Repr

/-- The verdict on the front of the unparsed bytes. -/
inductive FrameCheck
  | needMore
  | stop
  | refuse (error : WalSetupError)
  | accept (lsn : ℕ) (kind : UInt8) (raw : Bytes) (total : ℕ)
  deriving DecidableEq, Repr

/-- Source: the inner loop of `replay`, up to the acceptance of a record. `rest` is the file from
the unparsed bytes on, `data` what the buffer holds of it, `room` the length of `rest`. -/
def checkFrame (C : CatalogCodec) (bufferCapacity lastSeenLsn : ℕ) (rest data : Bytes) :
    FrameCheck :=
  if data.length < headerLen then .needMore
  else if frameLsn data ≤ lastSeenLsn then .stop
  else if rest.length < frameTotal data then .stop
  else if bufferCapacity - headerLen < payloadLen data then
    -- too long for the buffer: checked against the file before it is believed
    if !crcMatches rest then .stop
    else if !formatKnown data then .refuse .unsupportedRecordFormat
    else
      .refuse
        (.replay ⟨.programLimitExceeded, "wal_buffer_bytes is too small to replay the journal"⟩)
  else if data.length < frameTotal data then .needMore
  else if !crcMatches data then .stop
  else if !formatKnown data then .refuse .unsupportedRecordFormat
  else
    match WalOp.decodeOp C (frameKind data) ((data.take (frameTotal data)).drop headerLen) with
    | none => .refuse (.replay ⟨.dataException,
        s!"invalid journal operation payload (kind {(frameKind data).toNat}, LSN {frameLsn data})"⟩)
    | some _ =>
      .accept (frameLsn data) (frameKind data) ((data.take (frameTotal data)).drop 16)
        (frameTotal data)

/-! ## Frames read back -/

section Frames

variable {lsn : ℕ} {kind : UInt8} {payload tail : Bytes}

@[simp]
lemma length_rawRecord : (rawRecord kind payload).length = 8 + payload.length := by
  simp only [rawRecord, length_append, length_cons, length_nil]

@[simp]
lemma length_frameBody : (frameBody lsn kind payload).length = 20 + payload.length := by
  simp only [frameBody, length_append, length_leBytes, length_rawRecord]
  omega

@[simp]
lemma length_frame : (frame lsn kind payload).length = headerLen + payload.length := by
  simp only [frame, length_append, length_leBytes, length_frameBody, headerLen]
  omega

/-- The parts of a header and what follows it. -/
lemma header_parts {crc len lsnBytes raw : Bytes} (hcrc : crc.length = 4) (hlen : len.length = 4)
    (hlsn : lsnBytes.length = 8) :
    (crc ++ (len ++ (lsnBytes ++ raw))).take 4 = crc ∧
      ((crc ++ (len ++ (lsnBytes ++ raw))).drop 4).take 4 = len ∧
      ((crc ++ (len ++ (lsnBytes ++ raw))).drop 8).take 8 = lsnBytes ∧
      (crc ++ (len ++ (lsnBytes ++ raw))).drop 16 = raw := by
  have h₈ : (crc ++ (len ++ (lsnBytes ++ raw))).drop 8 = lsnBytes ++ raw := by
    rw [← append_assoc]
    exact drop_left' (by rw [length_append, hcrc, hlen])
  refine ⟨take_left' hcrc, ?_, ?_, ?_⟩
  · rw [drop_left' hcrc, take_left' hlen]
  · rw [h₈, take_left' hlsn]
  · rw [show (16 : ℕ) = 8 + 8 from rfl, ← drop_drop, h₈, drop_left' hlsn]

/-- A frame, part by part. -/
lemma frame_append_eq :
    frame lsn kind payload ++ tail =
      leBytes 4 (crc32c (frameBody lsn kind payload)).toNat ++ (leBytes 4 payload.length ++
        (leBytes 8 lsn ++ (rawRecord kind payload ++ tail))) := by
  have hbody : frameBody lsn kind payload ++ tail = leBytes 4 payload.length ++
      (leBytes 8 lsn ++ (rawRecord kind payload ++ tail)) := by
    rw [frameBody, append_assoc, append_assoc]
  rw [frame, append_assoc, hbody]

/-- What the reader finds at each place of a frame, whatever follows it. -/
lemma frame_slices :
    (frame lsn kind payload ++ tail).take 4 =
        leBytes 4 (crc32c (frameBody lsn kind payload)).toNat ∧
      ((frame lsn kind payload ++ tail).drop 4).take 4 = leBytes 4 payload.length ∧
      ((frame lsn kind payload ++ tail).drop 8).take 8 = leBytes 8 lsn ∧
      (frame lsn kind payload ++ tail).drop 16 = rawRecord kind payload ++ tail := by
  rw [frame_append_eq]
  exact header_parts (length_leBytes ..) (length_leBytes ..) (length_leBytes ..)

/-- The length a frame states. -/
lemma payloadLen_frame (hpay : payload.length < 2 ^ 32) :
    payloadLen (frame lsn kind payload ++ tail) = payload.length := by
  rw [payloadLen, frame_slices.2.1, leNat_leBytes hpay]

/-- The fields a frame states. -/
lemma frame_fields (hpay : payload.length < 2 ^ 32) (hlsn : lsn < 2 ^ 64) :
    payloadLen (frame lsn kind payload ++ tail) = payload.length ∧
      frameLsn (frame lsn kind payload ++ tail) = lsn ∧
      storedCrc (frame lsn kind payload ++ tail) = (crc32c (frameBody lsn kind payload)).toNat ∧
      (frame lsn kind payload ++ tail).drop 16 = rawRecord kind payload ++ tail := by
  obtain ⟨h₁, -, h₃, h₄⟩ := @frame_slices lsn kind payload tail
  refine ⟨payloadLen_frame hpay, ?_, ?_, h₄⟩
  · rw [frameLsn, h₃, leNat_leBytes hlsn]
  · rw [storedCrc, h₁, leNat_leBytes (crc32c (frameBody lsn kind payload)).toNat_lt]

/-- The kind, and whether the format is known. -/
lemma format_fields {data : Bytes} (hdata : data.drop 16 = rawRecord kind payload ++ tail) :
    frameKind data = kind ∧ formatKnown data = recordKindKnown kind := by
  have hget : ∀ i, data.getD (16 + i) 0 = (rawRecord kind payload ++ tail).getD i 0 := by
    intro i
    rw [getD_eq_getElem?_getD, getD_eq_getElem?_getD, ← getElem?_drop, hdata]
  have hkind : frameKind data = kind := hget 0
  have hversion : data.getD 17 0 = recordVersion := hget 1
  have hpad : (data.drop 18).take 6 = [0, 0, 0, 0, 0, 0] := by
    rw [show (18 : ℕ) = 16 + 2 from rfl, ← drop_drop, hdata]
    rfl
  refine ⟨hkind, ?_⟩
  rw [formatKnown, hkind, hversion, hpad]
  simp

/-- A frame is cut out whole. -/
lemma frame_parts (hpay : payload.length < 2 ^ 32) (hlsn : lsn < 2 ^ 64) :
    frameTotal (frame lsn kind payload ++ tail) = headerLen + payload.length ∧
      (frame lsn kind payload ++ tail).take (headerLen + payload.length) = frame lsn kind payload ∧
      (frame lsn kind payload).drop 16 = rawRecord kind payload ∧
      (frame lsn kind payload).drop headerLen = payload ∧
      crcMatches (frame lsn kind payload ++ tail) := by
  have htotal : frameTotal (frame lsn kind payload ++ tail) = headerLen + payload.length := by
    rw [frameTotal, (frame_fields hpay hlsn).1]
  have htake : (frame lsn kind payload ++ tail).take (headerLen + payload.length) =
      frame lsn kind payload := take_left' length_frame
  have hraw : (frame lsn kind payload).drop 16 = rawRecord kind payload := by
    have := (@frame_fields lsn kind payload [] hpay hlsn).2.2.2
    rwa [append_nil, append_nil] at this
  refine ⟨htotal, htake, hraw, ?_, ?_⟩
  · rw [show headerLen = 16 + 8 from rfl, ← drop_drop]
    rfl
  have hbody : (frame lsn kind payload).drop 4 = frameBody lsn kind payload :=
    drop_left' (length_leBytes 4 _)
  rw [crcMatches, htotal, htake, hbody, (frame_fields hpay hlsn).2.2.1]
  exact beq_self_eq_true _

end Frames

/-! ## Verdicts on a partly read frame -/

section Partial

variable {data rest : Bytes}

/-- A beginning and the whole agree where both reach. -/
lemma slice_eq (h : data <+: rest) {a n : ℕ} (hle : a + n ≤ data.length) :
    (data.drop a).take n = (rest.drop a).take n := by
  obtain ⟨more, rfl⟩ := h
  rw [drop_append_of_le_length (by omega), take_append_of_le_length]
  rw [length_drop]
  omega

/-- A header in view is the header of the file. -/
lemma header_eq (h : data <+: rest) (hlen : headerLen ≤ data.length) :
    frameLsn data = frameLsn rest ∧ frameTotal data = frameTotal rest ∧
      payloadLen data = payloadLen rest ∧ storedCrc data = storedCrc rest ∧
      formatKnown data = formatKnown rest ∧ frameKind data = frameKind rest := by
  have hlen' : 24 ≤ data.length := hlen
  have hget : ∀ i < 24, data.getD i 0 = rest.getD i 0 := by
    intro i hi
    obtain ⟨more, rfl⟩ := h
    rw [getD_eq_getElem?_getD, getD_eq_getElem?_getD, getElem?_append_left (by omega)]
  have hpay : payloadLen data = payloadLen rest := by
    rw [payloadLen, slice_eq h (by omega)]
    rfl
  have hcrc : storedCrc data = storedCrc rest := by
    have hslice := slice_eq (a := 0) (n := 4) h (by omega)
    rw [drop_zero] at hslice
    rw [storedCrc, hslice]
    rfl
  refine ⟨?_, ?_, hpay, hcrc, ?_, hget 16 (by omega)⟩
  · rw [frameLsn, slice_eq h (by omega)]
    rfl
  · rw [frameTotal, hpay]
    rfl
  · rw [formatKnown, frameKind, hget 16 (by omega), hget 17 (by omega), slice_eq h (by omega)]
    rfl

variable {C : CatalogCodec} {bufferCapacity lastSeenLsn : ℕ}

/-- **A verdict stands** once it has been given: what is read later does not change it. -/
theorem checkFrame_mono (h : data <+: rest)
    (hne : checkFrame C bufferCapacity lastSeenLsn rest data ≠ .needMore) :
    checkFrame C bufferCapacity lastSeenLsn rest data =
      checkFrame C bufferCapacity lastSeenLsn rest rest := by
  have hle := h.length_le
  unfold checkFrame at hne ⊢
  by_cases hshort : data.length < headerLen
  · rw [if_pos hshort] at hne
    exact absurd rfl hne
  obtain ⟨hlsn, htotal, hpay, hcrc, hformat, hkind⟩ := header_eq h (by omega)
  rw [if_neg hshort] at hne ⊢
  rw [if_neg (show ¬ rest.length < headerLen by omega), hlsn, htotal, hpay, hformat, hkind]
  rw [hlsn, htotal, hpay] at hne
  by_cases h₁ : frameLsn rest ≤ lastSeenLsn
  · rw [if_pos h₁, if_pos h₁]
  rw [if_neg h₁] at hne ⊢
  rw [if_neg h₁]
  by_cases h₂ : rest.length < frameTotal rest
  · rw [if_pos h₂, if_pos h₂]
  rw [if_neg h₂] at hne ⊢
  rw [if_neg h₂]
  by_cases h₃ : bufferCapacity - headerLen < payloadLen rest
  · rw [if_pos h₃, if_pos h₃]
  rw [if_neg h₃] at hne ⊢
  rw [if_neg h₃]
  by_cases h₄ : data.length < frameTotal rest
  · rw [if_pos h₄] at hne
    exact absurd rfl hne
  -- the whole frame has been read
  have htake : data.take (frameTotal rest) = rest.take (frameTotal rest) := by
    have hslice := slice_eq (a := 0) (n := frameTotal rest) h (by omega)
    rwa [drop_zero] at hslice
  have hmatch : crcMatches data = crcMatches rest := by
    rw [crcMatches, htotal, htake, hcrc]
    rfl
  rw [if_neg h₄, if_neg h₂, hmatch, htake]

/-- More is asked for only while the buffer has room. -/
lemma length_lt_of_needMore (hcap : headerLen ≤ bufferCapacity)
    (hmore : checkFrame C bufferCapacity lastSeenLsn rest data = .needMore) :
    data.length < bufferCapacity := by
  unfold checkFrame at hmore
  split_ifs at hmore with h₁ h₂ h₃ h₄ h₅ h₆ h₇
  · omega
  · unfold frameTotal at h₇
    omega
  · split at hmore <;> cases hmore

/-- An accepted record lies in view, above the last LSN. -/
lemma accept_total {lsn total : ℕ} {kind : UInt8} {raw : Bytes}
    (hacc : checkFrame C bufferCapacity lastSeenLsn rest data = .accept lsn kind raw total) :
    headerLen ≤ total ∧ total ≤ data.length ∧ total ≤ rest.length ∧ lastSeenLsn < lsn := by
  unfold checkFrame at hacc
  split_ifs at hacc with h₁ h₂ h₃ h₄ h₅ h₆ h₇ h₈ h₉
  split at hacc
  · cases hacc
  · obtain ⟨rfl, rfl, rfl, rfl⟩ := FrameCheck.accept.inj hacc
    unfold frameTotal at *
    omega

end Partial

end Pos3ql
