import Pos3ql.Wal.Batches

/-!
# From staged operations to a batch

A stage holds framed records with provisional LSNs. When the transaction finishes, the frames are
stamped again, in commit order, and a marker is appended.

* `StageHolds buffer ops`: the bytes of a stage are the frames of `ops`. `stagedOps` reads the
  operations back from the bytes.
* **`finishStage_spec`**: finishing a stage either changes nothing that is durable or about to be,
  or puts exactly the batch of the staged operations into the buffer.
-/

namespace Pos3ql

open Foundation List JournalRecord Option

section Stamping

variable {C : CatalogCodec}

/-- The frames of a stage, with any provisional LSNs. -/
structure StageFrames (buffer : Bytes) (records : List (JournalRecord C)) : Prop where
  bytes : buffer = allBytes records
  short : ∀ r ∈ records, r.op.payload.length < 2 ^ 32
  inner : ∀ r ∈ records, isBoundary r.op.kind = false

/-- The bytes of a stage are the frames of these operations. -/
def StageHolds (buffer : Bytes) (ops : List (WalOp C)) : Prop :=
  ∃ records : List (JournalRecord C), StageFrames buffer records ∧
    records.map JournalRecord.op = ops

/-- A frame stamped again is the frame of the new LSN. -/
lemma restamp_frame (lsn old : ℕ) (kind : UInt8) (payload : Bytes) :
    Wal.restamp lsn (frame old kind payload) = frame lsn kind payload := by
  obtain ⟨-, -, -, hraw⟩ := @frame_slices old kind payload []
  rw [append_nil, append_nil] at hraw
  unfold Wal.restamp
  rw [hraw]
  rfl

/-- Stamping a stage numbers its operations. Induction on the records. -/
lemma restampAll_frames (floor : ℕ) (rs : List (JournalRecord C)) :
    Wal.restampAll floor (rs.map JournalRecord.bytes) =
      allBytes (stamp floor (rs.map JournalRecord.op)) := by
  induction rs generalizing floor with
  | nil => rfl
  | cons r rest ih =>
    have hhead : Wal.restamp (floor + 1) r.bytes = JournalRecord.bytes ⟨floor + 1, r.op⟩ :=
      restamp_frame ..
    rw [map_cons, map_cons, Wal.restampAll, ih, hhead, stamp, allBytes, allBytes, flatMap_cons]

/-- Stamping keeps the length. -/
lemma length_stamp_bytes (floor : ℕ) (rs : List (JournalRecord C)) :
    (allBytes (stamp floor (rs.map JournalRecord.op))).length = (allBytes rs).length := by
  induction rs generalizing floor with
  | nil => rfl
  | cons r rest ih =>
    have hrest := ih (floor + 1)
    rw [map_cons, stamp]
    simp only [allBytes, flatMap_cons, length_append, length_bytes] at hrest ⊢
    omega

/-- Cutting frames apart. Induction on the records. -/
lemma splitFrames_frames {rs : List (JournalRecord C)} {fuel : ℕ}
    (hshort : ∀ r ∈ rs, r.op.payload.length < 2 ^ 32) (hfuel : rs.length ≤ fuel) :
    Wal.splitFrames fuel (allBytes rs) = some (rs.map JournalRecord.bytes) := by
  induction rs generalizing fuel with
  | nil => rw [allBytes, flatMap_nil, Wal.splitFrames]; rfl
  | cons r rest ih =>
    obtain ⟨fuel, rfl⟩ : ∃ m, fuel = m + 1 := ⟨fuel - 1, by rw [length_cons] at hfuel; omega⟩
    have hr := hshort r mem_cons_self
    have hcons : allBytes (r :: rest) = r.bytes ++ allBytes rest :=
      flatMap_cons ..
    have htotal : frameTotal (r.bytes ++ allBytes rest) = r.bytes.length := by
      rw [r.length_bytes]
      exact congrArg _ (payloadLen_frame hr)
    have hlen : (r.bytes ++ allBytes rest).length = r.bytes.length + (allBytes rest).length :=
      length_append
    have hheader : headerLen ≤ r.bytes.length := by rw [r.length_bytes]; omega
    obtain ⟨x, xs, hx⟩ : ∃ x xs, r.bytes ++ allBytes rest = x :: xs := by
      refine exists_cons_of_ne_nil fun hnil => ?_
      rw [hnil] at hlen
      unfold headerLen at hheader
      simp only [length_nil] at hlen
      omega
    rw [hcons, hx, Wal.splitFrames, ← hx, htotal, if_neg (by omega), drop_left,
      take_left, ih (forall_mem_cons.mp hshort).2 (by rw [length_cons] at hfuel; omega)]
    · rfl
    · exact fun hnil => cons_ne_nil _ _ hnil

/-- Every record takes a byte. -/
lemma length_le_allBytes (rs : List (JournalRecord C)) : rs.length ≤ (allBytes rs).length := by
  induction rs with
  | nil => exact zero_le
  | cons r rest ih =>
    have := r.length_bytes
    rw [allBytes, flatMap_cons, length_append, length_cons]
    change rest.length ≤ (rest.flatMap JournalRecord.bytes).length at ih
    unfold headerLen at this
    omega

/-- Reading operations back from staged bytes. -/
def decodeStage (C : CatalogCodec) (buffer : Bytes) : List (WalOp C) :=
  ((Wal.splitFrames buffer.length buffer).getD []).filterMap fun record =>
    WalOp.decodeOp C (frameKind record) (record.drop headerLen)

variable {buffer : Bytes} {ops : List (WalOp C)}

/-- A stage decodes to what was staged. -/
lemma decodeStage_of_holds (h : StageHolds buffer ops) : decodeStage C buffer = ops := by
  obtain ⟨records, hfrs, rfl⟩ := h
  unfold decodeStage
  rw [hfrs.bytes, splitFrames_frames hfrs.short (length_le_allBytes records), getD_some,
    filterMap_map]
  have hdecode : ∀ r ∈ records, (fun record => WalOp.decodeOp C (frameKind record)
      (record.drop headerLen)) r.bytes = some r.op := by
    intro r hr
    have hshort := hfrs.short r hr
    obtain ⟨-, -, -, hraw⟩ := @frame_slices r.lsn r.op.kind r.op.payload []
    rw [append_nil] at hraw
    change r.bytes.drop 16 = _ at hraw
    have hpay : r.bytes.drop headerLen = r.op.payload := by
      rw [show headerLen = 16 + 8 from rfl, ← drop_drop, hraw, append_nil]
      rfl
    dsimp only
    rw [(format_fields hraw).1]
    exact r.op.decodeOp_payload hshort
  rw [show records.map JournalRecord.op = records.filterMap fun r => some r.op by
    rw [filterMap_eq_map']]
  exact filterMap_congr hdecode

/-- One more record. -/
lemma StageHolds.append (h : StageHolds buffer ops) (lsn : ℕ) {op : WalOp C}
    (hshort : op.payload.length < 2 ^ 32) (hinner : isBoundary op.kind = false) :
    StageHolds (buffer ++ JournalRecord.bytes ⟨lsn, op⟩) (ops ++ [op]) := by
  obtain ⟨records, hfrs, rfl⟩ := h
  refine ⟨records ++ [⟨lsn, op⟩], ⟨?_, ?_, ?_⟩, by simp⟩
  · rw [hfrs.bytes, allBytes, allBytes, flatMap_append, flatMap_singleton]
  · exact forall_mem_append.mpr ⟨hfrs.short, forall_mem_singleton.mpr hshort⟩
  · exact forall_mem_append.mpr ⟨hfrs.inner, forall_mem_singleton.mpr hinner⟩

/-- Where the first `kept` records of a stage end: the positions `stage_mark` can have returned. -/
def recordEnd (buffer : Bytes) (kept : ℕ) : ℕ :=
  ((((Wal.splitFrames buffer.length buffer).getD []).take kept).flatten).length

/-- The first records of a stage. -/
lemma StageHolds.take (h : StageHolds buffer ops)
    (kept : ℕ) : StageHolds (buffer.take (recordEnd buffer kept)) (ops.take kept) := by
  obtain ⟨records, hfrs, rfl⟩ := h
  refine ⟨records.take kept, ⟨?_, ?_, ?_⟩, map_take ..⟩
  · have hend : recordEnd buffer kept = (allBytes (records.take kept)).length := by
      rw [recordEnd, hfrs.bytes, splitFrames_frames hfrs.short (length_le_allBytes records),
        getD_some,
        ← map_take, allBytes, flatMap_def]
    have hsplit : buffer = allBytes (records.take kept) ++ allBytes (records.drop kept) := by
      rw [hfrs.bytes, allBytes, allBytes, allBytes, ← flatMap_append, take_append_drop]
    rw [hend]
    nth_rewrite 1 [hsplit]
    exact take_left
  · exact fun r hr => hfrs.short r (mem_of_mem_take hr)
  · exact fun r hr => hfrs.inner r (mem_of_mem_take hr)

end Stamping

/-! ## Stages -/

namespace Wal

variable {C : CatalogCodec} {w w' : Wal}

/-- Every stage holds the frames of some operations. -/
def StagesSound (C : CatalogCodec) (w : Wal) : Prop :=
  ∀ index, ∃ ops : List (WalOp C), StageHolds (w.staged index) ops

/-- The operations a transaction has staged. -/
def stagedOps (C : CatalogCodec) (w : Wal) (transactionId : UInt32) : List (WalOp C) :=
  match w.stageIndex transactionId with
  | none => []
  | some index => decodeStage C (w.staged index)

/-- An empty stage. -/
lemma stageHolds_nil : StageHolds [] ([] : List (WalOp C)) := by
  refine ⟨[], ⟨rfl, ?_, ?_⟩, rfl⟩
  · nofun
  · nofun

/-- The stages after one is set. -/
lemma staged_setStaged (w : Wal) (index i : ℕ) (buffer : Bytes) :
    (w.setStaged index buffer).staged i =
      if i = index ∧ i < w.stages.length then buffer else w.staged i := by
  unfold setStaged staged
  rw [getElem?_modify]
  by_cases hlt : i < w.stages.length
  · rw [getElem?_eq_getElem hlt]
    simp only [Option.map_eq_map, Option.map_some, Option.getD_some]
    by_cases hi : index = i
    · rw [if_pos hi, if_pos ⟨hi.symm, hlt⟩]
    · rw [if_neg hi, if_neg (fun h => hi h.1.symm)]
  · rw [getElem?_eq_none (by omega), if_neg (fun h => hlt h.2)]
    rfl

/-- The stages after one is released. -/
lemma staged_releaseStage (w : Wal) (index i : ℕ) :
    (w.releaseStage index).staged i = if i = index then [] else w.staged i := by
  unfold releaseStage staged
  rw [getElem?_modify]
  rcases w.stages[i]? with _ | stage
  · split_ifs <;> rfl
  simp only [Option.map_eq_map, Option.map_some, Option.getD_some]
  by_cases hi : index = i
  · rw [if_pos hi, if_pos hi.symm]
  · rw [if_neg hi, if_neg (Ne.symm hi)]

lemma StagesSound.of_stages_eq (h : w.StagesSound C) (hstages : w'.stages = w.stages) :
    w'.StagesSound C := by
  intro index
  unfold staged
  rw [hstages]
  exact h index

variable {index lsn floor : ℕ} {transactionId : UInt32} {op bd : WalOp C} {db : Int32}
  {result : Except SqlError (ℕ × Bytes)} {captured : Option ℕ}

/-- Setting a stage keeps them sound. -/
lemma StagesSound.setStaged (h : w.StagesSound C) {buffer : Bytes}
    {ops : List (WalOp C)} (hbuf : StageHolds buffer ops) :
    (w.setStaged index buffer).StagesSound C := by
  intro i
  rw [staged_setStaged]
  split_ifs
  · exact ⟨ops, hbuf⟩
  · exact h i

/-- Releasing a stage keeps them sound. -/
lemma StagesSound.releaseStage (h : w.StagesSound C) (index : ℕ) :
    (w.releaseStage index).StagesSound C := by
  intro i
  rw [staged_releaseStage]
  split_ifs
  · exact ⟨[], stageHolds_nil⟩
  · exact h i

/-- The search looks at the identifiers only. -/
lemma stageIndex_eq (w : Wal) (tx : UInt32) :
    w.stageIndex tx =
      (w.stages.map TransactionStage.transactionId).findIdx? (· == tx) := by
  rw [findIdx?_map]
  rfl

lemma stageIndex_lt (h : w.stageIndex transactionId = some index) : index < w.stages.length :=
  (findIdx?_eq_some_iff_findIdx_eq.mp h).1

lemma stageIndex_setStaged (w : Wal) (index : ℕ) (buffer : Bytes) (transactionId : UInt32) :
    (w.setStaged index buffer).stageIndex transactionId = w.stageIndex transactionId := by
  have hids : (w.setStaged index buffer).stages.map TransactionStage.transactionId =
      w.stages.map TransactionStage.transactionId := by
    refine ext_getElem? fun i => ?_
    unfold setStaged
    rw [getElem?_map, getElem?_map, getElem?_modify]
    rcases w.stages[i]? with _ | stage
    · rfl
    · split_ifs <;> rfl
  rw [stageIndex_eq, stageIndex_eq, hids]

/-- What a call may not touch while it only stages. -/
structure SameFile (w w' : Wal) : Prop where
  file : w'.file = w.file
  buffer : w'.buffer = w.buffer
  bufferCapacity : w'.bufferCapacity = w.bufferCapacity
  writeOffset : w'.writeOffset = w.writeOffset
  lastLsn : w'.lastLsn = w.lastLsn
  dirty : w'.dirty = w.dirty

lemma SameFile.refl (w : Wal) : SameFile w w := ⟨rfl, rfl, rfl, rfl, rfl, rfl⟩

/-- One step after another. -/
lemma SameFile.trans {w'' : Wal} (h : SameFile w w') (h' : SameFile w' w'') : SameFile w w'' :=
  ⟨h'.file.trans h.file, h'.buffer.trans h.buffer, h'.bufferCapacity.trans h.bufferCapacity,
    h'.writeOffset.trans h.writeOffset, h'.lastLsn.trans h.lastLsn, h'.dirty.trans h.dirty⟩

lemma sameFile_setStaged (w : Wal) (index : ℕ) (buffer : Bytes) :
    SameFile w (w.setStaged index buffer) := ⟨rfl, rfl, rfl, rfl, rfl, rfl⟩

lemma sameFile_releaseStage (w : Wal) (index : ℕ) : SameFile w (w.releaseStage index) :=
  ⟨rfl, rfl, rfl, rfl, rfl, rfl⟩

/-- A record appended fits. -/
lemma appendRecord_ok {cap : ℕ} {buffer buffer' : Bytes}
    (hok : appendRecord cap buffer lsn op = .ok buffer') :
    buffer' = buffer ++ JournalRecord.bytes ⟨lsn, op⟩ ∧
      headerLen + op.payload.length ≤ cap - buffer.length := by
  obtain ⟨-, -, hok⟩ := ok_of_bind_ok hok
  split_ifs at hok with hfull
  exact ⟨(Except.ok.inj hok).symm, by omega⟩

/-- What appending to a stage does. -/
lemma appendStaged_eq (hok : w.appendStaged index lsn op = .ok w') :
    w' = w.setStaged index (w.staged index ++ JournalRecord.bytes ⟨lsn, op⟩) := by
  unfold appendStaged at hok
  rcases happ : appendRecord w.bufferCapacity (w.staged index) lsn op with e | buffer
  · rw [happ] at hok
    cases hok
  · rw [happ] at hok
    cases hok
    rw [(appendRecord_ok happ).1]

/-- Appending keeps the stages sound and the file. -/
lemma appendStaged_ok (hok : w.appendStaged index lsn op = .ok w')
    (h : w.StagesSound C) (hshort : op.payload.length < 2 ^ 32)
    (hinner : isBoundary op.kind = false) : w'.StagesSound C ∧ SameFile w w' := by
  obtain ⟨ops, hops⟩ := h index
  rw [appendStaged_eq hok]
  exact ⟨h.setStaged (hops.append lsn hshort hinner), sameFile_setStaged ..⟩

/-- The journal after a stage was claimed. -/
def claimed (w : Wal) (index : ℕ) (database : Int32) (transactionId : UInt32) : Wal :=
  { w with stages := w.stages.set index ⟨transactionId, database, []⟩ }

/-- The stages after one is claimed. -/
lemma staged_claimed (w : Wal) (index : ℕ) (db : Int32) (tx : UInt32) (i : ℕ) :
    (w.claimed index db tx).staged i = if i = index then [] else w.staged i := by
  unfold claimed staged
  rw [getElem?_set]
  by_cases hi : index = i
  · subst hi
    rw [if_pos rfl, if_pos rfl]
    split_ifs <;> rfl
  · rw [if_neg hi, if_neg (Ne.symm hi)]

/-- The scope record is short and closes no batch. -/
lemma databaseScope_inner (db : Int32) :
    (WalOp.databaseScope (C := C) db).payload.length < 2 ^ 32 ∧
      isBoundary (WalOp.databaseScope (C := C) db).kind = false := by
  refine ⟨?_, rfl⟩
  rw [WalOp.payload, length_leBytes]
  decide

/-- A claimed stage is found. -/
lemma stageIndex_claimed (db : Int32) (hnone : w.stageIndex transactionId = none)
    (hfree : w.stageIndex 0 = some index) :
    (w.claimed index db transactionId).stageIndex transactionId = some index := by
  have hlt := stageIndex_lt hfree
  refine findIdx?_eq_some_iff_getElem.mpr ⟨by simpa [claimed] using hlt, ?_, fun j hj => ?_⟩
  · simp [claimed]
  have hold := findIdx?_eq_none_iff.mp hnone (w.stages[j]) (getElem_mem ..)
  simp only [claimed, getElem_set_ne (Nat.ne_of_gt hj)]
  rw [hold]
  exact Bool.false_ne_true

/-- **The stage a call works on**: the one the transaction has, or one it claims, with the record of
its database. -/
inductive Opened (C : CatalogCodec) (db scope : Int32) (transactionId : UInt32) (lsn : ℕ)
    (w : Wal) :
    ℕ → Wal → Prop
  | existing {index : ℕ} (hindex : w.stageIndex transactionId = some index) :
      Opened C db scope transactionId lsn w index w
  | fresh {index : ℕ} {w' : Wal} (hnone : w.stageIndex transactionId = none)
      (hfree : w.stageIndex 0 = some index)
      (hscope : (w.claimed index db transactionId).appendStaged index lsn
        (.databaseScope (C := C) scope) = .ok w') :
      Opened C db scope transactionId lsn w index w'

section Opening

variable {scope : Int32} {w₁ : Wal}

lemma sameFile_claimed (w : Wal) (index : ℕ) (db : Int32) (tx : UInt32) :
    SameFile w (w.claimed index db tx) := ⟨rfl, rfl, rfl, rfl, rfl, rfl⟩

/-- Claiming keeps the stages sound. -/
lemma StagesSound.claimed (h : w.StagesSound C) (index : ℕ) (db : Int32) (tx : UInt32) :
    (w.claimed index db tx).StagesSound C := by
  intro i
  rw [staged_claimed]
  split_ifs
  · exact ⟨[], stageHolds_nil⟩
  · exact h i

lemma Opened.stageIndex_eq (h : Opened C db scope transactionId lsn w index w₁) :
    w₁.stageIndex transactionId = some index := by
  cases h with
  | existing hindex => exact hindex
  | fresh hnone hfree hscope =>
    rw [appendStaged_eq hscope, stageIndex_setStaged]
    exact stageIndex_claimed db hnone hfree

/-- An opened stage is sound. -/
lemma Opened.sound (ho : Opened C db scope transactionId lsn w index w₁) (h : w.StagesSound C) :
    w₁.StagesSound C ∧ SameFile w w₁ := by
  cases ho with
  | existing hindex => exact ⟨h, .refl _⟩
  | fresh hnone hfree hscope =>
    obtain ⟨hs, hd⟩ := databaseScope_inner (C := C) scope
    obtain ⟨h₁, hsame⟩ := appendStaged_ok hscope (h.claimed index db transactionId) hs hd
    exact ⟨h₁, (sameFile_claimed w index db transactionId).trans hsame⟩

end Opening

/-- What a call that opens a stage does when it cannot: nothing, or it claims a stage that the
record of its database does not fit into. -/
def Unopened (db : Int32) (transactionId : UInt32) (w w' : Wal) : Prop :=
  (w' = w ∧ (w.stageIndex transactionId = none → w.stageIndex 0 = none)) ∨
    ∃ index, w.stageIndex transactionId = none ∧ w.stageIndex 0 = some index ∧
      w' = w.claimed index db transactionId

/-- So is one that could not be opened. -/
lemma Unopened.sound (hu : Unopened db transactionId w w') (h : w.StagesSound C) :
    w'.StagesSound C ∧ SameFile w w' := by
  rcases hu with ⟨rfl, -⟩ | ⟨index, -, -, rfl⟩
  · exact ⟨h, .refl _⟩
  · exact ⟨h.claimed index db transactionId, sameFile_claimed ..⟩

/-- A new transaction claims a free stage. -/
lemma stageIndexOrClaim_fresh (hnone : w.stageIndex transactionId = none)
    (hfree : w.stageIndex 0 = some index) :
    w.stageIndexOrClaim db transactionId = .ok (index, w.claimed index db transactionId) := by
  simp only [stageIndexOrClaim, hnone, hfree]
  rfl

/-- **How staging ends.** -/
lemma stage_cases {result : Except SqlError Unit}
    (hstage : w.stage db transactionId lsn op = some (w', result)) :
    ((∃ e, result = .error e) ∧ Unopened db transactionId w w') ∨
      ∃ index w₁, Opened C db db transactionId lsn w index w₁ ∧
        ((∃ e, w₁.appendStaged index lsn op = .error e ∧ result = .error e ∧ w' = w₁) ∨
          w₁.appendStaged index lsn op = .ok w' ∧ result = .ok ()) := by
  unfold stage at hstage
  split_ifs at hstage
  rcases hindex : w.stageIndex transactionId with _ | index
  · rcases hfree : w.stageIndex 0 with _ | index
    · simp only [stageIndexOrClaim, hindex, hfree] at hstage
      cases hstage
      exact .inl ⟨⟨_, rfl⟩, .inl ⟨rfl, fun _ => hfree⟩⟩
    simp only [stageIndexOrClaim_fresh hindex hfree, hindex, isNone_none, if_true] at hstage
    rcases hscope : (w.claimed index db transactionId).appendStaged index lsn
      (.databaseScope (C := C) db) with e | w₁
    · rw [hscope] at hstage
      cases hstage
      exact .inl ⟨⟨_, rfl⟩, .inr ⟨index, hindex, hfree, rfl⟩⟩
    refine .inr ⟨index, w₁, .fresh hindex hfree hscope, ?_⟩
    rcases hop : w₁.appendStaged index lsn op with e | w₂
    · simp only [hscope, hop] at hstage
      cases hstage
      exact .inl ⟨e, rfl, rfl, rfl⟩
    · simp only [hscope, hop] at hstage
      cases hstage
      exact .inr ⟨rfl, rfl⟩
  · simp only [stageIndexOrClaim, hindex, isNone_some, Bool.false_eq_true, if_false] at hstage
    split_ifs at hstage
    · cases hstage
      exact .inl ⟨⟨_, rfl⟩, .inl ⟨rfl, fun h => by cases h.symm.trans hindex⟩⟩
    refine .inr ⟨index, w, .existing hindex, ?_⟩
    rcases hop : w.appendStaged index lsn op with e | w₂
    · simp only [hop] at hstage
      cases hstage
      exact .inl ⟨e, rfl, rfl, rfl⟩
    · simp only [hop] at hstage
      cases hstage
      exact .inr ⟨rfl, rfl⟩

/-- **Staging** touches stages only, and keeps them sound. -/
theorem stage_spec {result : Except SqlError Unit}
    (hstage : w.stage db transactionId lsn op = some (w', result)) (h : w.StagesSound C)
    (hshort : op.payload.length < 2 ^ 32) (hinner : isBoundary op.kind = false) :
    w'.StagesSound C ∧ SameFile w w' := by
  rcases stage_cases hstage with ⟨-, hu⟩ | ⟨index, w₁, hopen, ⟨e, -, -, rfl⟩ | ⟨hop, -⟩⟩
  · exact hu.sound h
  · exact hopen.sound h
  · obtain ⟨h₁, hsame₁⟩ := hopen.sound h
    obtain ⟨h₂, hsame₂⟩ := appendStaged_ok hop h₁ hshort hinner
    exact ⟨h₂, hsame₁.trans hsame₂⟩

/-- Truncation keeps the stages sound and the file. -/
lemma truncateStage_spec {kept : ℕ}
    (hcut : w.truncateStage transactionId
      (recordEnd (((w.stageIndex transactionId).map w.staged).getD []) kept) = some w')
    (h : w.StagesSound C) :
    w'.StagesSound C ∧ SameFile w w' := by
  unfold truncateStage at hcut
  by_cases hzero : transactionId = 0
  · rw [if_pos hzero] at hcut
    cases hcut
  rw [if_neg hzero] at hcut
  rcases hindex : w.stageIndex transactionId with _ | index
  · rw [hindex] at hcut
    cases hcut
    exact ⟨h, .refl _⟩
  rw [hindex] at hcut
  dsimp only [map_some, getD_some] at hcut
  split_ifs at hcut
  · cases hcut
    exact ⟨h.releaseStage index, sameFile_releaseStage ..⟩
  · cases hcut
    obtain ⟨ops, hops⟩ := h index
    exact ⟨h.setStaged (hops.take kept), sameFile_setStaged ..⟩

/-- So does discarding. -/
lemma discardStage_spec (hdisc : w.discardStage transactionId = some w')
    (h : w.StagesSound C) : w'.StagesSound C ∧ SameFile w w' := by
  unfold discardStage at hdisc
  split_ifs at hdisc
  rcases hindex : w.stageIndex transactionId with _ | index
  · rw [hindex] at hdisc
    cases hdisc
    exact ⟨h, .refl _⟩
  · rw [hindex] at hdisc
    cases hdisc
    exact ⟨h.releaseStage index, sameFile_releaseStage ..⟩

/-! ## What a transaction has staged -/

lemma stageIndex_id (h : w.stageIndex transactionId = some index) :
    w.stages[index]?.map TransactionStage.transactionId = some transactionId := by
  obtain ⟨hlt, hid, -⟩ := findIdx?_eq_some_iff_getElem.mp h
  rw [getElem?_eq_getElem hlt, map_some, eq_of_beq hid]

lemma stagedOps_setStaged_self (buffer : Bytes) (hindex : w.stageIndex transactionId = some index) :
    (w.setStaged index buffer).stagedOps C transactionId = decodeStage C buffer := by
  unfold stagedOps
  rw [stageIndex_setStaged, hindex]
  dsimp only
  rw [staged_setStaged, if_pos ⟨rfl, stageIndex_lt hindex⟩]

/-! ## Finishing -/

/-- Nothing that is durable, or about to be, changes. -/
structure Unfinished (w w' : Wal) : Prop where
  file : w'.file = w.file
  bufferCapacity : w'.bufferCapacity = w.bufferCapacity
  writeOffset : w'.writeOffset = w.writeOffset
  lastLsn : w'.lastLsn = w.lastLsn
  dirty : w'.dirty = w.dirty
  buffer : w'.buffer = w.buffer ∨ w.buffer = []

/-- A batch lies in the buffer. -/
structure Finished (w w' : Wal) (b : Batch C) : Prop where
  file : w'.file = w.file
  bufferCapacity : w'.bufferCapacity = w.bufferCapacity
  writeOffset : w'.writeOffset = w.writeOffset
  empty : w.buffer = []
  floor : w.lastLsn ≤ b.floor
  buffer : w'.buffer = b.bytes
  lastLsn : w'.lastLsn = b.lastLsn
  dirty : w'.dirty = true
  fits : b.bytes.length ≤ w.bufferCapacity
  room : w.writeOffset + b.bytes.length ≤ w.file.length
  inner : ∀ op ∈ b.ops, isBoundary op.kind = false
  short : ∀ op ∈ b.ops, op.payload.length < 2 ^ 32
  bound : b.lastLsn < 2 ^ 64

lemma SameFile.unfinished (h : SameFile w w') : Unfinished w w' :=
  ⟨h.file, h.bufferCapacity, h.writeOffset, h.lastLsn, h.dirty, .inl h.buffer⟩

lemma Unfinished.of_sameFile {w₀ : Wal} (h : Unfinished w w') (hsame : SameFile w₀ w) :
    Unfinished w₀ w' :=
  ⟨h.file.trans hsame.file, h.bufferCapacity.trans hsame.bufferCapacity, h.writeOffset.trans
    hsame.writeOffset, h.lastLsn.trans hsame.lastLsn, h.dirty.trans hsame.dirty, hsame.buffer ▸
      h.buffer⟩

lemma Finished.of_sameFile {w₀ : Wal} {b : Batch C} (h : Finished w w' b) (hsame : SameFile w₀ w) :
    Finished w₀ w' b :=
  { file := h.file.trans hsame.file
    bufferCapacity := h.bufferCapacity.trans hsame.bufferCapacity
    writeOffset := h.writeOffset.trans hsame.writeOffset
    empty := hsame.buffer ▸ h.empty
    floor := hsame.lastLsn ▸ h.floor
    buffer := h.buffer
    lastLsn := h.lastLsn
    dirty := h.dirty
    fits := by
      rw [← hsame.bufferCapacity]
      exact h.fits
    room := by
      rw [← hsame.writeOffset, ← hsame.file]
      exact h.room
    inner := h.inner
    short := h.short
    bound := h.bound }

/-- A batch of these records has room: in the LSN space, in the buffer and in the file.
Source: `finish_stage`. -/
def Admits (w : Wal) (index count floor : ℕ) (boundary : WalOp C) : Prop :=
  let size := (w.staged index).length + (headerLen + boundary.payload.length)
  floor + count + 1 ≤ u64Max ∧ size ≤ w.bufferCapacity - w.buffer.length ∧
    w.writeOffset + w.buffer.length + size ≤ w.capacity

/-- The copy of a prepared transaction's records does not fit. Source: `finish_stage`. -/
def CopyOverflows (floor : ℕ) (records : List Bytes) (captured : Option ℕ) : Prop :=
  (captured.any fun capacity => decide (capacity < (captureRecords floor records).length)) = true

/-- **How sealing ends**: refused, failed with the stamped records in the buffer, or done. -/
lemma sealStage_cases {records : List Bytes}
    (hseal : w.sealStage index records floor bd captured = some (w', result)) :
    (¬ w.Admits index records.length floor bd ∧ w' = w ∧ ∃ e, result = .error e) ∨
      w.Admits index records.length floor bd ∧ w.buffer = [] ∧ w.lastLsn ≤ floor ∧
        (w' = { w with buffer := restampAll floor records } ∧ (∃ e, result = .error e) ∧
            (CopyOverflows floor records captured ∨ ∃ e, appendRecord w.bufferCapacity
              (restampAll floor records) (floor + records.length + 1) bd = .error e) ∨
          ¬ CopyOverflows floor records captured ∧
            ∃ buffer firstLsn offset copy, appendRecord w.bufferCapacity (restampAll floor records)
              (floor + records.length + 1) bd = .ok buffer ∧
              w' = releaseStage { w with
                buffer, lastLsn := floor + records.length + 1, dirty := true,
                batchFirstLsn := firstLsn, batchStartOffset := offset } index ∧
              result = .ok (floor + records.length + 1, copy)) := by
  unfold sealStage at hseal
  dsimp only at hseal
  split at hseal
  · cases hseal
    exact .inl ⟨fun h => by unfold Admits at h; omega, rfl, _, rfl⟩
  split at hseal
  · cases hseal
    exact .inl ⟨fun h => by unfold Admits at h; omega, rfl, _, rfl⟩
  split at hseal
  · cases hseal
    exact .inl ⟨fun h => by unfold Admits at h; omega, rfl, _, rfl⟩
  split at hseal
  · cases hseal
  rename_i hlsn hbuf hroom hassert
  rw [not_or, not_not] at hassert
  refine .inr ⟨⟨by omega, by omega, by omega⟩, hassert.1, by omega, ?_⟩
  split at hseal
  · rename_i hcopy
    cases hseal
    exact .inl ⟨rfl, ⟨_, rfl⟩, .inl hcopy⟩
  rename_i hcopy
  rcases happ : appendRecord w.bufferCapacity (restampAll floor records)
      (floor + records.length + 1) bd with e | buffer
  · rw [happ] at hseal
    cases hseal
    exact .inl ⟨rfl, ⟨_, rfl⟩, .inr ⟨e, rfl⟩⟩
  · rw [happ] at hseal
    cases hseal
    exact .inr ⟨hcopy, buffer, _, _, _, rfl, rfl, rfl⟩

/-- **Sealing** writes the whole batch or leaves it unfinished. -/
lemma sealStage_spec {rs : List (JournalRecord C)}
    (hseal : w.sealStage index (rs.map JournalRecord.bytes) floor bd captured =
      some (w', result)) (h : w.StagesSound C) (hfrs : StageFrames (w.staged index) rs) :
    w'.StagesSound C ∧ ((Unfinished w w' ∧ ∃ e, result = .error e) ∨
        (Finished w w' ⟨floor, rs.map JournalRecord.op, bd⟩ ∧ ∃ copy, result =
            .ok (Batch.lastLsn ⟨floor, rs.map JournalRecord.op, bd⟩, copy))) := by
  rcases sealStage_cases hseal with ⟨-, rfl, herror⟩ | ⟨⟨hlsn, hbuf, hroom⟩, hnil, hfloor,
    ⟨rfl, herror, -⟩ | ⟨-, buffer, firstLsn, offset, copy, happ, rfl, rfl⟩⟩
  · exact ⟨h, .inl ⟨(SameFile.refl _).unfinished, herror⟩⟩
  · exact ⟨h, .inl ⟨⟨rfl, rfl, rfl, rfl, rfl, .inr hnil⟩, herror⟩⟩
  rw [length_map] at *
  rw [restampAll_frames] at happ
  obtain ⟨rfl, -⟩ := appendRecord_ok happ
  let b : Batch C := ⟨floor, rs.map JournalRecord.op, bd⟩
  have hlast : b.lastLsn = floor + rs.length + 1 := by
    rw [Batch.lastLsn, length_map]
  have hbytes : b.bytes = allBytes (stamp floor b.ops) ++
      JournalRecord.bytes ⟨floor + rs.length + 1, bd⟩ := by
    rw [Batch.bytes, Batch.records_eq, hlast, allBytes, flatMap_append, flatMap_singleton]
    rfl
  have hsize : b.bytes.length = (w.staged index).length + (headerLen + bd.payload.length) := by
    rw [hbytes, length_append, length_stamp_bytes, length_bytes, hfrs.bytes]
  rw [hnil] at hbuf hroom
  refine ⟨(StagesSound.of_stages_eq h rfl).releaseStage index, .inr ⟨⟨rfl, rfl, rfl, hnil,
    hfloor, hbytes.symm, hlast.symm, rfl, hsize ▸ hbuf, ?_, ?_, ?_, ?_⟩, copy, ?_⟩⟩
  · rw [hsize]
    exact hroom
  · intro op hop
    obtain ⟨r, hr, rfl⟩ := mem_map.mp hop
    exact hfrs.inner r hr
  · intro op hop
    obtain ⟨r, hr, rfl⟩ := mem_map.mp hop
    exact hfrs.short r hr
  · rw [hlast]
    unfold u64Max at hlsn
    omega
  · rw [hlast]

/-- **Finishing a stage** leaves everything durable as it was, or puts the batch of the staged
operations into the buffer. -/
theorem finishStage_spec (hfin : w.finishStage transactionId floor bd captured = some (w', result))
    (h : w.StagesSound C) :
    w'.StagesSound C ∧
      ((Unfinished w w' ∧ ∀ lsn copy, result = .ok (lsn, copy) → lsn = floor) ∨
        (Finished w w' ⟨floor, w.stagedOps C transactionId, bd⟩ ∧
          ∃ copy,
            result = .ok (Batch.lastLsn ⟨floor, w.stagedOps C transactionId, bd⟩, copy))) := by
  unfold finishStage at hfin
  by_cases hzero : transactionId = 0
  · rw [if_pos hzero] at hfin
    cases hfin
  rw [if_neg hzero] at hfin
  rcases hindex : w.stageIndex transactionId with _ | index
  · -- the transaction has no stage
    rw [hindex] at hfin
    cases hfin
    refine ⟨h, .inl ⟨(SameFile.refl w).unfinished, fun lsn copy heq => ?_⟩⟩
    exact (Prod.mk.inj (Except.ok.inj heq)).1.symm
  rw [hindex] at hfin
  dsimp only at hfin
  by_cases hempty : w.staged index = []
  · rw [if_pos hempty] at hfin
    cases hfin
    refine ⟨h.releaseStage index,
      .inl ⟨(sameFile_releaseStage w index).unfinished, fun lsn copy heq => ?_⟩⟩
    exact (Prod.mk.inj (Except.ok.inj heq)).1.symm
  rw [if_neg hempty] at hfin
  obtain ⟨ops, records, hfrs, hmap⟩ := h index
  have hstaged : w.stagedOps C transactionId = records.map JournalRecord.op := by
    unfold stagedOps
    rw [hindex]
    exact decodeStage_of_holds ⟨records, hfrs, rfl⟩
  have hsplit : splitFrames (w.staged index).length (w.staged index) =
      some (records.map JournalRecord.bytes) := by
    rw [hfrs.bytes]
    exact splitFrames_frames hfrs.short (length_le_allBytes records)
  rw [hsplit] at hfin
  rw [hstaged]
  obtain ⟨h', hunfinished | hfind⟩ := sealStage_spec hfin h hfrs
  · obtain ⟨hun, e, rfl⟩ := hunfinished
    exact ⟨h', .inl ⟨hun, fun lsn copy heq => by cases heq⟩⟩
  · exact ⟨h', .inr hfind⟩

/-- The transaction an empty prepare belongs to gets a stage with its scope record. -/
def prepareOps (C : CatalogCodec) (w : Wal) (metadata : PreparedTransactionMetadata) :
    List (WalOp C) :=
  if (w.stageIndex metadata.transactionId).isNone then [.databaseScope metadata.database]
  else w.stagedOps C metadata.transactionId

/-- The marker of a prepared transaction. -/
def prepareMarker (C : CatalogCodec) (metadata : PreparedTransactionMetadata) : WalOp C :=
  .prepareTransaction metadata.transactionId metadata.owner metadata.database metadata.preparedAt
    metadata.gid

/-- **How preparing ends**: without a stage, or as finishing the stage does. -/
lemma prepareStage_cases {exe : Int32} {pm : PreparedTransactionMetadata} {rcap : ℕ}
    (hprep : w.prepareStage C exe pm floor rcap = some (w', result)) :
    ((∃ e, result = .error e) ∧ w.stageIndex pm.transactionId = none ∧
      Unopened exe pm.transactionId w w') ∨
      ∃ index w₁, Opened C exe pm.database pm.transactionId floor w index w₁ ∧
        w₁.finishStage pm.transactionId floor (prepareMarker C pm) (some rcap) =
          some (w', result) := by
  unfold prepareStage at hprep
  split_ifs at hprep with hzero hnone
  · rw [isNone_iff_eq_none] at hnone
    rcases hfree : w.stageIndex 0 with _ | index
    · simp only [stageIndexOrClaim, hnone, hfree] at hprep
      cases hprep
      exact .inl ⟨⟨_, rfl⟩, hnone, .inl ⟨rfl, fun _ => hfree⟩⟩
    simp only [stageIndexOrClaim_fresh hnone hfree] at hprep
    rcases hscope : (w.claimed index exe pm.transactionId).appendStaged index floor
      (.databaseScope (C := C) pm.database) with e | w₁
    · rw [hscope] at hprep
      cases hprep
      exact .inl ⟨⟨_, rfl⟩, hnone, .inr ⟨index, hnone, hfree, rfl⟩⟩
    · rw [hscope] at hprep
      exact .inr ⟨index, w₁, .fresh hnone hfree hscope, hprep⟩
  · obtain ⟨index, hindex⟩ := ne_none_iff_exists'.mp (mt isNone_iff_eq_none.mpr hnone)
    exact .inr ⟨index, w, .existing hindex, hprep⟩

/-- **Preparing a transaction** leaves everything durable as it was, or puts its batch into the
buffer. -/
theorem prepareStage_spec {exe : Int32} {metadata : PreparedTransactionMetadata} {rcap : ℕ}
    (hprep : w.prepareStage C exe metadata floor rcap = some (w', result)) (h : w.StagesSound C) :
    w'.StagesSound C ∧
      ((Unfinished w w' ∧ ∀ lsn copy, result = .ok (lsn, copy) → lsn = floor) ∨
        (Finished w w' ⟨floor, w.prepareOps C metadata, prepareMarker C metadata⟩ ∧
          ∃ copy, result =
            .ok (Batch.lastLsn ⟨floor, w.prepareOps C metadata, prepareMarker C metadata⟩,
              copy))) := by
  rcases prepareStage_cases hprep with ⟨⟨e, rfl⟩, -, hu⟩ | ⟨index, w₁, hopen, hfin⟩
  · obtain ⟨h', hsame⟩ := hu.sound h
    exact ⟨h', .inl ⟨hsame.unfinished, fun lsn copy heq => by cases heq⟩⟩
  obtain ⟨h₁, hsame⟩ := hopen.sound h
  have hops : w₁.stagedOps C metadata.transactionId = w.prepareOps C metadata := by
    cases hopen with
    | existing hindex => rw [prepareOps, hindex, if_neg (by simp)]
    | fresh hnone hfree hscope =>
      have hself := stageIndex_claimed exe hnone hfree
      obtain ⟨hs, hd⟩ := databaseScope_inner (C := C) metadata.database
      rw [appendStaged_eq hscope, stagedOps_setStaged_self _ hself, staged_claimed, if_pos rfl,
        decodeStage_of_holds ((@stageHolds_nil C).append floor hs hd), prepareOps, hnone]
      rfl
  obtain ⟨h', hun | hfin⟩ := finishStage_spec hfin h₁
  · exact ⟨h', .inl ⟨hun.1.of_sameFile hsame, hun.2⟩⟩
  · rw [hops] at hfin
    exact ⟨h', .inr ⟨hfin.1.of_sameFile hsame, hfin.2⟩⟩

end Wal

end Pos3ql
