import Pos3ql.Commit.Chain
import Pos3ql.Foundation.TaggedLists

/-!
# What a replay of the chain feeds

The valid records at the front of an object are the ones a replay can feed from it. Windows and
re-fetched records do not change them: they only decide whether the replay ends with an error.

* `frontFrames bytes`: the complete records with a matching checksum at the front.
* **`replayObject_eq`**, **`replayObject_error`**: an object is fed, or the replay fails, and which
  of the two depends only on the sizes of its front records and of what follows them.
* **`walkCommits_eq`**: the walk collects exactly the batches that can hold a record above the
  floor.
* **`PublishedChain.replay_gapfree_iff`**: when a replay leaves no gap.
* `PublishedChain.replay_skips_damaged`: a damaged record in an older batch is skipped without a
  word, and the newer batch is fed.
-/

namespace Pos3ql

open Foundation List JournalRecord

/-! ## Records at the front of a byte string -/

/-- The record at the front, if it is complete and its checksum matches. -/
def frontFrame (bytes : Bytes) : Option Bytes :=
  if bytes.length < headerLen ∨ bytes.length < frameTotal bytes ∨ crcMatches bytes = false then none
  else some (bytes.take (frameTotal bytes))

/-- The records at the front, one after another. -/
def framesUpTo : ℕ → Bytes → List Bytes
  | 0, _ => []
  | fuel + 1, bytes =>
    match frontFrame bytes with
    | none => []
    | some frame => frame :: framesUpTo fuel (bytes.drop frame.length)

/-- **The valid records at the front of an object.** -/
def frontFrames (bytes : Bytes) : List Bytes := framesUpTo bytes.length bytes

/-- A record as it is handed over. -/
def frameEntry (frame : Bytes) : ℕ × Bytes := (frameLsn frame, frame.drop 16)

section Frames

variable {bytes frame : Bytes}

lemma frontFrame_some (h : frontFrame bytes = some frame) :
    headerLen ≤ frame.length ∧ frame.length = frameTotal bytes ∧ frame.length ≤ bytes.length ∧
      crcMatches bytes ∧ frame = bytes.take frame.length := by
  unfold frontFrame at h
  split_ifs at h with hbad
  rw [not_or, not_or, Bool.not_eq_false] at hbad
  obtain ⟨hheader, htotal, hcrc⟩ := hbad
  cases h
  have hlen : (bytes.take (frameTotal bytes)).length = frameTotal bytes := by
    rw [length_take]
    omega
  rw [hlen]
  exact ⟨by unfold frameTotal; omega, rfl, by omega, hcrc, rfl⟩

lemma frameEntry_front (h : frontFrame bytes = some frame) :
    frameEntry frame = (frameLsn bytes, (bytes.take (frameTotal bytes)).drop 16) := by
  obtain ⟨hheader, htotal, -, -, htake⟩ := frontFrame_some h
  have hpre : frame <+: bytes := by
    rw [htake]
    exact take_prefix ..
  obtain ⟨hlsn, -⟩ := header_eq hpre hheader
  unfold frameEntry
  rw [hlsn, ← htotal, ← htake]

/-- More fuel than bytes changes nothing. Induction on the fuel. -/
lemma framesUpTo_fuel {fuel more : ℕ} (h : bytes.length ≤ fuel) (hmore : bytes.length ≤ more) :
    framesUpTo fuel bytes = framesUpTo more bytes := by
  induction fuel generalizing more bytes with
  | zero =>
    have hnil : bytes = [] := length_eq_zero_iff.mp (Nat.le_zero.mp h)
    subst hnil
    rcases more with _ | more
    · rfl
    · rfl
  | succ fuel ih =>
    rcases hfront : frontFrame bytes with _ | frame
    · rcases more with _ | more
      · change framesUpTo (fuel + 1) bytes = []
        rw [framesUpTo, hfront]
      · rw [framesUpTo, framesUpTo, hfront]
    obtain ⟨hheader, -, hle, -, -⟩ := frontFrame_some hfront
    unfold headerLen at hheader
    rcases more with _ | more
    · omega
    have hrest : framesUpTo fuel (bytes.drop frame.length) =
        framesUpTo more (bytes.drop frame.length) :=
      ih (by rw [length_drop]; omega) (by rw [length_drop]; omega)
    rw [framesUpTo, framesUpTo, hfront]
    dsimp only
    rw [hrest]

lemma frontFrames_none (h : frontFrame bytes = none) : frontFrames bytes = [] := by
  unfold frontFrames
  rcases bytes.length with _ | n
  · rfl
  · rw [framesUpTo, h]

lemma frontFrames_some (h : frontFrame bytes = some frame) :
    frontFrames bytes = frame :: frontFrames (bytes.drop frame.length) := by
  obtain ⟨hheader, -, hle, -, -⟩ := frontFrame_some h
  unfold headerLen at hheader
  obtain ⟨n, hn⟩ : ∃ n, bytes.length = n + 1 := ⟨bytes.length - 1, by omega⟩
  unfold frontFrames
  rw [hn, framesUpTo, h]
  dsimp only
  rw [framesUpTo_fuel (by rw [length_drop]; omega) le_rfl]

/-- Induction along the records at the front. -/
lemma frontFrames_induction {motive : Bytes → Prop}
    (stop : ∀ bytes, frontFrame bytes = none → motive bytes)
    (more : ∀ bytes frame, frontFrame bytes = some frame → motive (bytes.drop frame.length) →
      motive bytes)
    (bytes : Bytes) :
    motive bytes := by
  induction hn : bytes.length using Nat.strongRecOn generalizing bytes with
  | _ n ih =>
    rcases hfront : frontFrame bytes with _ | frame
    · exact stop bytes hfront
    obtain ⟨hheader, -, hle, -, -⟩ := frontFrame_some hfront
    unfold headerLen at hheader
    have hlt : (bytes.drop frame.length).length < n := by
      rw [length_drop]
      omega
    exact more bytes frame hfront (ih _ hlt _ rfl)

lemma frontFrames_flatten_le (bytes : Bytes) :
    (frontFrames bytes).flatten.length ≤ bytes.length := by
  induction bytes using frontFrames_induction with
  | stop bytes hnone =>
    rw [frontFrames_none hnone]
    exact zero_le
  | more bytes frame hfront ih =>
    obtain ⟨-, -, hle, -, -⟩ := frontFrame_some hfront
    rw [frontFrames_some hfront, flatten_cons, length_append]
    rw [length_drop] at ih
    omega

lemma headerLen_le_of_mem (h : frame ∈ frontFrames bytes) : headerLen ≤ frame.length := by
  induction bytes using frontFrames_induction with
  | stop bytes hnone =>
    rw [frontFrames_none hnone] at h
    cases h
  | more bytes front hfront ih =>
    rw [frontFrames_some hfront, mem_cons] at h
    rcases h with rfl | h
    · exact (frontFrame_some hfront).1
    · exact ih h

/-- **A window shows the front record or nothing**: the record, when it fits. -/
theorem frontFrame_take (bytes : Bytes) (window : ℕ) :
    frontFrame (bytes.take window) =
      (frontFrame bytes).filter fun frame => decide (frame.length ≤ window) := by
  have hlen : (bytes.take window).length = min window bytes.length := length_take ..
  have hheader := fun h => header_eq ⟨_, take_append_drop window bytes⟩ h
  by_cases hcut : (bytes.take window).length < headerLen ∨
      (bytes.take window).length < frameTotal (bytes.take window)
  · -- no header in the window, or the record is cut: a record is longer than the window
    have hnone : frontFrame (bytes.take window) = none := if_pos (hcut.imp_right .inl)
    rw [hnone]
    rcases hfront : frontFrame bytes with _ | frame
    · rfl
    obtain ⟨hframe, heq, hle, -, -⟩ := frontFrame_some hfront
    have hlong : ¬ frame.length ≤ window := by
      rcases lt_or_ge (bytes.take window).length headerLen with hshort | hlarge
      · omega
      · obtain ⟨-, htotal, -⟩ := hheader hlarge
        omega
    exact (Option.filter_some_neg (by simpa using hlong)).symm
  -- the record lies in the window
  rw [not_or, not_lt] at hcut
  obtain ⟨-, htotal, -, hsto, -, -⟩ := hheader hcut.1
  rw [htotal] at hcut
  have htake : (bytes.take window).take (frameTotal bytes) = bytes.take (frameTotal bytes) := by
    rw [take_take]
    congr 1
    omega
  have hcrc : crcMatches (bytes.take window) = crcMatches bytes := by
    unfold crcMatches
    rw [htotal, htake, hsto]
  unfold frontFrame
  rw [htotal, hcrc, htake]
  rcases crcMatches bytes with _ | _
  · rw [if_pos (.inr (.inr rfl)), if_pos (.inr (.inr rfl))]
    rfl
  have hfits : (headerLen ≤ window ∧ headerLen ≤ bytes.length) ∧ frameTotal bytes ≤ window ∧
      frameTotal bytes ≤ bytes.length := by omega
  rw [if_neg (by simp [hfits]), if_neg (by simp [hfits]), Option.filter_some_pos]
  simp [hfits]

/-- The records that fit a window, one after another. -/
def fitting : ℕ → List Bytes → List Bytes
  | _, [] => []
  | window, frame :: rest =>
    if frame.length ≤ window then frame :: fitting (window - frame.length) rest else []

lemma frontFrames_take (bytes : Bytes) (window : ℕ) :
    frontFrames (bytes.take window) = fitting window (frontFrames bytes) := by
  induction bytes using frontFrames_induction generalizing window with
  | stop bytes hnone =>
    rw [frontFrames_none hnone, frontFrames_none (by rw [frontFrame_take, hnone]; rfl)]
    rfl
  | more bytes frame hfront ih =>
    rw [frontFrames_some hfront, fitting]
    split_ifs with hfits
    · have hwindow : frontFrame (bytes.take window) = some frame := by
        rw [frontFrame_take, hfront]
        exact Option.filter_some_pos (by simpa using hfits)
      rw [frontFrames_some hwindow, drop_take, ih]
    · refine frontFrames_none ?_
      rw [frontFrame_take, hfront]
      exact Option.filter_some_neg (by simpa using hfits)

lemma frontFrames_drop_fitting (bytes : Bytes) (window : ℕ) :
    fitting window (frontFrames bytes) ++
        frontFrames (bytes.drop (fitting window (frontFrames bytes)).flatten.length) =
      frontFrames bytes := by
  induction bytes using frontFrames_induction generalizing window with
  | stop bytes hnone =>
    rw [frontFrames_none hnone]
    change [] ++ frontFrames (bytes.drop 0) = []
    rw [drop_zero, frontFrames_none hnone]
    rfl
  | more bytes frame hfront ih =>
    rw [frontFrames_some hfront, fitting]
    split_ifs with hfits
    · rw [flatten_cons, length_append, ← drop_drop, cons_append, ih]
    · change [] ++ frontFrames (bytes.drop 0) = _
      rw [drop_zero, nil_append, frontFrames_some hfront]

lemma fitting_length_le (window : ℕ) (frames : List Bytes) :
    (fitting window frames).flatten.length ≤ window := by
  induction frames generalizing window with
  | nil => exact zero_le
  | cons frame rest ih =>
    rw [fitting]
    split_ifs with hfits
    · have := ih (window - frame.length)
      rw [flatten_cons, length_append]
      omega
    · exact zero_le

lemma mem_fitting {window : ℕ} {frames : List Bytes} {frame : Bytes}
    (h : frame ∈ fitting window frames) : frame.length ≤ window := by
  have hpart := (sublist_flatten_of_mem h).length_le
  exact le_trans hpart (fitting_length_le ..)

end Frames

/-! ## One object -/

section Object

variable {σ : Type} {floor : ℕ} {apply : σ → ℕ → Bytes → Except SqlError σ}

/-- Handing over the records above the floor. -/
def feed (floor : ℕ) (apply : σ → ℕ → Bytes → Except SqlError σ) (start : σ) (frames : List Bytes) :
    Except SqlError σ :=
  frames.foldlM (fun applied frame => if floor < (frameEntry frame).1 then
    apply applied (frameEntry frame).1 (frameEntry frame).2 else .ok applied) start

lemma feed_append (start : σ) (first second : List Bytes) :
    feed floor apply start (first ++ second) =
      feed floor apply start first >>= fun applied => feed floor apply applied second := by
  unfold feed
  rw [foldlM_append]

/-- **One stretch of bytes** feeds its front records and consumes them. Induction on the fuel. -/
theorem replaySegmentBytes_eq {fuel : ℕ} {bytes : Bytes} (hfuel : bytes.length ≤ fuel) (app : σ) :
    replaySegmentBytes floor apply fuel app bytes =
      (feed floor apply app (frontFrames bytes)).map fun app =>
        ((frontFrames bytes).flatten.length, app) := by
  induction fuel generalizing bytes app with
  | zero =>
    have hnil : bytes = [] := length_eq_zero_iff.mp (Nat.le_zero.mp hfuel)
    subst hnil
    rfl
  | succ fuel ih =>
    rw [replaySegmentBytes]
    rcases hfront : frontFrame bytes with _ | frame
    · rw [frontFrames_none hfront]
      unfold frontFrame at hfront
      by_cases hheader : bytes.length < headerLen
      · rw [if_pos hheader]
        rfl
      by_cases htotal : bytes.length < frameTotal bytes
      · rw [if_neg hheader, if_pos htotal]
        rfl
      by_cases hcrc : crcMatches bytes = false
      · rw [if_neg hheader, if_neg htotal, hcrc]
        rfl
      · rw [if_neg (by rw [not_or, not_or]; exact ⟨hheader, htotal, hcrc⟩)] at hfront
        cases hfront
    obtain ⟨hheader, htotal, hle, hcrc, htake⟩ := frontFrame_some hfront
    have hentry := frameEntry_front hfront
    unfold headerLen at hheader
    have hfin : ∀ app, (replaySegmentBytes floor apply fuel app
        (bytes.drop frame.length) >>= fun pair => .ok (frame.length + pair.1, pair.2)) =
          (feed floor apply app (frontFrames (bytes.drop frame.length))).map fun app =>
            ((frame :: frontFrames (bytes.drop frame.length)).flatten.length, app) := by
      intro app
      rw [ih (by rw [length_drop]; omega), flatten_cons, length_append]
      rcases feed floor apply app (frontFrames (bytes.drop frame.length)) with e | app
      · rfl
      · rfl
    rw [if_neg (by unfold headerLen; omega), if_neg (by omega), hcrc,
      if_neg (show ¬ (!true) = true from Bool.false_ne_true), frontFrames_some hfront, feed,
      foldlM_cons, hentry, ← htotal]
    by_cases habove : floor < frameLsn bytes
    · rw [if_pos habove, if_pos habove]
      rcases apply app (frameLsn bytes) ((bytes.take frame.length).drop 16) with e | app
      · rfl
      · exact hfin app
    · rw [if_neg habove, if_neg habove]
      exact hfin app

/-- What a window can show of the bytes: every front record fits it, and so does what follows them,
with a byte to spare. -/
def Readable (capacity : ℕ) (bytes : Bytes) : Prop :=
  (∀ frame ∈ frontFrames bytes, frame.length ≤ capacity) ∧
    bytes.length - (frontFrames bytes).flatten.length < capacity

instance (capacity : ℕ) (bytes : Bytes) : Decidable (Readable capacity bytes) := by
  unfold Readable
  infer_instance

/-- After a window that showed records, the rest is as readable as before. -/
lemma readable_drop_fitting (cap : ℕ) (bytes : Bytes) :
    Readable cap (bytes.drop (fitting cap (frontFrames bytes)).flatten.length) ↔
      Readable cap bytes := by
  have hsplit := frontFrames_drop_fitting bytes cap
  have hlen : (fitting cap (frontFrames bytes)).flatten.length +
      (frontFrames (bytes.drop (fitting cap (frontFrames bytes)).flatten.length)).flatten.length =
        (frontFrames bytes).flatten.length := by
    rw [← length_append, ← flatten_append, hsplit]
  unfold Readable
  rw [length_drop]
  constructor
  · rintro ⟨hall, hrest⟩
    refine ⟨fun frame hframe => ?_, by omega⟩
    rw [← hsplit, mem_append] at hframe
    rcases hframe with hframe | hframe
    · exact mem_fitting hframe
    · exact hall frame hframe
  · rintro ⟨hall, hrest⟩
    refine ⟨fun frame hframe => hall frame ?_, by omega⟩
    rw [← hsplit]
    exact mem_append_right _ hframe

/-- **The windows of one object.** The front records are fed, if the object is readable; if it is
not, the replay fails. Induction on the rounds; a round feeds what its window shows. -/
theorem replayWindows_eq {capacity : ℕ} (hcapacity : 0 < capacity) (key : String) (cont : Bytes)
    {fuel offset : ℕ} (hfuel : cont.length - offset < fuel) (applied : σ) :
    (Readable capacity (cont.drop offset) →
      replayWindows floor capacity key (.ok cont) apply fuel offset applied =
        (feed floor apply applied (frontFrames (cont.drop offset))).mapError .replay) ∧
    (¬ Readable capacity (cont.drop offset) →
      ∃ e, replayWindows floor capacity key (.ok cont) apply fuel offset applied = .error e) := by
  induction fuel generalizing offset applied with
  | zero => omega
  | succ fuel ih =>
    obtain ⟨rest, hrest⟩ : ∃ rest, cont.drop offset = rest := ⟨_, rfl⟩
    have hrestLen : rest.length = cont.length - offset := by rw [← hrest, length_drop]
    rcases lt_or_ge offset cont.length with hoffset | hend
    swap
    · -- the range starts past the end
      have hnil : rest = [] := length_eq_zero_iff.mp (by omega)
      have hrange : getRange (.ok cont) offset (offset + capacity - 1) = .ok none := if_pos hend
      rw [hrest, hnil, replayWindows, hrange]
      exact ⟨fun _ => rfl,
        fun hnot => absurd ⟨fun frame hframe => (not_mem_nil hframe).elim, hcapacity⟩ hnot⟩
    have hrange : getRange (.ok cont) offset (offset + capacity - 1) =
        .ok (some (rest.take capacity)) := by
      refine (if_neg (not_le.mpr hoffset)).trans ?_
      rw [hrest, show offset + capacity - 1 + 1 - offset = capacity by omega]
    have hbody : rest.take capacity ≠ [] := by
      intro hnil
      have := congrArg List.length hnil
      rw [length_take, length_nil] at this
      omega
    have hround := @replaySegmentBytes_eq σ floor apply _ (rest.take capacity) le_rfl applied
    rw [frontFrames_take] at hround
    have hsplit := frontFrames_drop_fitting rest capacity
    rw [hrest, replayWindows, hrange]
    dsimp only
    rw [if_neg hbody, hround]
    have hfeed := congrArg (feed floor apply applied) hsplit
    rw [feed_append] at hfeed
    rw [← hfeed]
    rcases feed floor apply applied (fitting capacity (frontFrames rest)) with e | applied
    · exact ⟨fun _ => rfl, fun _ => ⟨_, rfl⟩⟩
    dsimp only [Except.map]
    obtain ⟨consumed, hconsumed⟩ : ∃ n, (fitting capacity (frontFrames rest)).flatten.length = n :=
      ⟨_, rfl⟩
    have hreadable := readable_drop_fitting capacity rest
    have hle := frontFrames_flatten_le rest
    rw [hconsumed] at hreadable hsplit ⊢
    rcases lt_or_ge rest.length capacity with hlast | hfull
    · -- the last window shows all the rest
      have hbodyLen : (rest.take capacity).length < capacity := by
        rw [length_take]
        omega
      have hfits : Readable capacity rest := by
        refine ⟨fun frame hframe => ?_, by omega⟩
        have := (sublist_flatten_of_mem hframe).length_le
        omega
      have hshown : fitting capacity (frontFrames rest) = frontFrames rest := by
        rw [← frontFrames_take, take_of_length_le (le_of_lt hlast)]
      have hleft : frontFrames (rest.drop consumed) = [] := by
        rw [hshown] at hsplit
        exact append_right_eq_self.mp hsplit
      rw [hleft, if_pos hbodyLen, if_pos hbodyLen, ite_self]
      exact ⟨fun _ => rfl, fun hnot => absurd hfits hnot⟩
    have hbodyLen : ¬ (rest.take capacity).length < capacity := by
      rw [length_take]
      omega
    rw [if_neg hbodyLen, if_neg hbodyLen]
    by_cases hnothing : consumed = 0
    · -- a full window without a record
      rw [if_pos hnothing]
      refine ⟨fun hfits => ?_, fun _ => ⟨_, rfl⟩⟩
      exfalso
      rcases hframes : frontFrames rest with _ | ⟨frame, frames⟩
      · have := hfits.2
        rw [hframes] at this
        change rest.length - 0 < capacity at this
        omega
      have hframe : frame.length ≤ capacity :=
        hfits.1 frame (hframes ▸ mem_cons_self)
      have hpos : headerLen ≤ frame.length :=
        headerLen_le_of_mem (hframes ▸ mem_cons_self)
      rw [hframes, fitting, if_pos hframe, flatten_cons, length_append] at hconsumed
      unfold headerLen at hpos
      omega
    · rw [if_neg hnothing]
      have hnext := ih (show cont.length - (offset + consumed) < fuel by omega) applied
      rw [← drop_drop, hrest] at hnext
      exact ⟨fun hfits => hnext.1 (hreadable.mpr hfits),
        fun hnot => hnext.2 fun hfits => hnot (hreadable.mp hfits)⟩

end Object

/-! ## Published batches -/

section Batches

variable {C : CatalogCodec} {σ : Type} {floor : ℕ}

lemma frontFrame_record {r : JournalRecord C} (hr : r.Sound) (tail : Bytes) :
    frontFrame (r.bytes ++ tail) = some r.bytes := by
  obtain ⟨htotal, htake, -, -, hcrc⟩ :=
    @frame_parts r.lsn r.op.kind r.op.payload tail hr.payload hr.lsn
  have hlen := r.length_bytes
  change frameTotal (r.bytes ++ tail) = _ at htotal
  change (r.bytes ++ tail).take _ = r.bytes at htake
  change crcMatches (r.bytes ++ tail) = true at hcrc
  unfold frontFrame
  rw [htotal, htake, hcrc, if_neg]
  rw [length_append]
  rintro (h | h | h)
  · omega
  · omega
  · cases h

/-- An intact object has the batch's records at its front. Induction on the records. -/
lemma frontFrames_allBytes {rs : List (JournalRecord C)} (h : ∀ r ∈ rs, r.Sound) :
    frontFrames (allBytes rs) = rs.map JournalRecord.bytes := by
  induction rs with
  | nil => rfl
  | cons r rest ih =>
    have hsplit : allBytes (r :: rest) = r.bytes ++ allBytes rest :=
      flatMap_cons ..
    have hfront := frontFrame_record (h r mem_cons_self) (allBytes rest)
    rw [hsplit, frontFrames_some hfront, drop_left, ih (forall_mem_cons.mp h).2, map_cons]

lemma frameEntry_record {r : JournalRecord C} (hr : r.Sound) : frameEntry r.bytes = r.entry := by
  obtain ⟨-, hlsn, -, hraw⟩ := @frame_fields r.lsn r.op.kind r.op.payload [] hr.payload hr.lsn
  rw [append_nil] at hlsn hraw
  rw [append_nil] at hraw
  exact Prod.ext hlsn hraw

/-- What an object yields: its front records above the floor. -/
def yields (floor : ℕ) (content : Bytes) : List (ℕ × Bytes) :=
  ((frontFrames content).map frameEntry).filter fun entry => decide (floor < entry.1)

lemma yields_bytes {b : PublishedBatch C} (h : ∀ r ∈ b.records, r.Sound) :
    yields floor b.bytes = b.entriesAbove floor := by
  have hmap : b.records.map (frameEntry ∘ JournalRecord.bytes) =
      b.records.map JournalRecord.entry :=
    map_congr_left fun r hr => frameEntry_record (h r hr)
  unfold yields PublishedBatch.entriesAbove PublishedBatch.bytes
  rw [frontFrames_allBytes h, map_map, hmap]

/-- An intact object is readable through a window that admits its records. -/
lemma readable_bytes {cap : ℕ} {b : PublishedBatch C} (h : ∀ r ∈ b.records, r.Sound)
    (hcap : ∀ r ∈ b.records, r.bytes.length ≤ cap) : Readable cap b.bytes := by
  have hfirst := hcap b.first mem_cons_self
  rw [b.first.length_bytes] at hfirst
  unfold Readable PublishedBatch.bytes
  rw [frontFrames_allBytes h]
  constructor
  · intro frame hframe
    obtain ⟨r, hr, rfl⟩ := mem_map.mp hframe
    exact hcap r hr
  rw [← flatMap_def]
  change (allBytes b.records).length - (allBytes b.records).length < _
  unfold headerLen at hfirst
  omega

/-- Handing over what the object yields. Induction on the records. -/
lemma feed_eq_yields {apply : σ → ℕ → Bytes → Except SqlError σ} (start : σ) (cont : Bytes) :
    feed floor apply start (frontFrames cont) =
      (yields floor cont).foldlM (fun applied entry => apply applied entry.1 entry.2) start := by
  unfold yields feed
  induction frontFrames cont generalizing start with
  | nil => rfl
  | cons frame rest ih =>
    rw [foldlM_cons, map_cons]
    by_cases habove : floor < (frameEntry frame).1
    · rw [if_pos habove, filter_cons_of_pos (by simpa using habove)]
      exact congrArg _ (funext ih)
    · rw [if_neg habove, filter_cons_of_neg (by simpa using habove)]
      exact ih start

/-- An error translated at the end or at every record. Induction on the records. -/
lemma foldlM_mapError {α ε ε' : Type} (f : ε → ε') (step : σ → α → Except ε σ) (start : σ)
    (es : List α) :
    (es.foldlM step start).mapError f =
      es.foldlM (fun applied entry => (step applied entry).mapError f) start := by
  induction es generalizing start with
  | nil => rfl
  | cons entry rest ih =>
    rw [foldlM_cons, foldlM_cons]
    rcases step start entry with e | applied
    · rfl
    · exact ih applied

end Batches

namespace PublishedChain

variable {C : CatalogCodec}

/-- The LSNs of a chain: positive, and a newer batch's are above an older one's. -/
lemma order (chain : PublishedChain C) :
    (∀ b ∈ chain.batches, ∀ r ∈ b.records, 0 < r.lsn) ∧ chain.batches.Pairwise fun newer older =>
      ∀ r ∈ newer.records, ∀ r' ∈ older.records, r'.lsn < r.lsn := by
  obtain ⟨hpos, hpair⟩ := pairwise_of_ascends chain.ascends
  refine ⟨fun b hb r hr => hpos r (mem_flatMap.mpr ⟨b, mem_reverse.mpr hb, hr⟩), ?_⟩
  have hparts := (pairwise_flatMap.mp hpair).2
  rw [pairwise_reverse] at hparts
  exact hparts.imp fun h r hr r' hr' => h r' hr' r hr

/-- **What a replay above the floor is due to feed**, oldest batch first. -/
def published (chain : PublishedChain C) (floor : ℕ) : List (CommitBatchId × ℕ × Bytes) :=
  taggedBy PublishedBatch.id (fun b => b.entriesAbove floor) chain.batches.reverse

/-- A batch at or below the floor, and those before it, have nothing above the floor. -/
lemma entriesAbove_eq_nil {floor : ℕ} {b : PublishedBatch C} (h : ∀ r ∈ b.records, r.lsn ≤ floor) :
    b.entriesAbove floor = [] := by
  refine filter_eq_nil_iff.mpr fun entry hentry => ?_
  obtain ⟨r, hr, rfl⟩ := mem_map.mp hentry
  have hle : r.entry.1 ≤ floor := h r hr
  simpa using hle

/-- The batches that are not walked have nothing to feed. Induction on the batches. -/
lemma taggedBy_walked (floor : ℕ) {bs : List (PublishedBatch C)}
    (h : bs.Pairwise fun newer older => ∀ r ∈ newer.records, ∀ r' ∈ older.records, r'.lsn < r.lsn) :
    taggedBy PublishedBatch.id (fun b => b.entriesAbove floor) bs.reverse =
      taggedBy PublishedBatch.id (fun b => b.entriesAbove floor) (walked floor bs).reverse := by
  induction bs with
  | nil => rfl
  | cons b older ih =>
    obtain ⟨hfirst, hrest⟩ := pairwise_cons.mp h
    rw [walked, reverse_cons, reverse_cons, taggedBy_append, taggedBy_append]
    congr 1
    split_ifs with hreached
    · rw [taggedBy_eq_nil.mpr fun b' hb' => ?_]
      · rfl
      · refine entriesAbove_eq_nil fun r' hr' => ?_
        have := hfirst b' (mem_reverse.mp hb') b.first mem_cons_self r' hr'
        omega
    · exact ih hrest

lemma walked_sublist (floor : ℕ) (batches : List (PublishedBatch C)) :
    (walked floor batches).Sublist batches := by
  induction batches with
  | nil => exact List.Sublist.refl _
  | cons b older ih =>
    rw [walked]
    split_ifs
    · exact List.Sublist.cons_cons b (nil_sublist _)
    · exact ih.cons_cons b

/-! ## The walk -/

section Walk

variable {floor capacity scap : ℕ} {bucket : CommitBucket}

/-- The descriptors of the batches fit the response buffer. -/
def DescriptorsFit (bucket : CommitBucket) (capacity : ℕ) (batches : List (PublishedBatch C)) :
    Prop :=
  ∀ b ∈ batches, ∀ body, bucket.descriptor b.id = .ok body → body.length ≤ capacity

/-- **The walk collects the batches that can hold a record above the floor**, or fails for want of
room. Induction on the batches. -/
theorem walkCommits_eq {batches : List (PublishedBatch C)} (hdescribed : Described bucket batches)
    (hpos : ∀ b ∈ batches, ∀ r ∈ b.records, 0 < r.lsn ∧ r.lsn < 2 ^ 64)
    (horder : batches.Pairwise
      fun newer older => ∀ r ∈ newer.records, ∀ r' ∈ older.records, r'.lsn < r.lsn)
    {fuel : ℕ} {scratch : List CommitBatchId} (hfuel : scap < fuel + scratch.length)
    (hscratch : scratch.length ≤ scap) :
    (scratch.length + (walked floor batches).length ≤ scap ∧
        DescriptorsFit bucket capacity (walked floor batches) →
      walkCommits floor bucket capacity scap fuel scratch (batches.head?.map PublishedBatch.id) =
          .ok (scratch ++ (walked floor batches).map PublishedBatch.id)) ∧
    (¬ (scratch.length + (walked floor batches).length ≤ scap ∧
        DescriptorsFit bucket capacity (walked floor batches)) →
      ∃ e, walkCommits floor bucket capacity scap fuel scratch
        (batches.head?.map PublishedBatch.id) = .error e) := by
  induction batches generalizing fuel scratch with
  | nil =>
    change (_ → walkCommits floor bucket capacity scap fuel scratch none = .ok (scratch ++ [])) ∧ _
    rw [append_nil]
    refine ⟨fun _ => ?_, fun hnot => absurd ⟨hscratch, fun b hb => (not_mem_nil hb).elim⟩ hnot⟩
    cases fuel <;> rfl
  | cons b older ih =>
    obtain ⟨hbody, holder⟩ := hdescribed
    obtain ⟨hfirst, hrest⟩ := pairwise_cons.mp horder
    rcases fuel with _ | fuel
    · omega
    rw [head?_cons, Option.map_some, walkCommits]
    by_cases hfull : scratch.length = scap
    · rw [if_pos hfull]
      refine ⟨fun hfits => ?_, fun _ => ⟨_, rfl⟩⟩
      have := hfits.1
      rw [walked, length_cons] at this
      omega
    rw [if_neg hfull]
    obtain ⟨body, hdescriptor⟩ : ∃ body, commitDescriptorBytes b.id
      (older.head?.map PublishedBatch.id) = body := ⟨_, rfl⟩
    rw [hdescriptor] at hbody
    rcases lt_or_ge capacity body.length with hlarge | hsmall
    · have hget : getObject capacity (bucket.descriptor b.id) =
          .error (.responseTooLarge body.length capacity) := by
        rw [hbody]
        exact if_pos hlarge
      rw [hget]
      refine ⟨fun hfits => ?_, fun _ => ⟨_, rfl⟩⟩
      have := hfits.2 b mem_cons_self body hbody
      omega
    have hget : getObject capacity (bucket.descriptor b.id) = .ok body := by
      rw [hbody]
      exact if_neg (not_lt.mpr hsmall)
    have hparse : parseCommitDescriptor body = .ok (b.id, older.head?.map PublishedBatch.id) := by
      obtain ⟨hlo, hhi⟩ := hpos b mem_cons_self b.first mem_cons_self
      rw [← hdescriptor]
      refine parseCommitDescriptor_bytes (Nat.ne_of_gt hlo) (Nat.le_pred_of_lt hhi)
        fun before hbefore => ?_
      rcases older with _ | ⟨b', older⟩
      · cases hbefore
      cases hbefore
      have hb' : b' ∈ b :: b' :: older := mem_cons_of_mem _ mem_cons_self
      exact ⟨Nat.ne_of_gt (hpos b' hb' b'.first mem_cons_self).1,
        hfirst b' mem_cons_self b.first mem_cons_self b'.first mem_cons_self⟩
    rw [hget]
    dsimp only
    rw [hparse]
    dsimp only
    rw [if_neg (not_not.mpr rfl), walked]
    by_cases hreached : b.first.lsn ≤ floor
    · rw [if_pos (show b.id.firstLsn ≤ floor from hreached), if_pos hreached]
      refine ⟨fun _ => rfl, fun hnot => absurd ⟨?_, ?_⟩ hnot⟩
      · change scratch.length + 1 ≤ scap
        omega
      intro b' hb' body' hbody'
      obtain rfl := mem_singleton.mp hb'
      rw [hbody] at hbody'
      cases hbody'
      exact hsmall
    rw [if_neg (show ¬ b.id.firstLsn ≤ floor from hreached), if_neg hreached]
    have hlen : (scratch ++ [b.id]).length = scratch.length + 1 := by
      rw [length_append, length_singleton]
    have hnext :=
      @ih holder (forall_mem_cons.mp hpos).2 hrest fuel (scratch ++ [b.id]) (by omega) (by omega)
    rw [hlen] at hnext
    rw [length_cons]
    refine ⟨fun h => (hnext.1 ⟨by omega, (forall_mem_cons.mp h.2).2⟩).trans ?_,
      fun hnot => hnext.2 fun h => hnot ⟨by omega, fun b' hb' body' hbody' => ?_⟩⟩
    · rw [append_assoc]
      rfl
    rcases mem_cons.mp hb' with rfl | hb'
    · rw [hbody] at hbody'
      cases hbody'
      exact hsmall
    · exact h.2 b' hb' body' hbody'

end Walk

/-! ## The replay -/

section Replay

variable {σ : Type} {chain : PublishedChain C} {bucket : CommitBucket}
  {floor capacity scratchCapacity : ℕ} {apply : CommitBatchId → σ → ℕ → Bytes → Except SqlError σ}
  {b : PublishedBatch C}

/-- The chain down to the floor fits the memory set aside for the walk. -/
def Fits (chain : PublishedChain C) (bucket : CommitBucket) (floor capacity scratchCapacity : ℕ) :
    Prop :=
  (walked floor chain.batches).length ≤ scratchCapacity ∧
    DescriptorsFit bucket capacity (walked floor chain.batches)

/-- The store returns the batch's object, and a window can show it. -/
def Reads (bucket : CommitBucket) (capacity : ℕ) (b : PublishedBatch C) : Prop :=
  ∃ content, bucket.batch b.id = .ok content ∧ Readable capacity content

/-- What the returned object of a batch yields. -/
def yielded (bucket : CommitBucket) (floor : ℕ) (b : PublishedBatch C) : List (ℕ × Bytes) :=
  yields floor ((bucket.batch b.id).toOption.getD [])

/-- Every object is returned as it was published. -/
def Intact (chain : PublishedChain C) (bucket : CommitBucket) : Prop :=
  ∀ b ∈ chain.batches, bucket.batch b.id = .ok b.bytes

lemma replayObject_eq (hcap : 0 < capacity) (key : String) (hreads : Reads bucket capacity b)
    (apply : σ → ℕ → Bytes → Except SqlError σ) (start : σ) :
    replayObject floor capacity key (bucket.batch b.id) apply start =
      (yielded bucket floor b).foldlM
        (fun applied entry => (apply applied entry.1 entry.2).mapError .replay) start := by
  obtain ⟨content, hcontent, hread⟩ := hreads
  have hwindows := (@replayWindows_eq σ floor apply _ hcap key content (content.length + 1) 0
    (by omega) start).1
  unfold yielded replayObject
  rw [hcontent]
  refine (hwindows hread).trans ?_
  rw [feed_eq_yields]
  exact foldlM_mapError ..

/-- An object that is missing, or that no window can show, ends the replay with an error. -/
lemma replayObject_error (hcap : 0 < capacity) (key : String)
    (hreads : ¬ Reads bucket capacity b) (apply : σ → ℕ → Bytes → Except SqlError σ) (start : σ) :
    ∃ e, replayObject floor capacity key (bucket.batch b.id) apply start = .error e := by
  rcases hcontent : bucket.batch b.id with e | content
  · exact ⟨_, rfl⟩
  have hunreadable : ¬ Readable capacity content := fun hread =>
    hreads ⟨content, hcontent, hread⟩
  have hwindows := (@replayWindows_eq σ floor apply _ hcap key content (content.length + 1) 0
    (by omega) start).2
  exact hwindows hunreadable

lemma capacity_pos (h : ∀ r ∈ b.records, r.bytes.length ≤ capacity) : 0 < capacity := by
  have hfirst := h b.first mem_cons_self
  rw [b.first.length_bytes] at hfirst
  unfold headerLen at hfirst
  omega

/-- The objects of the walked batches, one after another. Induction on the batches. -/
lemma foldlM_replayObject {bs : List (PublishedBatch C)} (hcap : bs ≠ [] → 0 < capacity)
    (hreads : ∀ b ∈ bs, Reads bucket capacity b) (start : σ) :
    (bs.map PublishedBatch.id).foldlM
      (fun applied id =>
        replayObject floor capacity id.batchKey (bucket.batch id) (apply id) applied) start =
      (taggedBy PublishedBatch.id (yielded bucket floor) bs).foldlM
        (fun applied entry => (apply entry.1 applied entry.2.1 entry.2.2).mapError .replay)
        start := by
  induction bs generalizing start with
  | nil => rfl
  | cons b rest ih =>
    have hpos := hcap (cons_ne_nil _ _)
    rw [map_cons, foldlM_cons, taggedBy_cons, foldlM_append, foldlM_map,
      replayObject_eq hpos _ (hreads b mem_cons_self)]
    exact congrArg _ (funext (ih (fun _ => hpos) (forall_mem_cons.mp hreads).2))

/-- One unreadable object fails the replay. Induction on the batches. -/
lemma foldlM_replayObject_error {bs : List (PublishedBatch C)} (hcap : 0 < capacity)
    (hb : b ∈ bs) (hreads : ¬ Reads bucket capacity b) (start : σ) :
    ∃ e, (bs.map PublishedBatch.id).foldlM (fun applied id => replayObject floor capacity
      id.batchKey (bucket.batch id) (apply id) applied) start = .error e := by
  induction bs generalizing start with
  | nil => cases hb
  | cons b' rest ih =>
    rw [map_cons, foldlM_cons]
    rcases hobject : replayObject floor capacity b'.id.batchKey (bucket.batch b'.id) (apply b'.id)
      start
      with e | applied
    · exact ⟨e, rfl⟩
    rcases mem_cons.mp hb with rfl | hb
    · obtain ⟨e, he⟩ := @replayObject_error C σ bucket floor capacity b hcap b.id.batchKey
        hreads (apply b.id) start
      rw [hobject] at he
      cases he
    · exact ih hb applied

lemma walk_chain (hdesc : Described bucket chain.batches) :
    (chain.Fits bucket floor capacity scratchCapacity →
      walkCommits floor bucket capacity scratchCapacity (scratchCapacity + 1) [] chain.head =
        .ok ((walked floor chain.batches).map PublishedBatch.id)) ∧
    (¬ chain.Fits bucket floor capacity scratchCapacity →
      ∃ e, walkCommits floor bucket capacity scratchCapacity (scratchCapacity + 1) [] chain.head =
        .error e) := by
  have hwalk := @walkCommits_eq C floor capacity scratchCapacity bucket chain.batches hdesc
    (fun b hb r hr => ⟨chain.order.1 b hb r hr, (chain.sound b hb r hr).lsn⟩) chain.order.2
    (scratchCapacity + 1) [] (by simp) zero_le
  rw [length_nil, Nat.zero_add] at hwalk
  exact hwalk

lemma Intact.reads (hok : chain.Intact bucket) (hb : b ∈ chain.batches)
    (hcap : ∀ r ∈ b.records, r.bytes.length ≤ capacity) (floor : ℕ) :
    Reads bucket capacity b ∧ yielded bucket floor b = b.entriesAbove floor := by
  have hobject := hok b hb
  refine ⟨⟨b.bytes, hobject, readable_bytes (chain.sound b hb) hcap⟩, ?_⟩
  unfold yielded
  rw [hobject]
  exact yields_bytes (chain.sound b hb)

variable (hdescribed : Described bucket chain.batches)
  (hcapacity : ∀ b ∈ chain.batches, ∀ r ∈ b.records, r.bytes.length ≤ capacity)

include hdescribed hcapacity

/-- **A replay that can read every walked object** feeds what the objects yield. -/
theorem replayCommitBatches_eq (hfits : chain.Fits bucket floor capacity scratchCapacity)
    (hreads : ∀ b ∈ walked floor chain.batches, Reads bucket capacity b) (start : σ) :
    replayCommitBatches floor bucket capacity scratchCapacity chain.head apply start =
      (taggedBy PublishedBatch.id (yielded bucket floor)
        (walked floor chain.batches).reverse).foldlM
        (fun applied entry => (apply entry.1 applied entry.2.1 entry.2.2).mapError .replay)
        start := by
  unfold replayCommitBatches
  rw [(walk_chain hdescribed).1 hfits]
  refine Eq.trans ?_
    (foldlM_replayObject (fun hsome => ?_) (fun b hb => hreads b (mem_reverse.mp hb)) start)
  · rw [map_reverse]
    rfl
  · obtain ⟨b, hb⟩ := exists_mem_of_ne_nil _ hsome
    exact capacity_pos (hcapacity b ((walked_sublist ..).subset (mem_reverse.mp hb)))

/-- **Any other replay fails.** -/
theorem replayCommitBatches_error
    (hnot : ¬ (chain.Fits bucket floor capacity scratchCapacity ∧
      ∀ b ∈ walked floor chain.batches, Reads bucket capacity b))
    (start : σ) :
    ∃ e, replayCommitBatches floor bucket capacity scratchCapacity chain.head apply start =
      .error e := by
  unfold replayCommitBatches
  by_cases hfits : chain.Fits bucket floor capacity scratchCapacity
  · rw [(walk_chain hdescribed).1 hfits]
    have hunread : ¬ ∀ b ∈ walked floor chain.batches, Reads bucket capacity b :=
      fun hreads => hnot ⟨hfits, hreads⟩
    simp only [not_forall] at hunread
    obtain ⟨b, hb, hreads⟩ := hunread
    have hpos := capacity_pos (hcapacity b ((walked_sublist ..).subset hb))
    obtain ⟨e, he⟩ := @foldlM_replayObject_error C σ bucket floor capacity apply b _ hpos
      (mem_reverse.mpr hb) hreads start
    rw [map_reverse] at he
    exact ⟨e, he⟩
  · obtain ⟨e, he⟩ := (walk_chain hdescribed).2 hfits
    rw [he]
    exact ⟨e, rfl⟩

/-- **An intact chain is fed completely**, each record once and in order. -/
theorem replay_intact (hintact : chain.Intact bucket)
    (hfits : chain.Fits bucket floor capacity scratchCapacity) (start : σ) :
    replayCommitBatches floor bucket capacity scratchCapacity chain.head apply start =
      (chain.published floor).foldlM
        (fun applied entry => (apply entry.1 applied entry.2.1 entry.2.2).mapError .replay)
        start := by
  have hwalked : ∀ b ∈ walked floor chain.batches, b ∈ chain.batches := fun b hb =>
    (walked_sublist ..).subset hb
  have hdue : chain.published floor = taggedBy PublishedBatch.id (yielded bucket floor)
      (walked floor chain.batches).reverse := by
    refine (taggedBy_walked floor chain.order.2).trans ?_
    refine flatMap_congr fun b hb => ?_
    have hb := hwalked b (mem_reverse.mp hb)
    rw [(hintact.reads hb (hcapacity b hb) floor).2]
  rw [replayCommitBatches_eq hdescribed hcapacity hfits fun b hb =>
    (hintact.reads (hwalked b hb) (hcapacity b (hwalked b hb)) floor).1, hdue]

end Replay

/-! ## Gaps -/

section Gaps

variable {chain : PublishedChain C} {bkt : CommitBucket} {floor cap scap : ℕ}

/-- A callback that keeps every record it gets, with the batch it was read from. -/
def recordFrom (id : CommitBatchId) (seen : List (CommitBatchId × ℕ × Bytes)) (lsn : ℕ)
    (record : Bytes) : Except SqlError (List (CommitBatchId × ℕ × Bytes)) :=
  .ok (seen ++ [(id, lsn, record)])

lemma foldlM_recordFrom (es seen : List (CommitBatchId × ℕ × Bytes)) :
    es.foldlM (fun applied entry => (recordFrom entry.1 applied entry.2.1 entry.2.2).mapError
      CheckpointSetupError.replay) seen = .ok (seen ++ es) := by
  induction es generalizing seen with
  | nil =>
    rw [append_nil]
    rfl
  | cons entry rest ih =>
    rw [foldlM_cons]
    refine (ih (seen ++ [entry])).trans ?_
    rw [append_assoc]
    rfl

lemma pairwise_id (chain : PublishedChain C) (floor : ℕ) :
    (walked floor chain.batches).reverse.Pairwise fun b later => b.id ≠ later.id := by
  rw [pairwise_reverse]
  refine (chain.order.2.sublist (walked_sublist ..)).imp fun {newer older} h hid => ?_
  have hlsn : newer.first.lsn = older.first.lsn := congrArg CommitBatchId.firstLsn hid.symm
  have := h newer.first mem_cons_self older.first mem_cons_self
  omega

/-- **When a replay leaves no gap.** What a replay that ends without an error has fed is a prefix of
the published records above the floor, and it is all of them when every object is intact, if and
only if

* the chain down to the floor fits the memory set aside for it, if every object is intact; and
* of the objects that are returned and can be read, the older ones yield all their records; from the
  first that does not, the newer ones yield none. -/
theorem replay_gapfree_iff (hdescribed : Described bkt chain.batches)
    (hcapacity : ∀ b ∈ chain.batches, ∀ r ∈ b.records, r.bytes.length ≤ cap) :
    ((∀ fed, replayCommitBatches floor bkt cap scap chain.head recordFrom [] =
          .ok fed → fed <+: chain.published floor) ∧
      (chain.Intact bkt → replayCommitBatches floor bkt cap scap chain.head
        recordFrom [] = .ok (chain.published floor))) ↔
    (chain.Intact bkt → chain.Fits bkt floor cap scap) ∧ (chain.Fits bkt floor cap scap →
        (∀ b ∈ walked floor chain.batches, Reads bkt cap b) →
          Gapless (yielded bkt floor) (fun b => b.entriesAbove floor)
            (walked floor chain.batches).reverse) := by
  have hfed := fun hfits hreads =>
    (@replayCommitBatches_eq C _ chain bkt floor cap scap recordFrom hdescribed
      hcapacity hfits hreads []).trans (foldlM_recordFrom _ [])
  have hfails := fun hnot => @replayCommitBatches_error C _ chain bkt floor cap
    scap recordFrom hdescribed hcapacity hnot []
  have hgapless := @taggedBy_prefix_iff _ _ _ PublishedBatch.id (yielded bkt floor)
    (fun b => b.entriesAbove floor) _ (chain.pairwise_id floor)
  rw [← taggedBy_walked floor chain.order.2] at hgapless
  constructor
  · rintro ⟨hpre, hall⟩
    refine ⟨fun hintact => ?_, fun hfits hreads => ?_⟩
    · by_contra hfits
      obtain ⟨e, he⟩ := hfails fun h => hfits h.1
      rw [hall hintact] at he
      cases he
    · exact hgapless.mp (hpre _ (hfed hfits hreads))
  rintro ⟨hmemory, hcomplete⟩
  refine ⟨fun fed hok => ?_, fun hintact => ?_⟩
  · by_cases h : chain.Fits bkt floor cap scap ∧ ∀ b ∈ walked floor chain.batches, Reads bkt cap b
    · rw [hfed h.1 h.2] at hok
      cases hok
      exact hgapless.mpr (hcomplete h.1 h.2)
    · obtain ⟨e, he⟩ := hfails h
      rw [hok] at he
      cases he
  · rw [replay_intact hdescribed hcapacity hintact (hmemory hintact)]
    exact foldlM_recordFrom _ []

end Gaps

/-! ## A damaged batch -/

/-- A batch that inserts one row. -/
def rowBatch (lsn : ℕ) (rowid : UInt64) : PublishedBatch .rowsOnly :=
  ⟨⟨lsn, .insertRow rowid [7]⟩, [⟨lsn + 1, .commit 9 true (some 0)⟩]⟩

/-- Two such batches. -/
def rowChain : PublishedChain .rowsOnly where
  batches := [rowBatch 3 2, rowBatch 1 1]
  sound := by
    intro b hb r hr
    have hall : ∀ b ∈ [rowBatch 3 2, rowBatch 1 1], ∀ r ∈ b.records,
        r.op.payload.length < 2 ^ 32 ∧ r.lsn < 2 ^ 64 := by decide +kernel
    exact ⟨(hall b hb r hr).1, (hall b hb r hr).2⟩
  ascends := by
    change 0 < 1 ∧ 1 < 2 ∧ 2 < 3 ∧ 3 < 4 ∧ True
    decide

/-- A store that has lost the last byte of the older batch's commit record. -/
def damagedBucket : CommitBucket where
  descriptor id :=
    if id = (rowBatch 3 2).id then .ok (commitDescriptorBytes id (some (rowBatch 1 1).id))
    else .ok (commitDescriptorBytes id none)
  batch id :=
    if id = (rowBatch 3 2).id then .ok (rowBatch 3 2).bytes
    else .ok ((rowBatch 1 1).bytes.dropLast ++ [255])

lemma damagedBucket_described : Described damagedBucket rowChain.batches := by
  have hne : (rowBatch 1 1).id ≠ (rowBatch 3 2).id := by decide +kernel
  have hnewer : damagedBucket.descriptor (rowBatch 3 2).id =
      .ok (commitDescriptorBytes (rowBatch 3 2).id (some (rowBatch 1 1).id)) := by
    dsimp only [damagedBucket]
    rw [if_pos rfl]
  have holder : damagedBucket.descriptor (rowBatch 1 1).id =
      .ok (commitDescriptorBytes (rowBatch 1 1).id none) := by
    dsimp only [damagedBucket]
    rw [if_neg hne]
  exact ⟨hnewer, holder, trivial⟩

/-- **The record after the damage is skipped, and the newer batch is fed.** -/
theorem replay_skips_damaged :
    (replayCommitBatches 0 damagedBucket 400 8 rowChain.head recordFrom []).map
      (List.map fun entry => entry.2.1) = .ok [1, 3, 4] ∧
      (rowChain.published 0).map (fun entry => entry.2.1) = [1, 2, 3, 4] ∧
      ∀ fed, replayCommitBatches 0 damagedBucket 400 8 rowChain.head recordFrom [] = .ok fed →
        ¬ fed <+: rowChain.published 0 := by
  have hfed : (replayCommitBatches 0 damagedBucket 400 8 rowChain.head recordFrom []).map
      (List.map fun entry => entry.2.1) = .ok [1, 3, 4] := by decide +kernel
  have hdue : (rowChain.published 0).map (fun entry => entry.2.1) = [1, 2, 3, 4] := by
    decide +kernel
  refine ⟨hfed, hdue, fun fed hok hpre => ?_⟩
  rw [hok] at hfed
  have hlsns := hpre.map fun entry => entry.2.1
  rw [Except.ok.inj hfed, hdue] at hlsns
  revert hlsns
  decide

/-- The damaged store yields records with a gap between them. -/
theorem replay_gapfree_damaged :
    (∀ b ∈ rowChain.batches, ∀ r ∈ b.records, r.bytes.length ≤ 400) ∧
      ¬ (rowChain.Fits damagedBucket 0 400 8 →
        (∀ b ∈ walked 0 rowChain.batches, Reads damagedBucket 400 b) →
        Gapless (yielded damagedBucket 0) (fun b => b.entriesAbove 0)
          (walked 0 rowChain.batches).reverse) := by
  have hroom : ∀ b ∈ rowChain.batches, ∀ r ∈ b.records, r.bytes.length ≤ 400 := by decide +kernel
  refine ⟨hroom, fun hgapless => ?_⟩
  have hdamaged : ¬ rowChain.Intact damagedBucket := by
    intro hintact
    have hobject := hintact (rowBatch 1 1) (mem_cons_of_mem _ mem_cons_self)
    revert hobject
    decide +kernel
  have hpre := (replay_gapfree_iff damagedBucket_described hroom).mpr
    ⟨fun hintact => absurd hintact hdamaged, hgapless⟩
  have hfed : (replayCommitBatches 0 damagedBucket 400 8 rowChain.head recordFrom []).map
      (List.map fun entry => entry.2.1) = .ok [1, 3, 4] := by decide +kernel
  rcases hok : replayCommitBatches 0 damagedBucket 400 8 rowChain.head recordFrom [] with e | fed
  · rw [hok] at hfed
    cases hfed
  have hlsns := (hpre.1 fed hok).map fun entry => entry.2.1
  rw [hok] at hfed
  rw [Except.ok.inj hfed] at hlsns
  revert hlsns
  decide +kernel

end PublishedChain

end Pos3ql
