import Pos3ql.Wal.Recovery

/-!
# Recording what recovery hands over

A callback that keeps every record tells what `replay` finds in a file, whatever the file holds.

* `recordEntry`: the recording callback. `scans_total`: with it, recovery always ends.
* **`Wal.replay_always`**: another callback that does not fail gets the same records, in order.
* **`Wal.replay_ascending`**: their LSNs ascend.
* **`Wal.replay_any_file`**: what replay does with any bytes.
-/

namespace Pos3ql

open Foundation List

/-- A callback that keeps every record it gets. -/
def recordEntry (seen : List (ℕ × Bytes)) (lsn : ℕ) (record : Bytes) :
    Except SqlError (List (ℕ × Bytes)) :=
  .ok (seen ++ [(lsn, record)])

/-- Handing over the records above the floor to a callback that does not fail. Induction on them. -/
lemma applyAbove_ok {floor : ℕ} {σ : Type} (f : σ → ℕ → Bytes → σ) (s : σ) (es : List (ℕ × Bytes)) :
    applyAbove floor (fun s lsn record => .ok (f s lsn record)) s es =
      .ok ((es.filter fun e => decide (floor < e.1)).foldl (fun s e => f s e.1 e.2) s) := by
  induction es generalizing s with
  | nil => rfl
  | cons e rest ih =>
    unfold applyAbove at ih ⊢
    rw [foldlM_cons]
    by_cases habove : floor < e.1
    · rw [if_pos habove, filter_cons_of_pos (by simpa using habove)]
      exact ih (f s e.1 e.2)
    · rw [if_neg habove, filter_cons_of_neg (by simpa using habove)]
      exact ih s

section Recording

variable {C : CatalogCodec} {file : Bytes} {bcap floor : ℕ}
  {p : ReplayProgress (List (ℕ × Bytes))}

/-- The records above the floor, recorded. -/
lemma applyAbove_recordEntry (seen es : List (ℕ × Bytes)) :
    applyAbove floor recordEntry seen es =
      .ok (seen ++ es.filter fun entry => decide (floor < entry.1)) := by
  refine (applyAbove_ok (fun seen lsn record => seen ++ [(lsn, record)]) seen es).trans ?_
  simp [← flatMap_def]

/-- What a marker makes of the records kept back, when everything is recorded. -/
lemma acceptRecord_recordEntry (lsn total : ℕ) (kind : UInt8) (raw : Bytes) :
    ∃ p', acceptRecord floor recordEntry p lsn kind raw total = .ok p' ∧
      p'.lastSeenLsn = lsn ∧ p'.parsedOffset = p.parsedOffset + total ∧
      (isBoundary kind = false → p'.pending = p.pending ++ [(lsn, raw)] ∧ p'.applied = p.applied) ∧
      (isBoundary kind → p'.pending = [] ∧ p'.applied = p.applied ++
        (p.pending ++ [(lsn, raw)]).filter fun entry => decide (floor < entry.1)) := by
  unfold acceptRecord
  dsimp only
  rcases hkind : isBoundary kind with _ | _
  · refine ⟨_, rfl, rfl, rfl, fun _ => ⟨rfl, rfl⟩, fun h => ?_⟩
    cases h
  · rw [applyAbove_recordEntry]
    refine ⟨_, rfl, rfl, rfl, fun h => ?_, fun _ => ⟨rfl, rfl⟩⟩
    cases h

/-- **Recovery always ends**, and never takes back what it has handed over. Induction on the bytes
left. -/
theorem scans_total (n : ℕ) (hleft : file.length - p.parsedOffset ≤ n) :
    ∃ res, Scans C file bcap floor recordEntry p res ∧
      ∀ out, res = .ok out → p.applied <+: out.1 := by
  induction n generalizing p with
  | zero =>
    have hnil : file.drop p.parsedOffset = [] := drop_eq_nil_of_le (by omega)
    refine ⟨_, .stop (.inr ?_), fun out hout => ?_⟩
    · unfold verdict checkFrame
      rw [hnil]
      rfl
    · cases hout
      exact prefix_rfl
  | succ n ih =>
    rcases hv : verdict C file bcap p with _ | _ | e | ⟨lsn, kind, raw, total⟩
    · refine ⟨_, .stop (.inr hv), fun out hout => ?_⟩
      cases hout
      exact prefix_rfl
    · refine ⟨_, .stop (.inl hv), fun out hout => ?_⟩
      cases hout
      exact prefix_rfl
    · refine ⟨_, .refuse hv, fun out hout => ?_⟩
      cases hout
    obtain ⟨hheader, -, hle, -⟩ := accept_total hv
    obtain ⟨p', hacc, -, hparsed, hinner, hmarker⟩ :=
      @acceptRecord_recordEntry floor p lsn total kind raw
    rw [length_drop] at hle
    unfold headerLen at hheader
    obtain ⟨res, hscan, hgrow⟩ := @ih p' (by omega)
    refine ⟨res, .accept hv hacc hscan, fun out hout => ?_⟩
    have hlonger := hgrow out hout
    rcases hkind : isBoundary kind with _ | _
    · rwa [(hinner hkind).2] at hlonger
    · rw [(hmarker hkind).2] at hlonger
      exact (prefix_append ..).trans hlonger

/-- **What is handed over has ascending LSNs**, in every file: a record is accepted only above the
last one seen. Induction on the scan; what is kept back comes after what has been handed over. -/
theorem scans_ascending {res : Except WalSetupError (List (ℕ × Bytes) × ℕ × ℕ)}
    (hscan : Scans C file bcap floor recordEntry p res)
    (hsorted : (p.applied ++ p.pending).Pairwise fun e e' => e.1 < e'.1)
    (hseen : ∀ e ∈ p.applied ++ p.pending, e.1 ≤ p.lastSeenLsn) {out : List (ℕ × Bytes) × ℕ × ℕ}
    (hout : res = .ok out) :
    out.1.Pairwise fun e e' => e.1 < e'.1 := by
  induction hscan with
  | stop =>
    cases hout
    exact (pairwise_append.mp hsorted).1
  | refuse => cases hout
  | fail => cases hout
  | @accept p p' lsn total kind raw res hv hacc hscan ih =>
    obtain ⟨-, -, -, hlsn⟩ := accept_total hv
    obtain ⟨p'', hacc', hlast, -, hinner, hmarker⟩ :=
      @acceptRecord_recordEntry floor p lsn total kind raw
    rw [hacc] at hacc'
    cases hacc'
    have hlonger : (p.applied ++ (p.pending ++ [(lsn, raw)])).Pairwise fun e e' =>
      e.1 < e'.1 := by
      rw [← append_assoc]
      refine pairwise_append.mpr ⟨hsorted, pairwise_singleton .., fun e he e' he' => ?_⟩
      rw [mem_singleton.mp he']
      exact (hseen e he).trans_lt hlsn
    have hbound : ∀ e ∈ p.applied ++ (p.pending ++ [(lsn, raw)]), e.1 ≤ lsn := by
      intro e he
      rw [← append_assoc, mem_append] at he
      rcases he with he | he
      · exact le_of_lt ((hseen e he).trans_lt hlsn)
      · exact le_of_eq (congrArg Prod.fst (mem_singleton.mp he))
    rcases hkind : isBoundary kind with _ | _
    · obtain ⟨hpend, happl⟩ := hinner hkind
      refine ih ?_ ?_ hout
      · rw [hpend, happl]
        exact hlonger
      · rw [hpend, happl, hlast]
        exact hbound
    obtain ⟨hpend, happl⟩ := hmarker hkind
    have hsub : (p.applied ++
        (p.pending ++ [(lsn, raw)]).filter fun e => decide (floor < e.1)).Sublist
        (p.applied ++ (p.pending ++ [(lsn, raw)])) :=
      (List.Sublist.refl _).append filter_sublist
    refine ih ?_ ?_ hout
    · rw [hpend, happl, append_nil]
      exact hlonger.sublist hsub
    · rw [hpend, happl, append_nil, hlast]
      exact fun e he => hbound e (hsub.subset he)

end Recording

/-! ## Callbacks that do not fail -/

section Folding

variable {C : CatalogCodec} {file : Bytes} {bcap floor : ℕ} {σ : Type}
  (f : σ → ℕ → Bytes → σ) (start : σ)

/-- What a callback builds from records. -/
def foldEntries (seen : List (ℕ × Bytes)) : σ := seen.foldl (fun s e => f s e.1 e.2) start

/-- The callback. -/
def always (s : σ) (lsn : ℕ) (record : Bytes) : Except SqlError σ := .ok (f s lsn record)

/-- Progress of the recording callback, as progress of another. -/
def ReplayProgress.folded (p : ReplayProgress (List (ℕ × Bytes))) : ReplayProgress σ :=
  ⟨p.parsedOffset, p.lastSeenLsn, p.pending, p.lastLsn, p.writeOffset,
    foldEntries f start p.applied⟩

variable {f start}

lemma applyAbove_always (seen es : List (ℕ × Bytes)) :
    applyAbove floor (always f) (foldEntries f start seen) es =
      .ok (foldEntries f start (seen ++ es.filter fun e => decide (floor < e.1))) := by
  refine (applyAbove_ok f (foldEntries f start seen) es).trans ?_
  unfold foldEntries
  rw [foldl_append]

lemma acceptRecord_always (p : ReplayProgress (List (ℕ × Bytes))) (lsn total : ℕ) (kind : UInt8)
    (raw : Bytes) :
    acceptRecord floor (always f) (p.folded f start) lsn kind raw total =
      (acceptRecord floor recordEntry p lsn kind raw total).map
        (ReplayProgress.folded f start) := by
  unfold acceptRecord
  dsimp only [ReplayProgress.folded]
  rcases isBoundary kind with _ | _
  · rfl
  · rw [applyAbove_recordEntry, applyAbove_always]
    rfl

/-- **A callback that does not fail** gets what the recording callback keeps. Induction on the
scan. -/
theorem Scans.folded {p : ReplayProgress (List (ℕ × Bytes))}
    {res : Except WalSetupError (List (ℕ × Bytes) × ℕ × ℕ)}
    (hscan : Scans C file bcap floor recordEntry p res) :
    Scans C file bcap floor (always f) (p.folded f start)
      (res.map fun out => (foldEntries f start out.1, out.2)) := by
  induction hscan with
  | stop hstop => exact .stop hstop
  | refuse hrefuse => exact .refuse hrefuse
  | fail hv herr =>
    refine .fail hv ?_
    rw [acceptRecord_always, herr]
    rfl
  | accept hv hok _ ih =>
    refine .accept hv ?_ ih
    rw [acceptRecord_always, hok]
    rfl

/-- **`replay` with a callback that does not fail.** -/
theorem Wal.replay_always (w : Wal) (reads : ℕ → ℕ) :
    w.replay C floor (always f) start reads =
      (w.replay C floor recordEntry [] reads).map fun out =>
        (foldEntries f start out.1, out.2) := by
  rcases lt_or_ge w.bufferCapacity headerLen with hsmall | hlarge
  · rw [Wal.replay_small hsmall, Wal.replay_small hsmall]
    rfl
  obtain ⟨res, hscan, -⟩ := @scans_total C w.file w.bufferCapacity floor
    ⟨0, 0, [], w.lastLsn, w.writeOffset, []⟩ _ le_rfl
  have hfolded := @Scans.folded C w.file w.bufferCapacity floor σ f start _ _ hscan
  have hother : w.replay C floor (always f) start reads = _ := Wal.replay_eq hlarge hfolded
  rw [hother, Wal.replay_eq hlarge hscan]
  rcases res with e | out
  · rfl
  · rfl

/-- What `replay` hands over depends on the file only, and not on how the reads are cut. -/
lemma Wal.replay_recorded (w : Wal) :
    ∃ res : Except WalSetupError (List (ℕ × Bytes) × Wal),
      (∀ reads, w.replay C floor recordEntry [] reads = res) ∧
        ∀ out, res = .ok out → out.2.file = w.file ∧ out.1.Pairwise fun e e' => e.1 < e'.1 := by
  rcases lt_or_ge w.bufferCapacity headerLen with hsmall | hlarge
  · refine ⟨_, fun reads => Wal.replay_small hsmall, fun out h => ?_⟩
    cases h
    exact ⟨rfl, .nil⟩
  obtain ⟨res, hscan, -⟩ := @scans_total C w.file w.bufferCapacity floor
    ⟨0, 0, [], w.lastLsn, w.writeOffset, []⟩ _ le_rfl
  refine ⟨_, fun reads => Wal.replay_eq hlarge hscan, fun out h => ?_⟩
  rcases res with e | found
  · cases h
  · cases h
    exact ⟨rfl, scans_ascending hscan .nil (fun e he => (not_mem_nil he).elim) rfl⟩

/-- What `replay` hands over has ascending LSNs. -/
lemma Wal.replay_ascending {w w' : Wal} {reads : ℕ → ℕ} {journaled : List (ℕ × Bytes)}
    (h : w.replay C floor recordEntry [] reads = .ok (journaled, w')) :
    journaled.Pairwise fun e e' => e.1 < e'.1 := by
  obtain ⟨res, hres, hall⟩ := @Wal.replay_recorded C floor w
  exact (hall _ ((hres reads).symm.trans h)).2

/-- **Any bytes can be replayed**: whatever the file holds, `replay` ends, its result does not
depend on how the reads are cut, it hands records over in ascending order, each once, and leaves the
file alone. -/
theorem Wal.replay_any_file (w : Wal) (reads reads' : ℕ → ℕ) :
    w.replay C floor (always f) start reads = w.replay C floor (always f) start reads' ∧
      ∀ state w', w.replay C floor (always f) start reads = .ok (state, w') →
        w'.file = w.file ∧
          ∃ records, state = foldEntries f start records ∧
            records.Pairwise fun e e' => e.1 < e'.1 := by
  obtain ⟨res, hres, hall⟩ := @Wal.replay_recorded C floor w
  rw [Wal.replay_always, Wal.replay_always, hres, hres]
  refine ⟨rfl, fun state w' h => ?_⟩
  rcases res with e | out
  · cases h
  · cases h
    exact ⟨(hall out rfl).1, out.1, rfl, (hall out rfl).2⟩

end Folding

end Pos3ql
