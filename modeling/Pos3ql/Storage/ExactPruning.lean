import Pos3ql.Storage.RowImages

/-!
# Exact pruning

Pruning a row's history for the oldest retained snapshot keeps what that snapshot or a later one can
see, and nothing else; the cells of the rest go to the free list (**`prune_exact`**).

Source: `storage/row_versions.rs`.
-/

namespace Pos3ql

open Foundation List Function SlotPool

/-- **The versions of a row stand in commit order**, newest first, and a row that was never
committed has no history. -/
structure RowState.Ordered (row : RowState) (history : List CommittedVersion) : Prop where
  decreasing : (row.committedLsn :: history.map CommittedVersion.lsn).Pairwise (· > ·)
  fresh : row.hasCommittedVersion = false → history = []

/-- An entry that is kept is the one found at its own LSN, or at the oldest snapshot if that is
later. Induction on the history. -/
lemma find?_kept {o : ℕ} {e : CommittedVersion} {history : List CommittedVersion}
    (hdec : (history.map CommittedVersion.lsn).Pairwise (· > ·))
    (he : e ∈ keepThrough (fun v => decide (v.lsn ≤ o)) history) :
    e ∈ history ∧ history.find? (fun v => decide (v.lsn ≤ max o e.lsn)) = some e := by
  induction history with
  | nil => cases he
  | cons x history ih =>
    obtain ⟨hx, hdec⟩ := pairwise_cons.mp hdec
    unfold keepThrough at he
    split_ifs at he with hhit
    · obtain rfl := mem_singleton.mp he
      simp
    rcases mem_cons.mp he with rfl | he
    · simp
    obtain ⟨hmem, hfind⟩ := ih hdec he
    have hnewer := hx e.lsn (mem_map_of_mem hmem)
    have hmiss : ¬x.lsn ≤ max o e.lsn := by simp at hhit ⊢; omega
    exact ⟨mem_cons_of_mem _ hmem, by rwa [find?_cons_of_neg (by simpa using hmiss)]⟩

variable {κ : Type} {vs : RowVersionState} {hist : κ → CommittedHistory}
  {v : κ → PendingVersions} {hl : κ → List CommittedVersion} {pl : κ → List PendingEntry} {k : κ}
  {row : RowState}

/-- Source: `visible_version_at`, over the lists the arrays represent. -/
lemma Rep.visibleVersionAt_eq (h : Rep vs hist v hl pl) (hh : row.history = hist k)
    (hp : row.pending = v k) (txid cs s : ℕ) :
    visibleVersionAt vs row txid cs s =
      some (((pl k).find? fun e => e.change.txid == txid && decide (e.change.cid < cs)).elim
        (if row.committedLsn ≤ s then some (.committed row.committedLsn, row.committed)
          else ((hl k).find? fun v => decide (v.lsn ≤ s)).map fun v => (.committed v.lsn, v.home))
        fun e => some (.pending e.identity, e.change.loc.map .heap)) := by
  obtain ⟨cells, _, hown, hread⟩ := h.pending.chains
  obtain ⟨cells', _, hown', hread'⟩ := h.committed.chains
  have hlink' := hown'.linked (.history k)
  rw [historyTail, ← hh] at hlink'
  rw [visibleVersionAt_linked (hp ▸ hown.linked k) hlink', hread, hread']

variable [DecidableEq κ]

/-- **Pruning is exact.** It returns; every snapshot from the oldest retained one on sees what it
saw, every entry that is kept is seen by such a snapshot, and the cells of the others go to the free
list, each once. Source: `prune_committed_history`, `prune_committed_chain`. -/
theorem prune_exact (h : Rep vs hist v hl pl) (hh : row.history = hist k) (hp : row.pending = v k)
    (hord : row.Ordered (hl k)) (o : ℕ) :
    ∃ vs' history keep, pruneCommittedHistory vs row (some o) = some (vs', { row with history }) ∧
      Rep vs' (update hist k history) v (update hl k keep) pl ∧
      (∀ txid cs s, o ≤ s → visibleVersionAt vs' { row with history } txid cs s =
        visibleVersionAt vs row txid cs s) ∧
      (∀ e ∈ keep, ∀ txid, visibleVersionAt vs' { row with history } txid 0 (max o e.lsn) =
        some (some (.committed e.lsn, e.home))) ∧
      Cut vs.committedRowVersions.pool vs'.committedRowVersions.pool row.history.tail keep := by
  have hsame : update hist k row.history = hist := by rw [hh, update_eq_self]
  obtain ⟨vs', history, hprune, hrep, hcut⟩ := (hsame.symm ▸ h).pruneHistory (some o)
  have hread : ∀ txid cs s, visibleVersionAt vs' { row with history } txid cs s = _ :=
    hrep.visibleVersionAt_eq (k := k) (by simp) hp
  refine ⟨vs', history, _, hprune, hrep, fun txid cs s hs => ?_, fun e he txid => ?_, hcut⟩
  · rw [hread, h.visibleVersionAt_eq hh hp]
    rcases find? _ (pl k) with _ | e
    · by_cases hlsn : row.committedLsn ≤ s
      · simp [hlsn]
      -- the current version is too new for this snapshot, hence for the oldest one
      have hneed : row.oldestNeeding (some o) = some o := by
        have : o < row.committedLsn := by omega
        simp [RowState.oldestNeeding, Option.filter, this]
      simp [hlsn, hneed, prunedHistory, find?_keepThrough hs]
    · rfl
  · rcases hneed : row.oldestNeeding (some o) with _ | o'
    · rw [hneed] at he
      cases he
    obtain ⟨ho, hold⟩ := Option.filter_eq_some_iff.mp hneed
    cases ho
    rw [hneed] at he
    have hdec := pairwise_cons.mp hord.decreasing
    obtain ⟨hmem, hfind⟩ := find?_kept hdec.2 he
    have hhas : row.hasCommittedVersion = true := by
      by_contra hno
      rw [hord.fresh (by simpa using hno)] at hmem
      cases hmem
    have hcurrent : ¬row.committedLsn ≤ max o e.lsn := by
      have hnewer := hdec.1 e.lsn (mem_map_of_mem hmem)
      simp [hhas] at hold
      omega
    have hnone :
        (pl k).find? (fun e => e.change.txid == txid && decide (e.change.cid < 0)) = none := by
      simp
    rw [hread, hneed]
    simp only [hnone, update_self, if_neg hcurrent, prunedHistory,
      find?_keepThrough (le_max_left ..),
      hfind, Option.map_some, Option.elim]

/-- Two versions of a row in a chain of two cells. -/
def twoVersions : RowVersionState :=
  ⟨⟨⟨[], none, 0⟩, 0⟩, ⟨⟨[⟨true, none, ⟨none, 3⟩⟩, ⟨true, some 0, ⟨none, 5⟩⟩], none, 2⟩, 0⟩, false⟩

lemma twoVersions_rep :
    Rep twoVersions (fun _ : Unit => ⟨some 1, 2⟩) (fun _ => .empty)
      (fun _ => [⟨none, 5⟩, ⟨none, 3⟩]) (fun _ => []) := by
  refine ⟨⟨⟨fun o => if o = .history () then [1, 0] else [], [], ⟨?_, .nil, ?_, by simp⟩,
    fun _ => rfl⟩, fun _ => rfl, by simp [PendingVersions.empty]⟩,
    ⟨⟨fun _ => [], [], ⟨fun _ => .nil, .nil, by simp, by simp⟩, fun _ => rfl⟩, fun _ => rfl⟩⟩
  · rintro (_ | _)
    · exact .cons rfl (.cons rfl .nil)
    · exact .nil
  · rintro (_ | _) (_ | _) <;> simp

theorem prune_exact_two :
    ∃ vs' history keep,
      pruneCommittedHistory twoVersions ⟨none, 9, some 1, 9, ⟨some 1, 2⟩, .empty⟩ (some 6) =
        some (vs', ⟨none, 9, some 1, 9, history, .empty⟩) ∧
      Cut twoVersions.committedRowVersions.pool vs'.committedRowVersions.pool (some 1) keep := by
  obtain ⟨vs', history, keep, hprune, -, -, -, hcut⟩ := @prune_exact Unit _ _ _ _ _ ()
    ⟨none, 9, some 1, 9, ⟨some 1, 2⟩, .empty⟩ _ twoVersions_rep rfl rfl ⟨by decide, nofun⟩ 6
  exact ⟨vs', history, keep, hprune, hcut⟩

end Pos3ql
