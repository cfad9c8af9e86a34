import Pos3ql.Store.SstContents

/-!
# What a point lookup finds

A lookup looks into one data block. It is right when that block holds the wanted version, and the
sparse index cannot always tell: it knows first keys only.

* `Torn` is the condition on the boundary between two blocks (or two leaves) that defeats it.
* `SstHandle.Holds` is what the writer guarantees of a finished file (`build_holds`).
* **`lookup_exact_iff`**: for every file the writer finishes, every row and every snapshot, `get_at`
  and `probe_at` return the newest version at or below the snapshot exactly when no boundary is torn
  there. `lookup_misses_version` is a file of two versions for which a snapshot finds nothing.
* **`lookup_never_invents`**: what a lookup returns in any case.
* **`cached_leaf_agrees`**: the leaf a reader keeps between lookups accepts a key exactly when the
  root names it, so it never changes a result (`covers_eq`).
-/

namespace Pos3ql

open Foundation List SstKey

/-! ## The wanted version -/

/-- A version of the row the snapshot may see. -/
def wanted (rowid snapshot : ℕ) (e : DataEntry) : Bool :=
  e.key.rowid == rowid && decide (e.key.commitLsn ≤ snapshot)

/-- **What a lookup should find.** -/
def newestAt (entries : List DataEntry) (rowid snapshot : ℕ) : Option DataEntry :=
  entries.find? (wanted rowid snapshot)

variable {e : DataEntry}

/-- What a lookup wants, as a proposition. -/
lemma wanted_iff {rowid snapshot : ℕ} :
    wanted rowid snapshot e ↔ e.key.rowid = rowid ∧ e.key.commitLsn ≤ snapshot := by
  simp [wanted]

/-- In key order, the first version at or below the snapshot has the greatest commit LSN of
those. -/
lemma newestAt_eq_some_iff {es : List DataEntry} (hsorted : SortedEntries es) {rowid snap : ℕ} :
    newestAt es rowid snap = some e ↔
      e ∈ es ∧ e.key.rowid = rowid ∧ e.key.commitLsn ≤ snap ∧
        ∀ e' ∈ es, e'.key.rowid = rowid → e'.key.commitLsn ≤ snap →
          e'.key.commitLsn ≤ e.key.commitLsn := by
  unfold newestAt
  induction es with
  | nil => simp
  | cons x rest ih =>
    obtain ⟨hx, hrest⟩ := pairwise_cons.mp hsorted
    by_cases hwant : wanted rowid snap x = true
    · obtain ⟨hrow, hlsn⟩ := wanted_iff.mp hwant
      rw [find?_cons_of_pos hwant]
      constructor
      · intro h
        cases h
        refine ⟨mem_cons_self, hrow, hlsn, fun e' he' hrow' _ => ?_⟩
        rcases mem_cons.mp he' with rfl | he'
        · exact le_rfl
        · have := lt_iff.mp (hx e' he')
          omega
      · rintro ⟨he, herow, -, hmax⟩
        rcases mem_cons.mp he with rfl | he
        · rfl
        · have h₁ := lt_iff.mp (hx e he)
          have h₂ := hmax x mem_cons_self hrow hlsn
          omega
    · rw [find?_cons_of_neg hwant, ih hrest]
      have hne : ¬ (x.key.rowid = rowid ∧ x.key.commitLsn ≤ snap) :=
        fun h => hwant (wanted_iff.mpr h)
      constructor
      · rintro ⟨he, hrow, hlsn, hmax⟩
        refine ⟨mem_cons_of_mem _ he, hrow, hlsn, fun e' he' hrow' hlsn' => ?_⟩
        rcases mem_cons.mp he' with rfl | he'
        · exact absurd ⟨hrow', hlsn'⟩ hne
        · exact hmax e' he' hrow' hlsn'
      · rintro ⟨he, hrow, hlsn, hmax⟩
        rcases mem_cons.mp he with rfl | he
        · exact absurd ⟨hrow, hlsn⟩ hne
        · exact ⟨he, hrow, hlsn, (forall_mem_cons.mp hmax).2⟩

/-- The scan of a block stops early without loss. Induction on the block. -/
lemma scan_eq_find? {block : List DataEntry} (hsorted : SortedEntries block) (rowid snap : ℕ) :
    SstReader.scan rowid snap block = block.find? (wanted rowid snap) := by
  induction block with
  | nil => rfl
  | cons e rest ih =>
    obtain ⟨he, hrest⟩ := pairwise_cons.mp hsorted
    unfold SstReader.scan
    by_cases hwant : e.key.rowid = rowid ∧ e.key.commitLsn ≤ snap
    · rw [if_pos hwant, find?_cons_of_pos (wanted_iff.mpr hwant)]
    rw [if_neg hwant, find?_cons_of_neg (fun h => hwant (wanted_iff.mp h))]
    by_cases hpast : rowid < e.key.rowid
    · rw [if_pos hpast, eq_comm, find?_eq_none]
      intro e' he' hwant'
      have h₁ := lt_iff.mp (he e' he')
      have h₂ := wanted_iff.mp hwant'
      omega
    · rw [if_neg hpast]
      exact ih hrest

/-- A scan returns a wanted entry of the block. -/
lemma mem_of_scan {rowid snap : ℕ} {block : List DataEntry}
    (hscan : SstReader.scan rowid snap block = some e) :
    e ∈ block ∧ e.key.rowid = rowid ∧ e.key.commitLsn ≤ snap := by
  induction block with
  | nil => cases hscan
  | cons x rest ih =>
    unfold SstReader.scan at hscan
    split_ifs at hscan with hwanted
    · cases hscan
      exact ⟨mem_cons_self, hwanted⟩
    · exact (ih hscan).imp_left (mem_cons_of_mem _)

/-- A part of a sorted sequence that holds the version wanted from the whole yields it. -/
lemma newestAt_sublist {part entries : List DataEntry} {rowid snapshot : ℕ}
    (hsorted : SortedEntries entries) (hpart : part.Sublist entries)
    (hmem : ∀ e, newestAt entries rowid snapshot = some e → e ∈ part) :
    newestAt part rowid snapshot = newestAt entries rowid snapshot := by
  rcases hnewest : newestAt entries rowid snapshot with _ | e
  · refine find?_eq_none.mpr fun e he => ?_
    exact find?_eq_none.mp hnewest e (hpart.mem he)
  · obtain ⟨-, hrow, hlsn, hmax⟩ := (newestAt_eq_some_iff hsorted).mp hnewest
    refine (newestAt_eq_some_iff (hsorted.sublist hpart)).mpr ⟨hmem e hnewest, hrow, hlsn, ?_⟩
    exact fun e' he' => hmax e' (hpart.mem he')

/-! ## One level of the index -/

/-- **A boundary torn for a row at a snapshot**: the boundary parts versions of the row, the one
right after it is older than the snapshot, and either the run before it consists of newer versions
of the row only, or it starts with another row and ends with a version the snapshot may see. -/
def Torn (before after : List DataEntry) (rowid snapshot : ℕ) : Prop :=
  (lastKey before).rowid = rowid ∧ (firstKey after).rowid = rowid ∧
    (firstKey after).commitLsn < snapshot ∧
    ((firstKey before).rowid = rowid ∧ snapshot < (lastKey before).commitLsn ∨
      (firstKey before).rowid ≠ rowid ∧ (lastKey before).commitLsn ≤ snapshot)

instance (before after : List DataEntry) (rowid snapshot : ℕ) :
    Decidable (Torn before after rowid snapshot) := by
  unfold Torn; infer_instance

/-- Some boundary of a level is torn. -/
def LevelTorn (runs : List (List DataEntry)) (rowid snapshot : ℕ) : Prop :=
  ∃ i < runs.length - 1, Torn (runs.getD i []) (runs.getD (i + 1) []) rowid snapshot

instance (runs : List (List DataEntry)) (rowid snapshot : ℕ) :
    Decidable (LevelTorn runs rowid snapshot) := by
  unfold LevelTorn; infer_instance

section Level

variable {runs : List (List DataEntry)} {rowid snapshot i : ℕ}

/-- The first and the last key are keys of entries. -/
lemma exists_first_last {run : List DataEntry} (hne : run ≠ []) :
    (∃ e ∈ run, e.key = firstKey run) ∧ ∃ e ∈ run, e.key = lastKey run := by
  constructor
  · obtain ⟨x, rest, rfl⟩ := exists_cons_of_ne_nil hne
    exact ⟨x, mem_cons_self, rfl⟩
  · refine ⟨run.getLast hne, getLast_mem hne, ?_⟩
    simp [lastKey, getLast?_eq_some_getLast hne]

/-- The runs of one level: in key order, none empty. -/
structure Level (runs : List (List DataEntry)) : Prop where
  sorted : SortedEntries runs.flatten
  nonempty : ∀ run ∈ runs, run ≠ []

/-- No entry is there twice. -/
lemma SortedEntries.nodup {es : List DataEntry} (h : SortedEntries es) : es.Nodup := by
  refine List.Pairwise.imp ?_ h
  rintro a b hlt rfl
  exact lt_irrefl _ hlt

/-- No run is empty. -/
lemma Level.run_ne_nil (h : Level runs) (hi : i < runs.length) : runs.getD i [] ≠ [] := by
  rw [getD_eq_getElem?_getD, getElem?_eq_getElem hi]
  exact h.nonempty _ (getElem_mem hi)

/-- First keys ascend strictly. -/
lemma Level.first_lt (h : Level runs) {j : ℕ} (hij : i < j) (hj : j < runs.length) :
    firstKey (runs.getD i []) < firstKey (runs.getD j []) := by
  obtain ⟨⟨a, ha, hakey⟩, -⟩ := exists_first_last (h.run_ne_nil (lt_trans hij hj))
  obtain ⟨⟨b, hb, hbkey⟩, -⟩ := exists_first_last (h.run_ne_nil hj)
  rw [← hakey, ← hbkey]
  exact rel_of_runs h.sorted hij ha hb

/-- First keys ascend. -/
lemma Level.first_mono (h : Level runs) {j : ℕ} (hij : i ≤ j) (hj : j < runs.length) :
    firstKey (runs.getD i []) ≤ firstKey (runs.getD j []) := by
  rcases lt_or_eq_of_le hij with hlt | rfl
  · exact (h.first_lt hlt hj).le
  · exact le_rfl

/-- A run starts at or below its end. -/
lemma Level.first_le_last (h : Level runs) (hi : i < runs.length) :
    firstKey (runs.getD i []) ≤ lastKey (runs.getD i []) := by
  obtain ⟨-, e, he, hkey⟩ := exists_first_last (h.run_ne_nil hi)
  rw [← hkey]
  exact (between_first_last (pairwise_run h.sorted i) he).1

/-- Run `lo` is the last one that starts at or below the key. -/
structure LastAtMost (runs : List (List DataEntry)) (key : SstKey) (lo : ℕ) : Prop where
  bound : lo < runs.length
  le : firstKey (runs.getD lo []) ≤ key
  lt : ∀ i, lo < i → i < runs.length → key < firstKey (runs.getD i [])

/-- **The binary search over ascending first keys** ends at the last one at or below the key. -/
theorem bisectLast_firsts {first : ℕ → SstKey} {count : ℕ}
    (hmono : ∀ i j, i < j → j < count → first i < first j) {key : SstKey} (hpos : 0 < count)
    (hle : first 0 ≤ key) :
    ∃ lo < count, bisectLast (fun i =>
      decide (first i ≤ key)) count 0 (count - 1) = lo ∧
        first lo ≤ key ∧ ∀ i, lo < i → i < count → key < first i := by
  have hdown : ∀ i j, i ≤ j → j ≤ count - 1 → decide (first j ≤ key) → decide (first i ≤ key) := by
    intro i j hij hj hp
    rcases lt_or_eq_of_le hij with hlt | rfl
    · exact decide_eq_true ((hmono i j hlt (by omega)).le.trans (of_decide_eq_true hp))
    · exact hp
  obtain ⟨h₂, h₃, h₄⟩ := @bisectLast_spec _ count 0 _ _ hdown (by omega)
    zero_le (decide_eq_true hle) (Nat.le_refl _) (fun i h₁ h₂ => by omega)
  refine ⟨_, by omega, rfl, of_decide_eq_true h₃, fun i hi hlt => ?_⟩
  exact not_le.mp (of_decide_eq_false (h₄ i hi (by omega)))

/-- The bisection finds the last run that starts at or below the key. -/
lemma Level.lastAtMost (h : Level runs) {first : ℕ → SstKey}
    (hfirst : ∀ i < runs.length, first i = firstKey (runs.getD i [])) {key : SstKey}
    (hpos : 0 < runs.length) (hle : first 0 ≤ key) :
    LastAtMost runs key
      (bisectLast (fun i => decide (first i ≤ key)) runs.length 0 (runs.length - 1)) := by
  obtain ⟨lo, hlo, heq, hle, hlt⟩ := @bisectLast_firsts first _ (fun i j hij hj => by
    rw [hfirst i (hij.trans hj), hfirst j hj]
    exact h.first_lt hij hj) key hpos hle
  rw [heq]
  exact ⟨hlo, hfirst lo hlo ▸ hle, fun i hi hlt' => hfirst i hlt' ▸ hlt i hi hlt'⟩

section Search

variable {lo : ℕ}

section

variable (hlo : LastAtMost runs ⟨rowid, snapshot⟩ lo)
include hlo

section

variable (h : Level runs)
include h

/-- Earlier runs hold nothing that is wanted. -/
lemma LastAtMost.not_wanted_before :
    ∀ i < lo, ∀ e ∈ runs.getD i [], wanted rowid snapshot e = false := by
  intro i hi e he
  obtain ⟨⟨b, hb, hbkey⟩, -⟩ := exists_first_last (h.run_ne_nil hlo.bound)
  have h₁ := lt_iff.mp (rel_of_runs h.sorted hi he hb)
  rw [hbkey] at h₁
  have h₂ := le_iff.mp hlo.le
  refine Bool.eq_false_iff.mpr fun hwant => ?_
  have h₃ := wanted_iff.mp hwant
  dsimp only at h₂
  omega

/-- A wanted entry after that run makes the next run start with the row. -/
lemma LastAtMost.next_of_wanted {j : ℕ} (hj : lo < j) {e : DataEntry} (he : e ∈ runs.getD j [])
    (hwant : wanted rowid snapshot e) :
    lo + 1 < runs.length ∧ (firstKey (runs.getD (lo + 1) [])).rowid = rowid := by
  have hjlen : j < runs.length := by
    by_contra hge
    rw [getD_eq_getElem?_getD, getElem?_eq_none (by omega)] at he
    cases he
  have hlen : lo + 1 < runs.length := by omega
  refine ⟨hlen, ?_⟩
  have h₁ := lt_iff.mp (hlo.lt (lo + 1) (by omega) hlen)
  have h₂ := le_iff.mp ((h.first_mono (show lo + 1 ≤ j by omega) hjlen).trans
    (between_first_last (pairwise_run h.sorted j) he).1)
  have h₃ := wanted_iff.mp hwant
  dsimp only at h₁
  omega

/-- A next run that starts with the row holds something wanted. -/
lemma LastAtMost.next_wanted (hlen : lo + 1 < runs.length)
    (hrow : (firstKey (runs.getD (lo + 1) [])).rowid = rowid) :
    (firstKey (runs.getD (lo + 1) [])).commitLsn < snapshot ∧
      ∃ e ∈ runs.getD (lo + 1) [], wanted rowid snapshot e := by
  have hlt := lt_iff.mp (hlo.lt (lo + 1) (by omega) hlen)
  dsimp only at hlt
  obtain ⟨⟨e, he, hkey⟩, -⟩ := exists_first_last (h.run_ne_nil hlen)
  refine ⟨by omega, e, he, wanted_iff.mpr ?_⟩
  rw [hkey]
  exact ⟨hrow, by omega⟩

/-- Only the boundary after the found run can be torn. -/
lemma LastAtMost.levelTorn_iff :
    LevelTorn runs rowid snapshot ↔
      lo + 1 < runs.length ∧ Torn (runs.getD lo []) (runs.getD (lo + 1) []) rowid snapshot := by
  constructor
  · rintro ⟨i, hi, htorn⟩
    obtain ⟨hlast, hnext, hlsn, hcase⟩ := htorn
    have hrun := le_iff.mp (h.first_le_last (show i < runs.length by omega))
    -- the torn boundary encloses the key
    have hi₁ : ¬ lo < i := by
      intro hlt
      have h₁ := lt_iff.mp (hlo.lt i hlt (by omega))
      dsimp only at h₁
      omega
    have hi₂ : ¬ i < lo := by
      intro hlt
      have h₁ := le_iff.mp ((h.first_mono (show i + 1 ≤ lo by omega) hlo.bound).trans hlo.le)
      dsimp only at h₁
      omega
    obtain rfl : i = lo := by omega
    exact ⟨by omega, hlast, hnext, hlsn, hcase⟩
  · rintro ⟨hlen, htorn⟩
    exact ⟨lo, by omega, htorn⟩

/-- When the run and the next one both start with the row, every entry of the run is a version of
it, and none is wanted exactly when the last is too new. -/
lemma LastAtMost.none_wanted_iff (hlen : lo + 1 < runs.length)
    (hnext : (firstKey (runs.getD (lo + 1) [])).rowid = rowid) :
    (∀ e ∈ runs.getD lo [], wanted rowid snapshot e = false) ↔
      ¬ ((lastKey (runs.getD lo [])).rowid = rowid ∧
        (lastKey (runs.getD lo [])).commitLsn ≤ snapshot) := by
  obtain ⟨-, z, hz, hzkey⟩ := exists_first_last (h.run_ne_nil hlo.bound)
  constructor
  · intro hnone hlast
    have hwant : wanted rowid snapshot z := by
      rw [wanted_iff, hzkey]
      exact hlast
    rw [hnone z hz] at hwant
    cases hwant
  intro hlast e he
  refine Bool.eq_false_iff.mpr fun hwant => hlast ?_
  have h₁ := wanted_iff.mp hwant
  have h₂ := le_iff.mp (between_first_last (pairwise_run h.sorted lo) he).2
  obtain ⟨⟨b, hb, hbkey⟩, -⟩ := exists_first_last (h.run_ne_nil hlen)
  have h₃ := lt_iff.mp (rel_of_runs h.sorted (lt_add_one lo) hz hb)
  rw [hzkey, hbkey] at h₃
  omega

end

end

end Search

/-- **One level of the search is right exactly when no boundary of the level is torn.** -/
theorem Level.search_iff (h : Level runs) {first : ℕ → SstKey}
    (hfirst : ∀ i < runs.length, first i = firstKey (runs.getD i [])) (hpos : 0 < runs.length)
    (hle : first 0 ≤ ⟨rowid, snapshot⟩) :
    runs.flatten.find? (wanted rowid snapshot) =
      (runs.getD (searchFirsts first runs.length ⟨rowid, snapshot⟩) []).find?
        (wanted rowid snapshot) ↔ ¬ LevelTorn runs rowid snapshot := by
  have hlo := h.lastAtMost hfirst hpos hle
  unfold searchFirsts
  dsimp only
  generalize bisectLast (fun i => decide (first i ≤ ⟨rowid, snapshot⟩)) runs.length 0
    (runs.length - 1) = lo at hlo ⊢
  rw [find?_flatten_eq_iff _ h.sorted.nodup, hlo.levelTorn_iff h]
  have hbefore := hlo.not_wanted_before h
  rw [hfirst lo hlo.bound]
  by_cases hlen : lo + 1 < runs.length
  swap
  · -- the last run: nothing follows
    rw [if_neg (fun hcond => hlen hcond.2.1)]
    refine iff_of_true ⟨hbefore, .inr fun j hj e he => ?_⟩ (fun htorn => hlen htorn.1)
    exact Bool.eq_false_iff.mpr fun hwant => hlen (hlo.next_of_wanted h hj he hwant).1
  rw [hfirst _ hlen]
  have hlt := hlo.lt (lo + 1) (by omega) hlen
  by_cases hnext : (firstKey (runs.getD (lo + 1) [])).rowid = rowid
  swap
  · -- the next run starts another row: nothing wanted follows
    rw [if_neg (fun hcond => hnext hcond.2.2.1)]
    refine iff_of_true ⟨hbefore, .inr fun j hj e he => ?_⟩ (fun htorn => hnext htorn.2.2.1)
    exact Bool.eq_false_iff.mpr fun hwant => hnext (hlo.next_of_wanted h hj he hwant).2
  obtain ⟨hlsn, hnextWanted⟩ := hlo.next_wanted h hlen hnext
  have hnone := hlo.none_wanted_iff h hlen hnext
  by_cases hrow : (firstKey (runs.getD lo [])).rowid = rowid
  · -- both runs start with the row: the search stays, and misses the next run if nothing is
    -- wanted here
    rw [if_neg (fun hcond => hcond.1 hrow)]
    have hlast : (lastKey (runs.getD lo [])).rowid = rowid := by
      obtain ⟨-, z, hz, hzkey⟩ := exists_first_last (h.run_ne_nil hlo.bound)
      obtain ⟨⟨b, hb, hbkey⟩, -⟩ := exists_first_last (h.run_ne_nil hlen)
      have h₁ := lt_iff.mp (rel_of_runs h.sorted (lt_add_one lo) hz hb)
      have h₂ := le_iff.mp (h.first_le_last hlo.bound)
      rw [hzkey, hbkey] at h₁
      omega
    have htorn : Torn (runs.getD lo []) (runs.getD (lo + 1) []) rowid snapshot ↔
        snapshot < (lastKey (runs.getD lo [])).commitLsn := by
      unfold Torn
      simp only [hlast, hnext, hlsn, hrow, true_and, ne_eq, not_true_eq_false, false_and, or_false]
    rw [htorn]
    constructor
    · rintro ⟨-, ⟨e, he, hwant⟩ | hrest⟩ ⟨-, hnew⟩
      · rw [hnone.mpr (by omega) e he] at hwant
        cases hwant
      · obtain ⟨e, he, hwant⟩ := hnextWanted
        rw [hrest (lo + 1) (by omega) e he] at hwant
        cases hwant
    · intro hold
      refine ⟨hbefore, .inl ?_⟩
      by_contra hno
      refine absurd (hnone.mp fun e he => ?_) (not_not.mpr ⟨hlast, by omega⟩)
      exact Bool.eq_false_iff.mpr fun hwant => hno ⟨e, he, hwant⟩
  · -- only the next run starts with the row: the search moves on, and misses what is wanted here
    rw [if_pos ⟨hrow, hlen, hnext, hlt⟩]
    have htorn : Torn (runs.getD lo []) (runs.getD (lo + 1) []) rowid snapshot ↔
        (lastKey (runs.getD lo [])).rowid = rowid ∧
          (lastKey (runs.getD lo [])).commitLsn ≤ snapshot := by
      unfold Torn
      simp only [hnext, hlsn, hrow, true_and, ne_eq, not_false_eq_true, false_and, false_or]
    rw [htorn]
    constructor
    · rintro ⟨hall, -⟩ ⟨-, hlast⟩
      exact hnone.mp (hall lo (lt_add_one lo)) hlast
    intro hold
    refine ⟨fun i hi => ?_, .inl hnextWanted⟩
    rcases lt_or_eq_of_le (Nat.le_of_lt_succ hi) with hi | rfl
    · exact hbefore i hi
    · exact hnone.mpr fun hlast => hold ⟨hlen, hlast⟩

/-- **Below the first key** nothing is torn, and what is wanted is in the first run. -/
theorem Level.below_first (h : Level runs) (hpos : 0 < runs.length)
    (hlt : ⟨rowid, snapshot⟩ < firstKey (runs.getD 0 [])) :
    ¬ LevelTorn runs rowid snapshot ∧
      runs.flatten.find? (wanted rowid snapshot) = (runs.getD 0 []).find? (wanted rowid snapshot) ∧
      ((firstKey (runs.getD 0 [])).rowid ≠ rowid →
        runs.flatten.find? (wanted rowid snapshot) = none) := by
  have hkey := lt_iff.mp hlt
  dsimp only at hkey
  -- every run starts above the key
  have hfirsts : ∀ i < runs.length, ⟨rowid, snapshot⟩ < firstKey (runs.getD i []) := by
    intro i hi
    rcases Nat.eq_zero_or_pos i with rfl | hi'
    · exact hlt
    · exact hlt.trans (h.first_lt hi' hi)
  have hwanted : ∀ j, ∀ e ∈ runs.getD j [], wanted rowid snapshot e →
      (firstKey (runs.getD 0 [])).rowid = rowid := by
    intro j e he hwant
    have hj : j < runs.length := by
      by_contra hge
      rw [getD_eq_getElem?_getD, getElem?_eq_none (by omega)] at he
      cases he
    have h₁ := wanted_iff.mp hwant
    have h₂ := le_iff.mp ((h.first_mono (Nat.zero_le j) hj).trans
      (between_first_last (pairwise_run h.sorted j) he).1)
    omega
  refine ⟨?_, ?_, fun hne => ?_⟩
  · rintro ⟨i, hi, hlast, hnext, hlsn, hcase⟩
    have h₁ := lt_iff.mp (hfirsts i (by omega))
    have h₂ := le_iff.mp (h.first_le_last (show i < runs.length by omega))
    dsimp only at h₁
    omega
  · refine (find?_flatten_eq_iff _ h.sorted.nodup 0).mpr ⟨nofun, ?_⟩
    by_cases hrow : (firstKey (runs.getD 0 [])).rowid = rowid
    · obtain ⟨⟨e, he, hkey'⟩, -⟩ := exists_first_last (h.run_ne_nil hpos)
      refine .inl ⟨e, he, wanted_iff.mpr ?_⟩
      rw [hkey']
      exact ⟨hrow, by omega⟩
    · exact .inr fun j _ e he =>
        Bool.eq_false_iff.mpr fun hwant => hrow (hwanted j e he hwant)
  · rw [find?_eq_none]
    intro e he hwant
    obtain ⟨run, hrun, he⟩ := mem_flatten.mp he
    obtain ⟨j, hj⟩ := mem_iff_getElem?.mp hrun
    refine hne (hwanted j e ?_ hwant)
    rw [getD_eq_getElem?_getD, hj]
    exact he

end Level

/-! ## Finished files -/

/-- Some boundary of the file, between leaves or between blocks of a leaf, is torn. -/
def SstHandle.Torn (handle : SstHandle) (rowid snapshot : ℕ) : Prop :=
  LevelTorn (handle.leaves.map leafEntries) rowid snapshot ∨
    ∃ leaf ∈ handle.leaves, LevelTorn (leaf.map IndexEntry.block) rowid snapshot

instance (handle : SstHandle) (rowid snapshot : ℕ) : Decidable (handle.Torn rowid snapshot) := by
  unfold SstHandle.Torn; infer_instance

section Lookup

variable {handle : SstHandle} {entries : List DataEntry} {rowid snapshot : ℕ}

section

variable (h : handle.Holds entries) {leaf : List IndexEntry}
include h

/-- The leaves are a level. -/
lemma SstHandle.Holds.leafLevel : Level (handle.leaves.map leafEntries) := by
  refine ⟨by rw [h.content]; exact h.sorted, fun run hrun => ?_⟩
  obtain ⟨leaf, hleaf, rfl⟩ := mem_map.mp hrun
  obtain ⟨e, rest, hcons⟩ := exists_cons_of_ne_nil (h.leaf leaf hleaf)
  have hblock := (h.block leaf hleaf e (hcons ▸ mem_cons_self)).1
  rw [hcons]
  exact fun hnil => hblock (append_eq_nil_iff.mp hnil).1

/-- The blocks of a leaf are a level. -/
lemma SstHandle.Holds.blockLevel (hleaf : leaf ∈ handle.leaves) :
    Level (leaf.map IndexEntry.block) := by
  refine ⟨?_, fun run hrun => ?_⟩
  · have hsorted := h.sorted
    rw [← h.content] at hsorted
    exact (pairwise_flatten.mp hsorted).1 _ (mem_map_of_mem hleaf)
  · obtain ⟨e, he, rfl⟩ := mem_map.mp hrun
    exact (h.block leaf hleaf e he).1

/-- An index entry carries the first key of its block. -/
lemma SstHandle.Holds.indexFirst_eq (hleaf : leaf ∈ handle.leaves) :
    ∀ i < (leaf.map IndexEntry.block).length,
      indexFirst leaf i = firstKey ((leaf.map IndexEntry.block).getD i []) := by
  intro i hi
  rw [length_map] at hi
  have hget := (h.block leaf hleaf leaf[i] (getElem_mem hi)).2
  simp only [indexFirst, getD_eq_getElem?_getD, getElem?_map, getElem?_eq_getElem hi]
  exact hget

/-- **The search in a leaf** is right exactly when no boundary between its blocks is torn. -/
theorem SstHandle.Holds.blockIn_iff (hleaf : leaf ∈ handle.leaves) :
    (SstReader.blockIn leaf ⟨rowid, snapshot⟩).bind (SstReader.scan rowid snapshot) =
        (leafEntries leaf).find? (wanted rowid snapshot) ↔
      ¬ LevelTorn (leaf.map IndexEntry.block) rowid snapshot := by
  have hlevel := h.blockLevel hleaf
  have hfirst := h.indexFirst_eq hleaf
  have hlen : (leaf.map IndexEntry.block).length = leaf.length := length_map ..
  have hpos : 0 < leaf.length := length_pos_of_ne_nil (h.leaf leaf hleaf)
  -- the scan of the block at an index is a search in the run there
  have hscan : ∀ i, SstReader.scan rowid snapshot (leaf.getD i default).block =
      ((leaf.map IndexEntry.block).getD i []).find? (wanted rowid snapshot) := by
    intro i
    have hget : (leaf.map IndexEntry.block).getD i [] = (leaf.getD i default).block := by
      simp only [getD_eq_getElem?_getD, getElem?_map]
      rcases leaf[i]? with _ | e
      · rfl
      · rfl
    rw [hget]
    refine scan_eq_find? ?_ rowid snapshot
    rw [← hget]
    exact pairwise_run hlevel.sorted i
  unfold SstReader.blockIn blockContaining
  rw [if_neg (by omega)]
  by_cases hlt : (⟨rowid, snapshot⟩ : SstKey) < indexFirst leaf 0
  · rw [if_pos hlt]
    rw [hfirst 0 (by omega)] at hlt ⊢
    obtain ⟨hnot, hfirstRun, hnone⟩ := hlevel.below_first (by omega) hlt
    refine iff_of_true ?_ hnot
    by_cases hrow : rowid = (firstKey ((leaf.map IndexEntry.block).getD 0 [])).rowid
    · rw [if_pos hrow]
      exact (hscan 0).trans hfirstRun.symm
    · rw [if_neg hrow]
      exact (hnone fun heq => hrow heq.symm).symm
  · rw [if_neg hlt]
    have hsearch := hlevel.search_iff hfirst (by omega) (not_lt.mp hlt)
    rw [hlen] at hsearch
    rw [← hsearch, Option.map_some, Option.bind_some, hscan]
    exact eq_comm

/-- A root entry carries the first key of its leaf. -/
lemma SstHandle.Holds.rootFirst_eq {roots : List RootEntry} (hroot : handle.index = .root roots) :
    handle.leaves = roots.map RootEntry.leaf ∧ ∀ i < (handle.leaves.map leafEntries).length,
        rootFirst roots i = firstKey ((handle.leaves.map leafEntries).getD i []) := by
  have hlvs : handle.leaves = roots.map RootEntry.leaf := by
    unfold SstHandle.leaves
    rw [hroot]
  refine ⟨hlvs, fun i hi => ?_⟩
  rw [hlvs, map_map] at hi ⊢
  rw [length_map] at hi
  have hget := h.root roots hroot roots[i] (getElem_mem hi)
  simp only [rootFirst, getD_eq_getElem?_getD, getElem?_map, getElem?_eq_getElem hi]
  exact hget

/-- The first keys of the root ascend. -/
lemma SstHandle.Holds.rootFirst_lt {roots : List RootEntry} (hroot : handle.index = .root roots) :
    ∀ i j, i < j → j < roots.length → rootFirst roots i < rootFirst roots j := by
  obtain ⟨hlvs, hfirst⟩ := h.rootFirst_eq hroot
  have hlen : (handle.leaves.map leafEntries).length = roots.length := by
    rw [hlvs, length_map, length_map]
  intro i j hij hj
  rw [hfirst i (by omega), hfirst j (by omega)]
  exact h.leafLevel.first_lt hij (by omega)

end

/-- The leaf the root names for a key, counted from zero. -/
def leafAt (roots : List RootEntry) (key : SstKey) : ℕ := (rootLeafContaining roots key).getD 0

section Boundaries

variable {first : ℕ → SstKey} {count : ℕ}

/-- The boundary is above the left key. -/
lemma lt_leafBoundary {left right : SstKey} (hlt : left < right) :
    left < leafBoundary left right := by
  unfold leafBoundary
  by_cases hrow : left.rowid = right.rowid
  · rw [if_pos hrow]
    exact hlt
  · rw [if_neg hrow]
    rw [lt_iff] at hlt ⊢
    exact .inl (by change left.rowid < right.rowid; omega)

/-- **A key lies in one leaf only**: no leaf whose upper boundary is above it comes before one whose
lower boundary is not. -/
theorem leaf_not_before (hmono : ∀ i j, i < j → j < count → first i < first j)
    (hsnap : snapshot ≤ 2 ^ 64 - 1) {i j : ℕ} (hj : j < count) (hpos : 0 < j)
    (hupper : ⟨rowid, snapshot⟩ < leafBoundary (first i) (first (i + 1)))
    (hlower : leafBoundary (first (j - 1)) (first j) ≤ ⟨rowid, snapshot⟩) :
    ¬ i < j := by
  intro hij
  rcases lt_or_eq_of_le (show i + 1 ≤ j by omega) with hlt | rfl
  · have h₁ := lt_iff.mp (lt_leafBoundary (hmono (j - 1) j (by omega) hj))
    rw [le_iff] at hlower
    -- the first key of leaf `i + 1` is at or below that of leaf `j - 1`
    have h₂ : first (i + 1) ≤ first (j - 1) := by
      rcases lt_or_eq_of_le (show i + 1 ≤ j - 1 by omega) with hlt' | heq
      · exact (hmono (i + 1) (j - 1) hlt' (by omega)).le
      · rw [← heq]
    rw [le_iff] at h₂
    unfold leafBoundary at hupper
    split_ifs at hupper
    · rw [lt_iff] at hupper
      omega
    · rw [lt_iff] at hupper
      simp only [newest] at hupper hlower
      omega
  · rw [le_iff] at hlower
    rw [lt_iff] at hupper
    simp only [Nat.add_sub_cancel] at hlower
    dsimp only at hupper hlower
    omega

/-- **The leaf a search picks lies between the boundaries around it**: its own is at or below the
key, the next one above. -/
theorem leafAt_between {roots : List RootEntry} (hpos : 0 < roots.length)
    (hmono : ∀ i j, i < j → j < roots.length → rootFirst roots i < rootFirst roots j) :
    leafAt roots ⟨rowid, snapshot⟩ < roots.length ∧
      (snapshot ≤ 2 ^ 64 - 1 → 0 < leafAt roots ⟨rowid, snapshot⟩ →
        leafBoundary (rootFirst roots (leafAt roots ⟨rowid, snapshot⟩ - 1))
          (rootFirst roots (leafAt roots ⟨rowid, snapshot⟩)) ≤ ⟨rowid, snapshot⟩) ∧
      (leafAt roots ⟨rowid, snapshot⟩ + 1 < roots.length →
        ⟨rowid, snapshot⟩ <
          leafBoundary (rootFirst roots (leafAt roots ⟨rowid, snapshot⟩))
            (rootFirst roots (leafAt roots ⟨rowid, snapshot⟩ + 1))) := by
  have hnext : ∀ i, i + 1 < roots.length → rootFirst roots i < rootFirst roots (i + 1) :=
    fun i hi => hmono i (i + 1) (lt_add_one i) hi
  unfold leafAt rootLeafContaining
  by_cases hlt : (⟨rowid, snapshot⟩ : SstKey) < rootFirst roots 0
  · rw [if_pos (.inr hlt)]
    refine ⟨hpos, fun _ h0 => absurd h0 (lt_irrefl 0), fun hnext' => ?_⟩
    exact hlt.trans (lt_leafBoundary (hnext 0 hnext'))
  rw [if_neg (fun hor => hor.elim (by omega) hlt), Option.getD_some]
  obtain ⟨lo, hbound, hlo, hfirstLe, hfirstLt⟩ := bisectLast_firsts hmono hpos (not_lt.mp hlt)
  unfold searchFirsts
  dsimp only
  rw [hlo]
  rw [le_iff] at hfirstLe
  dsimp only at hfirstLe
  split_ifs with hcond
  · obtain ⟨hne, hlast, hrow, hkey⟩ := hcond
    refine ⟨hlast, fun hsnap _ => ?_, fun hnext' => ?_⟩
    · rw [leafBoundary, if_neg (hrow ▸ hne)]
      exact .inr ⟨hrow, hsnap⟩
    exact hkey.trans (lt_leafBoundary (hnext (lo + 1) hnext'))
  refine ⟨hbound, fun hsnap _ => ?_, fun hnext' => ?_⟩
  · unfold leafBoundary
    split_ifs
    · rw [le_iff]
      exact hfirstLe
    · rw [le_iff]
      simp only [newest]
      omega
  have hkey := hfirstLt (lo + 1) (lt_add_one lo) hnext'
  unfold leafBoundary
  split_ifs with hrow
  · exact hkey
  have hother : (rootFirst roots (lo + 1)).rowid ≠ rowid := by
    intro heq
    exact hcond ⟨fun heq' => hrow (heq'.trans heq.symm), hnext', heq, hkey⟩
  rw [lt_iff] at hkey ⊢
  simp only [newest]
  dsimp only at hkey
  omega

/-- What a reader keeps of the leaf of a root entry. Source: the end of `load_covering_leaf`. -/
def leafRecord (handle : SstHandle) (roots : List RootEntry) (i : ℕ) : SstIndexLeaf :=
  ⟨handle, (roots.getD i default).leaf,
    if 0 < i then some (leafBoundary (rootFirst roots (i - 1)) (rootFirst roots i)) else none,
    if i + 1 < roots.length then some (leafBoundary (rootFirst roots i) (rootFirst roots (i + 1)))
    else none⟩

/-- Below a root the covering leaf is found by its first key. -/
lemma loadCoveringLeaf_root {handle : SstHandle} {roots : List RootEntry}
    (hindex : handle.index = .root roots) (key : SstKey) :
    loadCoveringLeaf handle key = leafRecord handle roots (leafAt roots key) := by
  unfold loadCoveringLeaf
  rw [hindex]
  rfl

/-- **A kept leaf accepts a key exactly when the root names it for the key.** -/
lemma covers_leafRecord_iff {handle : SstHandle} {roots : List RootEntry}
    (hmono : ∀ i j, i < j → j < roots.length → rootFirst roots i < rootFirst roots j)
    (hsnap : snapshot ≤ 2 ^ 64 - 1) {i : ℕ} (hi : i < roots.length) :
    (leafRecord handle roots i).covers handle ⟨rowid, snapshot⟩ ↔
      leafAt roots ⟨rowid, snapshot⟩ = i := by
  obtain ⟨hnew, hlower, hupper⟩ :=
    @leafAt_between rowid snapshot roots (Nat.zero_lt_of_lt hi) hmono
  simp only [leafRecord, SstIndexLeaf.covers, decide_true, Bool.true_and, Bool.and_eq_true]
  generalize leafAt roots ⟨rowid, snapshot⟩ = new at *
  constructor
  · rintro ⟨hlower', hupper'⟩
    rcases lt_trichotomy i new with hlt | heq | hlt
    · rw [if_pos (by omega)] at hupper'
      exact absurd hlt (leaf_not_before hmono hsnap hnew (by omega)
        (of_decide_eq_true hupper') (hlower hsnap (by omega)))
    · exact heq.symm
    · rw [if_pos (by omega)] at hlower'
      exact absurd hlt (leaf_not_before hmono hsnap hi (by omega)
        (hupper (by omega)) (of_decide_eq_true hlower'))
  · rintro rfl
    constructor
    · split_ifs with hpos
      · exact decide_eq_true (hlower hsnap hpos)
      · rfl
    · split_ifs with hnext
      · exact decide_eq_true (hupper hnext)
      · rfl

end Boundaries

/-- **The kept leaf agrees with the root**, for every index of two levels with ascending first keys:
the bounds that are kept with a leaf accept a key exactly when the search in the root names that
leaf. -/
theorem cached_leaf_agrees {handle : SstHandle} {roots : List RootEntry}
    (hindex : handle.index = .root roots)
    (hsorted : roots.Pairwise fun entry entry' => entry.first < entry'.first) (key : SstKey)
    (hkey : key.commitLsn ≤ 2 ^ 64 - 1) :
    loadCoveringLeaf handle key = leafRecord handle roots ((rootLeafContaining roots key).getD 0) ∧
    ∀ i < roots.length, (leafRecord handle roots i).covers handle key = true ↔
      (rootLeafContaining roots key).getD 0 = i := by
  refine ⟨loadCoveringLeaf_root hindex key, fun i hi =>
    @covers_leafRecord_iff key.rowid key.commitLsn handle roots (fun i j hij hj => ?_) hkey i hi⟩
  unfold rootFirst
  rw [getD_eq_getElem _ _ (hij.trans hj), getD_eq_getElem _ _ hj]
  exact pairwise_iff_getElem.mp hsorted i j _ hj hij

/-- A root of two leaves, and a key of the second. -/
theorem second_leaf_covers :
    let roots : List RootEntry := [⟨⟨1, 5⟩, []⟩, ⟨⟨2, 5⟩, []⟩]
    (leafRecord ⟨.root roots, default⟩ roots 1).covers ⟨.root roots, default⟩ ⟨2, 7⟩ = true :=
  ((cached_leaf_agrees rfl (by decide) ⟨2, 7⟩ (by decide)).2 1 (by decide)).mpr (by decide)

section

variable (h : handle.Holds entries)
include h

/-- A root has leaves. -/
lemma SstHandle.Holds.roots_pos {roots : List RootEntry} (hroot : handle.index = .root roots) :
    0 < roots.length := by
  have hpos := length_pos_of_ne_nil h.leaves
  rwa [(h.rootFirst_eq hroot).1, length_map] at hpos

/-- **A kept leaf serves what a fresh one would.** -/
theorem SstHandle.Holds.covers_eq {key : SstKey} (hsnap : snapshot ≤ 2 ^ 64 - 1)
    (hcov : (loadCoveringLeaf handle key).covers handle ⟨rowid, snapshot⟩) :
    (loadCoveringLeaf handle key).entries =
      (loadCoveringLeaf handle ⟨rowid, snapshot⟩).entries := by
  rcases hindex : handle.index with leaf | roots
  · unfold loadCoveringLeaf
    rw [hindex]
  have hmono := h.rootFirst_lt hindex
  have hold := (@leafAt_between key.rowid key.commitLsn _ (h.roots_pos hindex) hmono).1
  rw [loadCoveringLeaf_root hindex] at hcov ⊢
  rw [loadCoveringLeaf_root hindex, (covers_leafRecord_iff hmono hsnap hold).mp hcov]

/-- The covering leaf is one of the file. -/
lemma SstHandle.Holds.loadCoveringLeaf_mem (key : SstKey) :
    (loadCoveringLeaf handle key).entries ∈ handle.leaves := by
  unfold loadCoveringLeaf
  rcases hindex : handle.index with leaf | roots
  · unfold SstHandle.leaves
    rw [hindex]
    exact mem_singleton_self leaf
  have hbound : leafAt roots key < _ :=
    (@leafAt_between key.rowid key.commitLsn _ (h.roots_pos hindex) (h.rootFirst_lt hindex)).1
  rw [(h.rootFirst_eq hindex).1]
  refine mem_map_of_mem ?_
  change roots.getD (leafAt roots key) default ∈ roots
  rw [getD_eq_getElem?_getD, getElem?_eq_getElem hbound]
  exact getElem_mem hbound

/-- **The choice of the leaf** is right exactly when no boundary between leaves is torn. -/
theorem SstHandle.Holds.leaf_iff :
    (leafEntries (loadCoveringLeaf handle ⟨rowid, snapshot⟩).entries).find? (wanted rowid snapshot)
      = newestAt entries rowid snapshot ↔
      ¬ LevelTorn (handle.leaves.map leafEntries) rowid snapshot := by
  have hlevel := h.leafLevel
  unfold newestAt
  rcases hindex : handle.index with leaf | roots
  · have hlvs : handle.leaves = [leaf] := by
      unfold SstHandle.leaves
      rw [hindex]
    have hload : (loadCoveringLeaf handle ⟨rowid, snapshot⟩).entries = leaf := by
      unfold loadCoveringLeaf
      rw [hindex]
    have hcontent := h.content
    rw [hlvs] at hcontent ⊢
    simp only [map_cons, map_nil, flatten_cons, flatten_nil, append_nil] at hcontent
    rw [hload, hcontent]
    refine iff_of_true rfl ?_
    rintro ⟨i, hi, -⟩
    nomatch hi
  obtain ⟨hlvs, hfirst⟩ := h.rootFirst_eq hindex
  have hload : leafEntries (loadCoveringLeaf handle ⟨rowid, snapshot⟩).entries =
      (handle.leaves.map leafEntries).getD (leafAt roots ⟨rowid, snapshot⟩) [] := by
    unfold loadCoveringLeaf
    rw [hindex, hlvs]
    simp only [getD_eq_getElem?_getD, getElem?_map]
    change leafEntries ((roots[leafAt roots ⟨rowid, snapshot⟩]?).getD default).leaf = _
    rcases roots[leafAt roots ⟨rowid, snapshot⟩]? with _ | root
    · rfl
    · rfl
  rw [hload, ← h.content]
  have hlen : (handle.leaves.map leafEntries).length = roots.length := by
    rw [hlvs, length_map, length_map]
  have hpos := h.roots_pos hindex
  unfold leafAt rootLeafContaining
  by_cases hlt : (⟨rowid, snapshot⟩ : SstKey) < rootFirst roots 0
  · rw [if_pos (.inr hlt)]
    rw [hfirst 0 (by omega)] at hlt
    obtain ⟨hnot, hfirstRun, -⟩ := hlevel.below_first (by omega) hlt
    exact iff_of_true hfirstRun.symm hnot
  rw [if_neg (fun hor => hor.elim (by omega) hlt)]
  have hsearch := hlevel.search_iff hfirst (by omega) (not_lt.mp hlt)
  rw [hlen] at hsearch
  rw [← hsearch]
  exact eq_comm

/-- A leaf's entries are entries of the file, in order. -/
lemma SstHandle.Holds.leafEntries_sublist {leaf : List IndexEntry}
    (hleaf : leaf ∈ handle.leaves) : (leafEntries leaf).Sublist entries := by
  rw [← h.content]
  exact sublist_flatten_of_mem (mem_map_of_mem hleaf)

/-- An entry of one leaf comes before the entries of any other leaf, or after them. -/
lemma SstHandle.Holds.leaf_cases {leaf leaf' : List IndexEntry} (hleaf : leaf ∈ handle.leaves)
    (hleaf' : leaf' ∈ handle.leaves) {e : DataEntry} (he : e ∈ leafEntries leaf) :
    leaf = leaf' ∨ (∀ e' ∈ leafEntries leaf', e.key < e'.key) ∨
      ∀ e' ∈ leafEntries leaf', e'.key < e.key := by
  obtain ⟨i, hi⟩ := mem_iff_getElem?.mp hleaf
  obtain ⟨j, hj⟩ := mem_iff_getElem?.mp hleaf'
  have hsorted := h.leafLevel.sorted
  have hrun : ∀ {k : ℕ} {l : List IndexEntry}, handle.leaves[k]? = some l →
      (handle.leaves.map leafEntries).getD k [] = leafEntries l := by
    intro k l hk
    rw [getD_eq_getElem?_getD, getElem?_map, hk]
    rfl
  rcases lt_trichotomy i j with hlt | rfl | hlt
  · refine .inr (.inl fun e' he' => rel_of_runs hsorted hlt ?_ ?_)
    · rw [hrun hi]; exact he
    · rw [hrun hj]; exact he'
  · exact .inl (Option.some.inj (hi.symm.trans hj))
  · refine .inr (.inr fun e' he' => rel_of_runs hsorted hlt ?_ ?_)
    · rw [hrun hj]; exact he'
    · rw [hrun hi]; exact he

/-- A torn boundary in a leaf: the version wanted from the whole file is in that leaf. -/
lemma SstHandle.Holds.newestAt_mem_of_torn {leaf : List IndexEntry}
    (hleaf : leaf ∈ handle.leaves) (htorn : LevelTorn (leaf.map IndexEntry.block) rowid snapshot) :
    ∃ e ∈ leafEntries leaf, newestAt entries rowid snapshot = some e := by
  have hlevel := h.blockLevel hleaf
  obtain ⟨i, hi, hlast, hnext, hlsn, hcase⟩ := htorn
  -- the ends of the run before the boundary, and the first entry after it
  obtain ⟨⟨a, ha, hakey⟩, z, hz, hzkey⟩ := exists_first_last
    (hlevel.run_ne_nil (show i < (leaf.map IndexEntry.block).length by omega))
  obtain ⟨⟨y, hy, hykey⟩, -⟩ := exists_first_last
    (hlevel.run_ne_nil (show i + 1 < (leaf.map IndexEntry.block).length by omega))
  have hmem : ∀ {k : ℕ} {e : DataEntry}, e ∈ (leaf.map IndexEntry.block).getD k [] →
      e ∈ leafEntries leaf := by
    intro k e he
    rw [getD_eq_getElem?_getD] at he
    rcases hget : (leaf.map IndexEntry.block)[k]? with _ | run
    · rw [hget] at he
      cases he
    · rw [hget] at he
      exact mem_flatten.mpr ⟨run, mem_of_getElem? hget, he⟩
  rw [← hzkey, ← hakey] at hcase
  rw [← hykey] at hnext hlsn
  rw [← hzkey] at hlast
  have hwant : wanted rowid snapshot y := wanted_iff.mpr ⟨hnext, by omega⟩
  have hyMem : y ∈ entries := (h.leafEntries_sublist hleaf).mem (hmem hy)
  rcases hnewest : newestAt entries rowid snapshot with _ | x
  · exact absurd hwant (find?_eq_none.mp hnewest y hyMem)
  refine ⟨x, ?_, rfl⟩
  obtain ⟨hx, hxrow, hxlsn, hxmax⟩ := (newestAt_eq_some_iff h.sorted).mp hnewest
  have hxy := hxmax y hyMem hnext (by omega)
  rw [← h.content, mem_flatten] at hx
  obtain ⟨run, hrun, hx⟩ := hx
  obtain ⟨leaf', hleaf', rfl⟩ := mem_map.mp hrun
  rcases h.leaf_cases hleaf' hleaf hx with rfl | hbefore | hafter
  · exact hx
  · -- in an earlier leaf it would be newer than the versions before the boundary
    have h₁ := lt_iff.mp (hbefore a (hmem ha))
    have h₂ := lt_iff.mp (hbefore z (hmem hz))
    have h₃ :=
      le_iff.mp (hlevel.first_le_last (show i < (leaf.map IndexEntry.block).length by omega))
    rw [← hakey, ← hzkey] at h₃
    omega
  · have := lt_iff.mp (hafter y (hmem hy))
    omega

/-- What the search over both levels finds. -/
def freshLookup (handle : SstHandle) (rowid snapshot : ℕ) : Option DataEntry :=
  (SstReader.blockIn (loadCoveringLeaf handle ⟨rowid, snapshot⟩).entries
    ⟨rowid, snapshot⟩).bind (SstReader.scan rowid snapshot)

omit h in
/-- A lookup without a kept leaf answers from the covering leaf. -/
lemma freshLookup_mem {e : DataEntry} (hfresh : freshLookup handle rowid snapshot = some e) :
    e ∈ leafEntries (loadCoveringLeaf handle ⟨rowid, snapshot⟩).entries := by
  obtain ⟨block, hblock, hscan⟩ := Option.bind_eq_some_iff.mp hfresh
  have he := (mem_of_scan hscan).1
  obtain ⟨i, -, rfl⟩ := Option.map_eq_some_iff.mp hblock
  rw [getD_eq_getElem?_getD] at he
  rcases hget : (loadCoveringLeaf handle ⟨rowid, snapshot⟩).entries[i]? with _ | entry
  · rw [hget] at he
    cases he
  · rw [hget] at he
    exact mem_flatten.mpr ⟨entry.block, mem_map_of_mem (mem_of_getElem? hget), he⟩

/-- **Both levels are right exactly when no boundary of the file is torn.** -/
theorem SstHandle.Holds.freshLookup_iff :
    freshLookup handle rowid snapshot = newestAt entries rowid snapshot ↔
      ¬ handle.Torn rowid snapshot := by
  have hmem := h.loadCoveringLeaf_mem ⟨rowid, snapshot⟩
  have hblock := @blockIn_iff _ _ rowid snapshot h _ hmem
  have hleaf := @leaf_iff _ _ rowid snapshot h
  unfold SstHandle.Torn
  rw [not_or, not_exists]
  constructor
  · intro hfresh
    -- the version found is the first wanted one of its leaf as well
    have hfind : (leafEntries (loadCoveringLeaf handle ⟨rowid, snapshot⟩).entries).find?
        (wanted rowid snapshot) = newestAt entries rowid snapshot := by
      refine newestAt_sublist h.sorted (h.leafEntries_sublist hmem) fun e he => ?_
      exact freshLookup_mem (hfresh.trans he)
    refine ⟨hleaf.mp hfind, fun leaf hand => ?_⟩
    obtain ⟨hleafMem, htorn⟩ := hand
    obtain ⟨e, he, hnew⟩ := h.newestAt_mem_of_torn hleafMem htorn
    have heq : leaf = (loadCoveringLeaf handle ⟨rowid, snapshot⟩).entries := by
      have he' := freshLookup_mem (hfresh.trans hnew)
      rcases h.leaf_cases hleafMem hmem he with heq | hbefore | hafter
      · exact heq
      · exact absurd (hbefore e he') (lt_irrefl _)
      · exact absurd (hafter e he') (lt_irrefl _)
    rw [heq] at htorn
    exact hblock.mp (hfresh.trans hfind.symm) htorn
  · rintro ⟨hlevel, hblocks⟩
    exact (hblock.mpr fun htorn => hblocks _ ⟨hmem, htorn⟩).trans (hleaf.mpr hlevel)

end

end Lookup

/-! ## Readers -/

namespace SstReader

/-- A reader after some lookups, in any files. -/
def after (lookups : List (SstHandle × ℕ × ℕ)) : SstReader :=
  lookups.foldl (fun reader l => (reader.pointReference l.1 l.2.1 l.2.2).2) ⟨none⟩

/-- The kept leaf was loaded from the file it is kept for. -/
def Valid (reader : SstReader) : Prop :=
  ∀ leaf, reader.indexLeaf = some leaf → ∃ key, leaf = loadCoveringLeaf leaf.handle key

/-- A loaded leaf remembers its file. -/
lemma loadCoveringLeaf_handle (handle : SstHandle) (key : SstKey) :
    (loadCoveringLeaf handle key).handle = handle := by
  unfold loadCoveringLeaf
  rcases handle.index with leaf | roots
  · rfl
  · rfl

/-- A lookup leaves the reader valid. -/
lemma Valid.pointReference {reader : SstReader} (h : reader.Valid) (hd : SstHandle)
    (rowid snap : ℕ) : (reader.pointReference hd rowid snap).2.Valid := by
  unfold SstReader.pointReference
  dsimp only
  rcases hkept : reader.indexLeaf.filter fun leaf => leaf.covers hd ⟨rowid, snap⟩
    with _ | leaf
  · rw [hkept]
    split_ifs
    · nofun
    · intro leaf hleaf
      cases hleaf
      exact ⟨⟨rowid, snap⟩, by rw [loadCoveringLeaf_handle]⟩
  · rw [hkept]
    exact h

/-- **Readers stay valid.** Induction on the lookups. -/
theorem after_valid (lookups : List (SstHandle × ℕ × ℕ)) : (after lookups).Valid := by
  have hrun : ∀ reader : SstReader, reader.Valid →
      (lookups.foldl (fun reader l => (reader.pointReference l.1 l.2.1 l.2.2).2) reader).Valid := by
    induction lookups with
    | nil => exact fun _ h => h
    | cons l rest ih => exact fun reader h => ih _ (h.pointReference l.1 l.2.1 l.2.2)
  refine hrun ⟨none⟩ fun leaf hleaf => ?_
  cases hleaf

/-- The entry a lookup finds. -/
def found (reader : SstReader) (handle : SstHandle) (rowid snapshot : ℕ) : Option DataEntry :=
  (reader.pointReference handle rowid snapshot).1.bind (scan rowid snapshot)

end SstReader

section Readers

variable {handle : SstHandle} {entries : List DataEntry} {reader : SstReader} {rowid snapshot : ℕ}

section

variable (h : handle.Holds entries)
include h

/-- What the filter denies is not in the file. -/
lemma SstHandle.Holds.not_rowid
    (hfilter : handle.filter.maybeContains rowid = false) : ∀ e ∈ entries, e.key.rowid ≠ rowid := by
  rintro e he rfl
  rw [h.filter e he] at hfilter
  cases hfilter

/-- **A lookup finds what a search from scratch would**, or the filter rules the row out. -/
theorem SstHandle.Holds.found_cases (hvalid : reader.Valid) (hsnap : snapshot ≤ 2 ^ 64 - 1) :
    reader.found handle rowid snapshot = freshLookup handle rowid snapshot ∨
      reader.found handle rowid snapshot = none ∧ ∀ e ∈ entries, e.key.rowid ≠ rowid := by
  unfold SstReader.found SstReader.pointReference
  dsimp only
  rcases hkept : reader.indexLeaf.filter fun leaf => leaf.covers handle ⟨rowid, snapshot⟩
    with _ | leaf
  · rw [hkept]
    split_ifs with hfilter
    · exact .inr ⟨rfl, h.not_rowid (by simpa using hfilter)⟩
    · exact .inl rfl
  obtain ⟨hleaf, hcov⟩ := Option.filter_eq_some_iff.mp hkept
  obtain ⟨key, hload⟩ := hvalid leaf hleaf
  have hhandle : leaf.handle = handle := by
    unfold SstIndexLeaf.covers at hcov
    simp only [Bool.and_eq_true] at hcov
    exact of_decide_eq_true hcov.1.1
  rw [hhandle] at hload
  rw [hload] at hcov
  rw [hkept, hload]
  dsimp only
  rw [h.covers_eq hsnap hcov]
  exact .inl rfl

/-- A torn boundary belongs to a row of the file. -/
lemma SstHandle.Holds.exists_of_torn
    (htorn : handle.Torn rowid snapshot) : ∃ e ∈ entries, e.key.rowid = rowid := by
  rcases htorn with ⟨i, hi, hlast, -⟩ | ⟨leaf, hleaf, htorn⟩
  · have hbound : i < (handle.leaves.map leafEntries).length := by omega
    obtain ⟨-, e, he, hkey⟩ := exists_first_last (h.leafLevel.run_ne_nil hbound)
    rw [getD_eq_getElem?_getD, getElem?_eq_getElem hbound] at he
    refine ⟨e, ?_, hkey ▸ hlast⟩
    rw [← h.content]
    exact mem_flatten.mpr ⟨_, getElem_mem hbound, he⟩
  · obtain ⟨e, -, hnew⟩ := h.newestAt_mem_of_torn hleaf htorn
    obtain ⟨he, hrow, -, -⟩ := (newestAt_eq_some_iff h.sorted).mp hnew
    exact ⟨e, he, hrow⟩

/-- **A lookup is right exactly when no boundary is torn.** -/
theorem SstHandle.Holds.found_iff (hvalid : reader.Valid) (hsnapshot : snapshot ≤ 2 ^ 64 - 1) :
    reader.found handle rowid snapshot = newestAt entries rowid snapshot ↔
      ¬ handle.Torn rowid snapshot := by
  rcases h.found_cases hvalid hsnapshot with hfresh | ⟨hnone, hrow⟩
  · rw [hfresh]
    exact h.freshLookup_iff
  refine iff_of_true ?_ fun htorn => ?_
  · rw [hnone, eq_comm]
    exact find?_eq_none.mpr fun e he hwant => hrow e he (wanted_iff.mp hwant).1
  · obtain ⟨e, he, heq⟩ := h.exists_of_torn htorn
    exact hrow e he heq

/-- What is found was written. -/
lemma SstHandle.Holds.found_mem (hvalid : reader.Valid) (hsnap : snapshot ≤ 2 ^ 64 - 1)
    {e : DataEntry} (hfound : reader.found handle rowid snapshot = some e) :
    e ∈ entries := by
  rcases h.found_cases hvalid hsnap with hfresh | ⟨hnone, -⟩
  · exact (h.leafEntries_sublist (h.loadCoveringLeaf_mem _)).mem
      (freshLookup_mem (hfresh.symm.trans hfound))
  · rw [hnone] at hfound
    cases hfound

/-- Entries of a file are told apart by their probes. -/
lemma SstHandle.Holds.probe_inj {a b : DataEntry} (ha : a ∈ entries)
    (hb : b ∈ entries) (hprobe : a.probe = b.probe) : a = b := by
  have hkey : a.key = b.key := congrArg SstProbe.key hprobe
  obtain ⟨i, hi, rfl⟩ := mem_iff_getElem.mp ha
  obtain ⟨j, hj, rfl⟩ := mem_iff_getElem.mp hb
  have hsorted := pairwise_iff_getElem.mp h.sorted
  rcases lt_trichotomy i j with hlt | rfl | hlt
  · exact absurd hkey (hsorted i j hi hj hlt).ne
  · rfl
  · exact absurd hkey (hsorted j i hj hi hlt).ne'

end

end Readers

/-- The answer that fits an entry: nothing, or its probe with its bytes, if the caller's buffer
takes them. -/
def lookupAnswer (capacity : ℕ) :
    Option DataEntry → Except SstError (Option (SstProbe × List UInt8))
  | none => .ok none
  | some e =>
    if capacity < (e.row.getD []).length then .error .bufferTooSmall
    else .ok (some (e.probe, e.row.getD []))

/-- Both lookups answer from the entry that is found. -/
lemma SstReader.lookup_eq (reader : SstReader) (hd : SstHandle) (rowid snap cap : ℕ) :
    (reader.getAt hd rowid snap cap).1 = lookupAnswer cap (reader.found hd rowid snap) ∧
      (reader.probeAt hd rowid snap).1 = (reader.found hd rowid snap).map DataEntry.probe := by
  unfold SstReader.getAt SstReader.probeAt SstReader.found
  dsimp only
  refine ⟨?_, rfl⟩
  rcases (reader.pointReference hd rowid snap).1.bind (scan rowid snap) with _ | e
  · rfl
  unfold deliver lookupAnswer
  rcases hrow : e.row with _ | row
  · simp [hrow, Except.map]
  simp only [hrow, Option.getD_some]
  split_ifs
  · rfl
  · rfl

/-- **Snapshot lookup in a row file.** For every sequence of versions, tombstones and taken-over
blocks the writer accepts, in every layout, for every reader, row and snapshot: `get_at` and
`probe_at` return the version with the greatest commit LSN at or below the snapshot, or nothing when
there is none, exactly when no boundary between blocks or leaves is torn for the row at the
snapshot. Rows are taken to be canonical encodings, which the column layout rebuilds byte for
byte. -/
theorem SstWriter.lookup_exact_iff {paxEnabled packedRows : Bool} {packedFillfactor : ℕ}
    {appends : List SstAppend} {handle : SstHandle}
    (hbuild : (new paxEnabled packedRows packedFillfactor).build appends = .ok (some handle))
    (lookups : List (SstHandle × ℕ × ℕ)) {rowid snapshot : ℕ} (hsnapshot : snapshot ≤ 2 ^ 64 - 1)
    (capacity : ℕ) :
    ((SstReader.after lookups).getAt handle rowid snapshot capacity).1 =
          lookupAnswer capacity (newestAt (appends.flatMap SstAppend.entries) rowid snapshot) ∧
        ((SstReader.after lookups).probeAt handle rowid snapshot).1 =
          (newestAt (appends.flatMap SstAppend.entries) rowid snapshot).map DataEntry.probe ↔
      ¬ handle.Torn rowid snapshot := by
  have h := build_holds hbuild
  have hvalid := SstReader.after_valid lookups
  obtain ⟨hget, hprobe⟩ := (SstReader.after lookups).lookup_eq handle rowid snapshot capacity
  rw [hget, hprobe, ← h.found_iff hvalid hsnapshot]
  constructor
  · rintro ⟨-, heq⟩
    rcases hfound : (SstReader.after lookups).found handle rowid snapshot with _ | a
    · rw [hfound, Option.map_none, eq_comm, Option.map_eq_none_iff] at heq
      exact heq.symm
    rw [hfound, Option.map_some, eq_comm, Option.map_eq_some_iff] at heq
    obtain ⟨b, hnew, hprobe⟩ := heq
    have hb := ((newestAt_eq_some_iff h.sorted).mp hnew).1
    rw [hnew, h.probe_inj hb (h.found_mem hvalid hsnapshot hfound) hprobe]
  · intro heq
    rw [heq]
    exact ⟨rfl, rfl⟩

/-- **A lookup never invents an answer**, torn boundaries or not: `get_at` and `probe_at` return
nothing, or a version of the row that was appended, at or below the snapshot. -/
theorem SstWriter.lookup_never_invents {paxEnabled packedRows : Bool} {packedFillfactor : ℕ}
    {appends : List SstAppend}
    (file : { handle // (new paxEnabled packedRows packedFillfactor).build appends =
      .ok (some handle) })
    (lookups : List (SstHandle × ℕ × ℕ)) (rowid : ℕ) (snapshot : UInt64) (capacity : ℕ) :
    ∃ answer, ((SstReader.after lookups).getAt file.1 rowid snapshot.toNat capacity).1 =
      lookupAnswer capacity answer ∧
      ((SstReader.after lookups).probeAt file.1 rowid snapshot.toNat).1 =
        answer.map DataEntry.probe ∧
      ∀ e ∈ answer, e ∈ appends.flatMap SstAppend.entries ∧ e.key.rowid = rowid ∧
        e.key.commitLsn ≤ snapshot.toNat := by
  obtain ⟨hget, hprobe⟩ := (SstReader.after lookups).lookup_eq file.1 rowid snapshot.toNat capacity
  refine ⟨_, hget, hprobe, fun e he => ⟨?_, ?_⟩⟩
  · exact (build_holds file.2).found_mem (SstReader.after_valid lookups)
      (Nat.le_pred_of_lt snapshot.toNat_lt) he
  · obtain ⟨block, -, hscan⟩ := Option.bind_eq_some_iff.mp he
    exact (mem_of_scan hscan).2

/-- Three versions in two blocks, whose boundary parts two rows: a snapshot between the versions of
the first row sees the older one. -/
theorem SstWriter.lookup_exact_two_blocks :
    ∃ (row : List UInt8) (handle : SstHandle), row.length = 100000 ∧
      (new false false 100).build [.version ⟨1, 9⟩ row, .version ⟨1, 5⟩ row, .version ⟨2, 3⟩ row] =
        .ok (some handle) ∧
      handle.leaves.map List.length = [2] ∧ ¬ handle.Torn 1 7 ∧
      ((SstReader.after [(handle, 2, 4)]).getAt handle 1 7 100000).1 =
        .ok (some (⟨⟨1, 5⟩, some 100000⟩, row)) := by
  obtain ⟨row, hrow⟩ : ∃ row : List UInt8, row.length = 100000 :=
    ⟨replicate 100000 0, length_replicate ..⟩
  obtain ⟨filter, hbuild⟩ : ∃ filter, (new false false 100).build
      [.version ⟨1, 9⟩ row, .version ⟨1, 5⟩ row, .version ⟨2, 3⟩ row] =
      .ok (some ⟨.leaf [⟨⟨1, 9⟩, [⟨⟨1, 9⟩, some row⟩, ⟨⟨1, 5⟩, some row⟩]⟩,
        ⟨⟨2, 3⟩, [⟨⟨2, 3⟩, some row⟩]⟩], filter⟩) := by
    refine ⟨(((Filter.mk (2 * 1024) []).insert 1).insert 1).insert 2, ?_⟩
    simp [build, append, appendVersion, outOfOrder, new, makeRoom, pendingLen, limit, push,
      flushData, reserveIndexSlot, finish, chooseFilter, hrow, DataEntry.size, maxPayload,
      maxAssembled, headRoom, maxChain, versionedEntryHeader, maxDataBlocks, le_iff, bind,
      Except.bind, pure, Except.pure, Filter.insert]
  have hnot : ¬ SstHandle.Torn ⟨.leaf [⟨⟨1, 9⟩, [⟨⟨1, 9⟩, some row⟩, ⟨⟨1, 5⟩, some row⟩]⟩,
      ⟨⟨2, 3⟩, [⟨⟨2, 3⟩, some row⟩]⟩], filter⟩ 1 7 := by
    simp [SstHandle.Torn, SstHandle.leaves, LevelTorn, Torn, leafEntries, firstKey]
  refine ⟨row, _, hrow, hbuild, rfl, hnot, ?_⟩
  refine ((lookup_exact_iff hbuild _ (by decide) 100000).mpr hnot).1.trans ?_
  simp [SstAppend.entries, newestAt, wanted, lookupAnswer, hrow, DataEntry.probe]

/-- **A version a snapshot cannot find.** Two versions of a row fill a block each. A snapshot
between them should see the older one: the index leads it to the block of the newer one. -/
theorem SstWriter.lookup_misses_version :
    ∃ (row : List UInt8) (handle : SstHandle), row.length = 200000 ∧
      (new false false 100).build [.version ⟨1, 9⟩ row, .version ⟨1, 5⟩ row] = .ok (some handle) ∧
      newestAt ([.version ⟨1, 9⟩ row, .version ⟨1, 5⟩ row].flatMap SstAppend.entries) 1 7 =
        some ⟨⟨1, 5⟩, some row⟩ ∧
      ((SstReader.after []).getAt handle 1 7 200000).1 = .ok none ∧
      ((SstReader.after []).probeAt handle 1 7).1 = none := by
  obtain ⟨row, hrow⟩ : ∃ row : List UInt8, row.length = 200000 :=
    ⟨replicate 200000 0, length_replicate ..⟩
  -- the search ends in the block of the newer version, where the scan finds nothing
  have hfound : ∀ filter : Filter, filter.maybeContains 1 = true →
      (SstReader.after []).found ⟨.leaf [⟨⟨1, 9⟩, [⟨⟨1, 9⟩, some row⟩]⟩,
        ⟨⟨1, 5⟩, [⟨⟨1, 5⟩, some row⟩]⟩], filter⟩ 1 7 = none := by
    intro filter hfilter
    simp [SstReader.found, SstReader.pointReference, SstReader.after, hfilter, loadCoveringLeaf,
      SstReader.blockIn, blockContaining, searchFirsts, bisectLast, indexFirst, lt_iff,
      le_iff, SstReader.scan]
  have hfilter := Filter.maybeContains_insert_self ((Filter.mk (2 * 1024) []).insert 1) 1
  obtain ⟨hget, hprobe⟩ := (SstReader.after []).lookup_eq ⟨.leaf [⟨⟨1, 9⟩, [⟨⟨1, 9⟩, some row⟩]⟩,
    ⟨⟨1, 5⟩, [⟨⟨1, 5⟩, some row⟩]⟩], _⟩ 1 7 200000
  rw [hfound _ hfilter] at hget hprobe
  refine ⟨row, _, hrow, ?_, rfl, hget, hprobe⟩
  simp [build, append, appendVersion, outOfOrder, new, makeRoom, pendingLen, limit, push, flushData,
    reserveIndexSlot, finish, chooseFilter, hrow, DataEntry.size, maxPayload, maxAssembled,
    headRoom, maxChain, versionedEntryHeader, maxDataBlocks, le_iff, bind, Except.bind, pure,
    Except.pure, Filter.insert]

end Pos3ql
