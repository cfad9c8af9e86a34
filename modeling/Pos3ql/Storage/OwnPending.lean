import Pos3ql.Storage.SnapshotStability

/-!
# The images a transaction has appended, and the row below them

What a transaction sees in a row is its own newest image, and below it the committed row.

* `own`: the transaction's entries in a pending list.
* `Readable`: the committed row at a snapshot is safe from pruning. **`Changed.committedRow_eq`**:
  moves do not change it then.
* **`Abs.step_other`**: nobody else changes the transaction's entries, or a committed row that is
  spared.
* `RowContext.view_congr`: the two parts decide what is seen.

Source: `storage/row_publication.rs`, `storage/row_reads.rs`.
-/

namespace Pos3ql

open Relation

/-! ## Entries of one transaction -/

/-- The entries of a transaction in a pending list. -/
def own (txid : ℕ) (entries : List PendingEntry) : List PendingEntry :=
  entries.filter fun e => e.change.txid == txid

/-- An own entry. -/
lemma own_cons_self {txid : ℕ} {e : PendingEntry} (he : e.change.txid = txid)
    (entries : List PendingEntry) : own txid (e :: entries) = e :: own txid entries := by
  simp [own, he]

/-- Another's entry. -/
lemma own_cons_other {txid : ℕ} {e : PendingEntry} (he : e.change.txid ≠ txid)
    (entries : List PendingEntry) : own txid (e :: entries) = own txid entries := by
  simp [own, he]

/-- A row of one transaction. -/
lemma own_eq_self {txid : ℕ} {entries : List PendingEntry} {e : PendingEntry}
    (hone : ∀ x ∈ entries, ∀ y ∈ entries, x.change.txid = y.change.txid)
    (he : e ∈ own txid entries) :
    own txid entries = entries := by
  obtain ⟨hmem, htxid⟩ := List.mem_filter.mp he
  refine List.filter_eq_self.mpr fun x hx => ?_
  rw [hone x hx e hmem]
  exact htxid

/-- The pending list of a row. -/
def pendingOf (row : Option RowImage) : List PendingEntry := row.elim [] RowImage.pending

section Images

variable {c c' : RowContext} {snapshots : SnapshotState} {txid reader commitLsn s : ℕ}
  {rew : Bool} {a b : Option RowImage}

/-- **Another transaction's move** leaves the entries of `reader` alone. One case per move. -/
theorem Move.own_eq (hmove : Move c snapshots txid a b) (hne : txid ≠ reader) :
    own reader (pendingOf b) = own reader (pendingOf a) := by
  cases hmove with
  | load =>
    unfold RowContext.loaded
    split
    · rfl
    · rfl
  | expire i hobs => rfl
  | prune i o ho => rfl
  | push i e he hown hroom hexp =>
    exact own_cons_other (fun h => hne (he.symm.trans h)) i.pending
  | pop i e rest hp he =>
    have hi : pendingOf (some i) = e :: rest := hp
    rw [hi, own_cons_other (fun h => hne (he.symm.trans h))]
    rfl
  | freeze i e rest hp he =>
    have hi : pendingOf (some i) = e :: rest := hp
    rw [hi, own_cons_other (fun h => hne (he.symm.trans h))]
    exact @own_cons_other reader { e with keysPrepared := true } (fun h => hne (he.symm.trans h))
      rest
  | forget i hf =>
    have hi : pendingOf (some i) = [] := hf.1
    rw [hi]
    rfl

/-- Another's commit leaves own entries. -/
lemma CommitMove.own_eq (hmove : CommitMove c snapshots txid commitLsn rew a b)
    (hwf : ∀ i, a = some i → i.WF c) (hne : txid ≠ reader) :
    own reader (pendingOf b) = own reader (pendingOf a) := by
  cases hmove with
  | commit i e rest hp he =>
    refine (List.filter_eq_nil_iff.mpr fun x hx => ?_).symm
    have hx' : x ∈ i.pending := hx
    have howner := (hwf i rfl).owner x hx' e (hp ▸ List.mem_cons_self)
    rw [howner, he]
    simpa using hne

/-- **What is seen** depends on the transaction's own images and on the committed row. -/
theorem RowContext.view_congr {s' : ℕ}
    (hown : (own txid (pendingOf b)).map (fun e => (e.identity, e.change)) =
      (own txid (pendingOf a)).map fun e => (e.identity, e.change))
    (hcomm : c'.committedRow b s' = c.committedRow a s) (cs : ℕ) :
    c'.view b txid cs s' = c.view a txid cs s := by
  have hview : ∀ (c : RowContext) (row : Option RowImage) (s : ℕ), c.view row txid cs s =
        (((own txid (pendingOf row)).map fun e => (e.identity, e.change)).find?
          fun e => decide (e.2.cid < cs)).elim (c.committedRow row s)
          fun e => e.2.loc.map fun loc => ⟨.pending e.1, .heap loc⟩ := by
    rintro c (_ | i) s
    · rfl
    unfold RowContext.view own
    rw [List.find?_map, List.find?_filter]
    simp only [pendingOf, Option.elim_some, Bool.decide_and, Bool.decide_eq_true,
      Function.comp_apply]
    split
    · rename_i h
      rw [h]
      rfl
    · rename_i h
      rw [h]
      rfl
  rw [hview, hview, hown, hcomm]

end Images

namespace Storage

variable {st st' : Storage} {hl hl' : RowKey → List CommittedVersion}
  {pl pl' : RowKey → List PendingEntry} {reader s : ℕ} {k : RowKey}

lemma Abs.pendingOf_image (habs : Abs st hl pl) (k : RowKey) :
    pendingOf (st.image hl pl k) = pl k := by
  unfold image
  rcases hr : st.rows k with _ | r
  · exact (habs.lists_none hr).2.symm
  · rfl

/-- Other rows' entries stay. -/
lemma Changed.pending_frame {R : Option RowImage → Option RowImage → Prop} {k' : RowKey}
    (hchg : Changed st hl pl st' hl' pl' k' R) (habs : Abs st hl pl) (habs' : Abs st' hl' pl')
    (hk : k ≠ k') : pl' k = pl k := by
  rw [← habs.pendingOf_image k, ← habs'.pendingOf_image k, hchg.frame k hk]

/-- Any number of another transaction's moves. Induction on the moves. -/
lemma Moves.own_eq {txid : ℕ} {a b : Option RowImage} (hmoves : st.Moves k txid a b)
    (hne : txid ≠ reader) : own reader (pendingOf b) = own reader (pendingOf a) := by
  induction hmoves with
  | refl => rfl
  | tail _ hmove ih => exact (hmove.own_eq hne).trans ih

/-- The same on row storage. -/
lemma Abs.commits_own_eq (habs : Abs st hl pl) {txid lsn : ℕ} {rew : Bool}
    {b : Option RowImage} (hcommits : st.Commits k txid lsn rew (st.image hl pl k) b)
    (hne : txid ≠ reader) :
    own reader (pendingOf b) = own reader (pendingOf (st.image hl pl k)) := by
  rcases hcommits with heq | ⟨i, hmove, heq | ⟨hforget, heq⟩⟩
  · rw [← heq]
  · rw [heq]
    exact hmove.own_eq (habs.wf k) hne
  · have hi : pendingOf (some i) = [] := hforget.1
    rw [heq, ← hmove.own_eq (habs.wf k) hne, hi]
    rfl

/-! ## The committed row -/

/-- No version of the row is above the snapshot. -/
def Current (st : Storage) (k : RowKey) (s : ℕ) : Prop :=
  (∀ r, st.rows k = some r → r.committedLsn ≤ s) ∧
    ∀ v, probeSpillSource (st.spillGenerations k.table) k.rowid u64Max = some v → v.commitLsn ≤ s

/-- **The committed row at a snapshot cannot be pruned away**: no version is above it, or the
snapshot is registered. -/
def Readable (st : Storage) (reader : ℕ) (k : RowKey) (s : ℕ) : Prop :=
  st.Current k s ∨ st.snapshots.transactionMode = .mvcc ∧ st.snapshots.Registered reader s

/-- At a later snapshot. -/
lemma Current.mono {t : ℕ} (h : st.Current k s) (hle : s ≤ t) : st.Current k t :=
  ⟨fun r hr => (h.1 r hr).trans hle, fun v hv => (h.2 v hv).trans hle⟩

/-- Current, on images. -/
lemma current_iff (hl : RowKey → List CommittedVersion) (pl : RowKey → List PendingEntry) :
    st.Current k s ↔ (∀ i, st.image hl pl k = some i → i.committedLsn ≤ s) ∧
      ∀ v, (st.context k).newestSaved = some v → v.commitLsn ≤ s := by
  refine and_congr_left' ?_
  constructor
  · intro h i hi
    obtain ⟨r, hr, rfl⟩ := Option.map_eq_some_iff.mp hi
    exact h r hr
  · intro h r hr
    exact h _ (Option.map_eq_some_iff.mpr ⟨r, hr, rfl⟩)

lemma Keeps.newestSaved_eq (h : Keeps st st') (k : RowKey) :
    (st'.context k).newestSaved = (st.context k).newestSaved := by
  unfold context RowContext.newestSaved
  rw [h.spill]

/-- What is readable is not pruned. -/
lemma Readable.kept (h : st.Readable reader k s) (hl : RowKey → List CommittedVersion)
    (pl : RowKey → List PendingEntry) : st.Kept hl pl k s := by
  rcases h with hcur | ⟨hmode, hreg⟩
  · exact .inr ((current_iff hl pl).mp hcur)
  · exact .inl (hreg.oldest_le hmode)

section OneRow

variable {k' : RowKey} {txid : ℕ}

section

variable (hchg : Changed st hl pl st' hl' pl' k' (st.Moves k' txid))
include hchg

/-- **Moves on one row** leave every readable committed row as it was. -/
theorem Changed.committedRow_eq (habs : Abs st hl pl) (hs : s ≤ u64Max)
    (h : st.Readable reader k s) :
    (st'.context k).committedRow (st'.image hl' pl' k) s =
      (st.context k).committedRow (st.image hl pl k) s := by
  rw [hchg.env.keeps.committedRow_eq]
  by_cases hk : k = k'
  · subst hk
    exact habs.moves_committedRow_eq hs (h.kept hl pl) hchg.row
  · rw [hchg.frame k hk]

/-- A change keeps it current. -/
lemma Changed.current (h : st.Current k s) : st'.Current k s := by
  obtain ⟨hcur, hsaved⟩ := (current_iff hl pl).mp h
  have hsaved' : ∀ v, (st'.context k).newestSaved = some v → v.commitLsn ≤ s := by
    rw [hchg.env.keeps.newestSaved_eq]
    exact hsaved
  refine (current_iff hl' pl').mpr ⟨?_, hsaved'⟩
  by_cases hk : k = k'
  · subst hk
    exact Moves.committedLsn_le hchg.row hcur hsaved
  · rw [hchg.frame k hk]
    exact hcur

/-- A change keeps it readable. -/
lemma Changed.readable (h : st.Readable reader k s) : st'.Readable reader k s := by
  refine h.imp hchg.current fun ⟨hmode, hreg⟩ => ?_
  rw [hchg.env.snapshots]
  exact ⟨hmode, hreg⟩

end

end OneRow

/-! ## Operations of others -/

end Storage

/-- The commit of a row, with its LSN and whether it rewrites the table. -/
def Op.commitOf (k : RowKey) : Op → Option (ℕ × Bool)
  | .publish key _ commitLsn context =>
      if key = k then some (commitLsn, context.rewritten) else none
  | _ => none

/-- The transaction that acts in a storage operation; cleaning and the registry act for none. -/
def Op.actor : Op → Option ℕ
  | .write req => some req.change.txid
  | .restore _ txid _ => some txid
  | .prepareKeys _ txid => some txid
  | .publish _ txid _ _ => some txid
  | .reserve .. | .prune .. | .clean _ | .dropSaved _ | .snapshot _ => none

namespace Storage

variable {st st' : Storage} {hl : RowKey → List CommittedVersion} {pl : RowKey → List PendingEntry}
  {reader s : ℕ} {k : RowKey}

/-- **The operation leaves the row at a snapshot alone**: it does not commit the row, and the
snapshot is readable; or it commits the row above a registered snapshot, without rewriting the
table. -/
def Spares (st : Storage) (reader : ℕ) (k : RowKey) (s : ℕ) (op : Op) : Prop :=
  match op.commitOf k with
  | none => st.Readable reader k s
  | some (commitLsn, rewritten) => st.snapshots.transactionMode = .mvcc ∧
      st.snapshots.Registered reader s ∧ s < commitLsn ∧ rewritten = false

/-- **What somebody else's operation leaves alone**: the entries of `reader` in every row, and the
committed rows it spares. -/
theorem Abs.step_other (habs : Abs st hl pl) {op : Op} (hstep : st.step op = some st')
    (hactor : op.actor ≠ some reader) :
    ∃ hl' pl', Abs st' hl' pl' ∧ Keeps st st' ∧ (∀ k, own reader (pl' k) = own reader (pl k)) ∧
      (∀ k s, s ≤ u64Max → st.Spares reader k s op →
        (st'.context k).committedRow (st'.image hl' pl' k) s =
          (st.context k).committedRow (st.image hl pl k) s) ∧
      ∀ k s, op.commitOf k = none → st.Current k s → st'.Current k s := by
  obtain ⟨hl', pl', habs', hkeeps, heffect⟩ := habs.step_cases hstep (reader + 1)
  refine ⟨hl', pl', habs', hkeeps, ?_⟩
  have hcleaner : reader + 1 ≠ reader := Nat.succ_ne_self reader
  rcases heffect with ⟨k', R, heffect, hchg⟩ | himage
  · cases heffect
    case publish txid commitLsn context =>
      have hne : txid ≠ reader := fun h => hactor (congrArg some h)
      refine ⟨fun k => ?_, fun k s hs hspares => ?_, fun k s hno h => ?_⟩
      · by_cases hk : k = k'
        · subst hk
          rw [← habs.pendingOf_image, ← habs'.pendingOf_image]
          exact habs.commits_own_eq hchg.row hne
        · rw [hchg.pending_frame habs habs' hk]
      · rw [hkeeps.committedRow_eq]
        by_cases hk : k = k'
        · subst hk
          unfold Spares Op.commitOf at hspares
          dsimp only at hspares
          rw [if_pos rfl] at hspares
          obtain ⟨hmode, hreg, hlt, hrewritten⟩ := hspares
          have hrow := hchg.row
          rw [hrewritten] at hrow
          rcases hrow with heq | hinstalls
          · rw [← heq]
          · exact habs.installs_committedRow_eq hs (hreg.oldest_le hmode)
              (hreg.retainsFor hmode hne) hlt hinstalls
        · rw [hchg.frame k hk]
      · have hk : k ≠ k' := by
          rintro rfl
          simp [Op.commitOf] at hno
        rwa [current_iff hl' pl', hchg.frame k hk, hkeeps.newestSaved_eq, ← current_iff hl pl]
    -- moves of anybody else on the row
    all_goals
      refine ⟨fun k => ?_, fun k s hs hspares => hchg.committedRow_eq habs hs hspares,
        fun k s _ h => hchg.current h⟩
      by_contra hown
      obtain rfl :=
        not_imp_comm.mp (fun hk => congrArg (own reader) (hchg.pending_frame habs habs' hk)) hown
      rw [← habs.pendingOf_image, ← habs'.pendingOf_image] at hown
      refine hown (Moves.own_eq hchg.row ?_)
      first | exact hcleaner | exact fun h => hactor (congrArg some h)
  · -- no row changed
    refine ⟨fun k => ?_, fun k s _ _ => ?_, fun k s _ h => ?_⟩
    · rw [← habs.pendingOf_image, ← habs'.pendingOf_image, himage]
    · rw [hkeeps.committedRow_eq, himage]
    rwa [current_iff hl' pl', himage, hkeeps.newestSaved_eq, ← current_iff hl pl]

end Storage

end Pos3ql
