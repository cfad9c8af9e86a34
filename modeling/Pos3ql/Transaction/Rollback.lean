import Pos3ql.Transaction.Account
import Pos3ql.Transaction.UndoLog

/-!
# Rolling back to a savepoint

Row storage, the journal and the undo log of a transaction follow its account, so a rollback brings
back what the account of the savepoint says.

* **`Follows`**: the transaction has what its account says; `Follows.step`: every call keeps it.
* `Reaches`, **`Follows.run`**: what a whole history keeps.
* **`Begun.rollback`**: after a rollback to a savepoint its log, its staged bytes and the rows the
  transaction sees are back.

Source: `sql/mod.rs` (`rollback_to_savepoint`), `sql/txn.rs`, `storage/row_publication.rs`.
-/

namespace Pos3ql

open Foundation List Option

namespace Session

variable {C : CatalogCodec} {A S X Y : Session C} {hl hl' : RowKey → List CommittedVersion}
  {pl pl' : RowKey → List PendingEntry} {call : SessionCall C} {calls : List (SessionCall C)}
  {a a' : Account} {kept : Keeping C} {points : List (String × ℕ × ℕ × ℕ)}

open Storage

/-! ## Histories -/

/-- The number of open savepoints. -/
def depth (X : Session C) : ℕ := X.txn.savepoints.items.length

/-- Every call of the history meets `P` in the state it is made in. -/
def Along (P : Session C → SessionCall C → Prop) : Session C → List (SessionCall C) → Prop
  | _, [] => True
  | X, call :: calls => P X call ∧ ∀ Y ∈ X.perform call, Along P Y calls

/-- Every call leaves at least so many savepoints open. -/
def StaysOpen (least : ℕ) : Session C → List (SessionCall C) → Prop :=
  Along fun X call => ∀ Y ∈ X.perform call, least ≤ Y.depth

/-- Two histories in turn. -/
lemma Along.append {P : Session C → SessionCall C → Prop} {first second : List (SessionCall C)}
    (h : Along P X (first ++ second)) (hrun : X.run first = some Y) :
    Along P X first ∧ Along P Y second := by
  induction first generalizing X with
  | nil =>
    obtain rfl := some.inj hrun
    exact ⟨trivial, h⟩
  | cons call calls ih =>
    obtain ⟨mid, hstep, hrun⟩ := bind_eq_some_iff.mp hrun
    obtain ⟨hcall, hrest⟩ := h
    obtain ⟨-, hsecond⟩ := ih (hrest mid hstep) hrun
    refine ⟨⟨hcall, fun Z hZ => ?_⟩, hsecond⟩
    obtain rfl := some.inj (hstep.symm.trans hZ)
    exact (ih (hrest mid hstep) hrun).1

/-- What is spared at a snapshot is spared at the snapshot reads are made at: in locking mode no
snapshot is kept by registration. -/
lemma Spares.commitSnapshot {k : RowKey} {s : ℕ} (h : X.Spares k s call) (hs : s ≤ u64Max) :
    X.Spares k (X.storage.commitSnapshot s) call := by
  unfold Storage.commitSnapshot
  rcases hmode : X.storage.snapshots.transactionMode with _ | _
  · exact h
  have hread : X.storage.Readable X.owner k s → X.storage.Readable X.owner k u64Max := by
    rintro (hcur | ⟨hmvcc, -⟩)
    · exact .inl (hcur.mono hs)
    · rw [hmode] at hmvcc
      cases hmvcc
  cases call with
  | storage op =>
    have h' : X.storage.Spares X.owner k s op := h
    change X.storage.Spares X.owner k u64Max op
    unfold Storage.Spares at h' ⊢
    rcases hcom : op.commitOf k with _ | ⟨lsn, rewritten⟩
    · rw [hcom] at h'
      exact hread h'
    · rw [hcom, hmode] at h'
      cases h'.1
  | write _ | refused _ | stage _ _ _ | savepoint _ | release _ | rollbackTo _ | journal _ =>
    exact hread h

/-- A row with no version above the last LSN, that nobody commits, keeps its committed row. -/
lemma Undisturbing.newest (h : Undisturbing X hl pl call Y hl' pl') {k : RowKey}
    (hcom : call.commitOf k = none) (hcur : X.storage.Current k u64Max) :
    Y.storage.Current k u64Max ∧
      (Y.storage.context k).committedRow (Y.storage.image hl' pl' k) u64Max =
        (X.storage.context k).committedRow (X.storage.image hl pl k) u64Max := by
  refine ⟨h.current k _ hcom hcur, h.committedRow k _ le_rfl ?_⟩
  cases call with
  | storage op =>
    have hnone : op.commitOf k = none := hcom
    show X.storage.Spares X.owner k u64Max op
    unfold Storage.Spares
    rw [hnone]
    exact .inl hcur
  | _ => exact .inl hcur

/-! ## The transaction follows its account -/

/-- **The transaction has what its account says.** -/
structure Follows (X : Session C) (hl : RowKey → List CommittedVersion)
    (pl : RowKey → List PendingEntry) (a : Account) : Prop where
  abs : Abs X.storage hl pl
  assigned : X.txn.txid ≠ 0
  sole : X.journal.wal.SoleStage X.txn.txid
  logged : Logged X.owner pl X.txn.touched.items
  keys : X.txn.touched.items.map TouchedRow.key = a.writes.map Prod.fst
  changes : ∀ k, (own X.owner (pl k)).map PendingEntry.change =
    ((a.writes.filter fun w => w.1 = k).map Prod.snd).reverse
  staged : X.journal.wal.stagedFor X.txn.txid = if a.staged = [] then none else some a.staged
  savepoints : X.txn.savepoints.items.map (fun sp => (sp.name, sp.touchedMark, sp.walMark)) =
    a.savepoints

/-- A transaction that has just begun has no entries. -/
lemma Begun.follows (h : Begun X) : ∃ hl pl, Follows X hl pl .empty := by
  obtain ⟨hl, pl, habs⟩ := h.reachable.abs
  have hnone : ∀ k, own X.owner (pl k) = [] := by
    refine fun k => filter_eq_nil_iff.mpr fun e he => ?_
    have hown := (habs.rowHasOwnPending_iff k X.owner).mp (h.unwritten k)
    rw [← habs.pendingOf_image k] at he
    rcases himage : X.storage.image hl pl k with _ | i
    · rw [himage] at he
      cases he
    · rw [himage] at he
      simpa using hown i himage e he
  refine ⟨hl, pl, habs, h.assigned, ?_, fun k => ?_, ?_, fun k => ?_, ?_, ?_⟩
  · intro i j a b ha hb haid _
    have hno := findIdx?_eq_none_iff.mp h.staged a (mem_of_getElem? ha)
    exact absurd haid (beq_eq_false_iff_ne.mp hno)
  · rw [h.touched, hnone k]
    rfl
  · rw [h.touched]
    rfl
  · rw [hnone k]
    rfl
  · unfold Wal.stagedFor
    rw [h.staged]
    rfl
  · rw [h.savepoints]
    rfl

lemma bytes_append_ne_nil (bef : Bytes) (r : JournalRecord C) : bef ++ r.bytes ≠ [] := by
  intro hnil
  have hlen := congrArg List.length (append_eq_nil_iff.mp hnil).2
  rw [JournalRecord.length_bytes, length_nil] at hlen
  unfold headerLen at hlen
  omega

lemma length_filter_key {log : List TouchedRow} {writes : List (RowKey × PendingChange)}
    (h : log.map TouchedRow.key = writes.map Prod.fst) (k : RowKey) :
    (log.filter fun entry => entry.key = k).length = (writes.filter fun w => w.1 = k).length := by
  have hcount : ∀ {α : Type} (f : α → RowKey) (l : List α),
      (l.filter fun x => f x = k).length = ((l.map f).filter fun key => key = k).length := by
    intro α f l
    rw [List.filter_map, length_map]
    rfl
  rw [hcount TouchedRow.key log, hcount Prod.fst writes, h]

lemma suffix_changes {newest left : List PendingChange} {writes : List (RowKey × PendingChange)}
    {k : RowKey} {mark : ℕ} (hsuffix : left <:+ newest)
    (hnew : newest = ((writes.filter fun w => w.1 = k).map Prod.snd).reverse)
    (hlen : left.length = ((writes.take mark).filter fun w => w.1 = k).length) :
    left = (((writes.take mark).filter fun w => w.1 = k).map Prod.snd).reverse := by
  have hsplit : newest = (((writes.drop mark).filter fun w => w.1 = k).map Prod.snd).reverse ++
      (((writes.take mark).filter fun w => w.1 = k).map Prod.snd).reverse := by
    rw [hnew, ← reverse_append, ← map_append, ← filter_append, take_append_drop]
  obtain ⟨undone, hundone⟩ := hsuffix
  rw [hsplit] at hundone
  exact (append_inj' hundone (by simpa using hlen)).2

section

variable (h : Follows X hl pl a)
include h

/-- The staged bytes are those of the account. -/
lemma Follows.stagedBytes_eq : X.stagedBytes = a.staged := by
  unfold stagedBytes
  rw [h.staged]
  split
  · rename_i hempty
    exact hempty.symm
  · rfl

lemma Follows.length_touched : X.txn.touched.items.length = a.writes.length := by
  have hlens := congrArg List.length h.keys
  rwa [length_map, length_map] at hlens

lemma Follows.depth_eq : X.depth = a.savepoints.length := by
  rw [← h.savepoints, length_map]
  rfl

/-- Savepoints are found by name. -/
lemma Follows.savepointIndex_eq (name : String) :
    X.txn.savepointIndex name = newestNamed name a.savepoints := by
  rw [← h.savepoints]
  unfold TxnState.savepointIndex newestNamed
  rw [← map_reverse, findIdx?_map, length_map]
  rfl

/-- The same log, the same own images. -/
lemma Follows.images_eq {X' : Session C} (h' : Follows X' hl' pl' a) (howner : X'.owner = X.owner)
    (htouched : X'.txn.touched.items = X.txn.touched.items) (k : RowKey) :
    (own X.owner (pl' k)).map (fun e => (e.identity, e.change)) =
      (own X.owner (pl k)).map fun e => (e.identity, e.change) := by
  have hids := h'.logged k
  have hchgs := h'.changes k
  rw [howner] at hids hchgs
  rw [← zip_map', ← zip_map', hids, hchgs, htouched, h.logged k, h.changes k]

/-- The stage is cut back as the account is. -/
lemma Follows.truncates (htracks : Tracks kept a points) {index : ℕ} {sp : Savepoint}
    (hsp : X.txn.savepoints.items[index]? = some sp) :
    ∃ wal, X.journal.wal.truncateStage X.txn.txid sp.walMark = some wal ∧
      a.savepoints[index]? = some (sp.name, sp.touchedMark, sp.walMark) ∧
      wal.stagedFor X.txn.txid = (if a.staged.take sp.walMark = [] then none
        else some (a.staged.take sp.walMark)) ∧ wal.SoleStage X.txn.txid := by
  have hmarks : a.savepoints[index]? = some (sp.name, sp.touchedMark, sp.walMark) := by
    rw [← h.savepoints, getElem?_map, hsp]
    rfl
  have hle : sp.walMark ≤ a.staged.length := (htracks.bounded (mem_of_getElem? hmarks)).2
  have hbytes : (X.journal.wal.stagedFor X.txn.txid).getD [] = a.staged := h.stagedBytes_eq
  obtain ⟨wal, hwal, hstaged, hsole⟩ :=
    Wal.truncateStage_stagedFor h.sole h.assigned (hbytes ▸ hle)
  refine ⟨wal, hwal, hmarks, ?_, hsole⟩
  rw [hstaged, hbytes]
  by_cases hzero : sp.walMark = 0
  · rw [if_pos hzero, hzero, take_zero, if_pos rfl]
  rw [if_neg hzero, if_neg]
  intro hnil
  have hlen := congrArg List.length hnil
  rw [length_take, length_nil] at hlen
  omega

/-- **`rollback_to_savepoint` returns.** -/
theorem Follows.rollback_returns (htracks : Tracks kept a points) {name : String} {index : ℕ}
    (hindex : X.txn.savepointIndex name = some index) :
    ∃ Y, X.perform (.rollbackTo name) = some Y := by
  obtain ⟨sp, hsp⟩ := getElem?_savepointIndex hindex
  have hlogged := h.logged
  rw [← take_append_drop sp.touchedMark X.txn.touched.items] at hlogged
  obtain ⟨storage, -, -, hrestore, -⟩ := hlogged.restoreTouched h.abs X.owner
  obtain ⟨wal, hwal, -⟩ := h.truncates htracks hsp
  simp only [perform, hindex, rollbackToSavepoint, TxnState.savepointAt, hsp, bind_eq_bind,
    bind_some,
    hrestore, hwal]
  exact ⟨_, rfl⟩

/-- **Every call changes the transaction as it changes the account.** One case per call. -/
theorem Follows.step (htracks : Tracks kept a points) (hstep : X.perform call = some Y)
    (hfor : Foreign X.txn.txid call) :
    ∃ hl' pl' a', a.step call = some a' ∧ Y.txn.txid = X.txn.txid ∧
      Performed X hl pl call Y hl' pl' ∧ Follows Y hl' pl' a' := by
  obtain ⟨hl', pl', hperf⟩ := perform_entries h.abs h.logged hstep hfor
  have hents := hperf.entries
  have hlogged' := hperf.logged
  have hchgs (hown : ∀ k, own X.owner (pl' k) = own X.owner (pl k)) (k : RowKey) :=
    (congrArg (map PendingEntry.change) (hown k)).trans (h.changes k)
  cases call with
  | write req =>
    obtain ⟨storage, txn, identity, -, -, rfl, -, -, -, htouch, -⟩ := perform_write h.abs hstep
    obtain ⟨htxid, hsps, htouched⟩ := touch_ok htouch
    have howner : owner { X with storage, txn } = X.owner := by
      unfold owner
      rw [htxid]
    obtain ⟨⟨identity', hkey⟩, hother⟩ := hents
    refine ⟨hl', pl', _, rfl, htxid, hperf, hperf.abs, htxid ▸ h.assigned, htxid ▸ h.sole,
      howner ▸ hlogged', ?_, ?_, ?_, ?_⟩
    · rw [htouched, map_append, map_append, h.keys]
      rfl
    · intro k
      rw [howner, filter_append, map_append, reverse_append]
      by_cases hk : k = req.key
      · subst hk
        rw [hkey, map_cons, h.changes]
        simp
      · rw [hother k hk, h.changes]
        simp [Ne.symm hk]
    · dsimp only
      rw [htxid]
      exact h.staged
    · dsimp only
      rw [hsps]
      exact h.savepoints
  | refused req =>
    obtain ⟨storage, -, -, rfl, -⟩ := perform_refused h.abs hstep
    exact ⟨hl', pl', a, rfl, rfl, hperf, hperf.abs, h.assigned, h.sole, hlogged', h.keys,
      hchgs hents, h.staged, h.savepoints⟩
  | stage database lsn operation =>
    obtain ⟨wal, hstage, rfl⟩ := perform_stage hstep
    obtain ⟨hstaged, hsole⟩ := Wal.stage_stagedFor hstage h.sole
    refine ⟨hl', pl', _, rfl, rfl, hperf, hperf.abs, h.assigned, hsole, hlogged', h.keys,
      hchgs hents, ?_, h.savepoints⟩
    dsimp only
    rw [hstaged, h.staged, if_neg (bytes_append_ne_nil _ _)]
    split <;> rfl
  | savepoint name =>
    obtain ⟨savepoints, hitems, rfl⟩ := perform_savepoint hstep
    have hmark : X.journal.wal.stageMark X.txn.txid = a.staged.length := by
      rw [Wal.stageMark_eq, ← h.stagedBytes_eq]
      rfl
    refine ⟨hl', pl', _, rfl, rfl, hperf, hperf.abs, h.assigned, h.sole, hlogged', h.keys,
      hchgs hents, h.staged, ?_⟩
    dsimp only
    rw [hitems, map_append, h.savepoints, hmark, h.length_touched]
    rfl
  | release name =>
    obtain ⟨index, hindex, rfl⟩ := perform_release hstep
    rw [h.savepointIndex_eq] at hindex
    refine ⟨hl', pl', { a with savepoints := a.savepoints.take index }, ?_, rfl, hperf, hperf.abs,
      h.assigned, h.sole, hlogged', h.keys, hchgs hents, h.staged, ?_⟩
    · show (newestNamed name a.savepoints).map _ = _
      rw [hindex]
      rfl
    · show (X.txn.savepoints.items.take index).map _ = _
      rw [map_take, h.savepoints]
  | rollbackTo name =>
    obtain ⟨index, sp, hindex, hsp, hstep⟩ := perform_rollbackTo hstep
    obtain ⟨storage, wal, -, hwal, rfl⟩ := rollbackToSavepoint_eq_some hsp hstep
    rw [h.savepointIndex_eq] at hindex
    obtain ⟨wal', hwal', hmarks, hstaged, hsole⟩ := h.truncates htracks hsp
    obtain rfl := some.inj (hwal'.symm.trans hwal)
    have hkeys : (X.txn.touched.items.take sp.touchedMark).map TouchedRow.key =
        (a.writes.take sp.touchedMark).map Prod.fst := by
      rw [map_take, h.keys, ← map_take]
    refine ⟨hl', pl', a.rewind index (sp.touchedMark, sp.walMark), ?_, rfl, hperf, hperf.abs,
      h.assigned, hsole, hlogged', hkeys, fun k => ?_, hstaged, ?_⟩
    · show (newestNamed name a.savepoints).bind _ = _
      rw [hindex, bind_some, hmarks]
      rfl
    · -- what is left of the row is logged, image by image
      show (own X.owner (pl' k)).map _ = _
      refine suffix_changes ((hents k).map _) (h.changes k) ?_
      have hlen := congrArg List.length (hlogged' k)
      rw [length_map, length_reverse, length_map] at hlen
      rw [length_map, ← length_filter_key hkeys k]
      exact hlen
    · show (X.txn.savepoints.items.take (index + 1)).map _ = _
      rw [map_take, h.savepoints]
      rfl
  | storage op =>
    obtain ⟨storage, -, rfl⟩ := map_eq_some_iff.mp hstep
    exact ⟨hl', pl', a, rfl, rfl, hperf, hperf.abs, h.assigned, h.sole, hlogged', h.keys,
      hchgs hents, h.staged, h.savepoints⟩
  | journal call =>
    obtain ⟨journal, hop, rfl⟩ := map_eq_some_iff.mp hstep
    have helse := Journal.step_elsewhere hop h.assigned hfor
    refine ⟨hl', pl', a, rfl, rfl, hperf, hperf.abs, h.assigned, helse.sole h.sole, hlogged',
      h.keys,
      hchgs hents, ?_, h.savepoints⟩
    dsimp only
    rw [helse.stagedFor_eq]
    exact h.staged

end

/-! ## Whole histories -/

/-- **What a history does** besides following the account: committed rows that are spared or that
nobody commits stay, and so does what lies below a savepoint that stays open. -/
structure Reaches (X : Session C) (hl : RowKey → List CommittedVersion)
    (pl : RowKey → List PendingEntry) (a : Account) (calls : List (SessionCall C)) (Y : Session C)
    (hl' : RowKey → List CommittedVersion) (pl' : RowKey → List PendingEntry) (a' : Account) :
    Prop where
  account : a.run calls = some a'
  txid : Y.txn.txid = X.txn.txid
  tracks : ∃ (kept : Keeping C) (points : _), Tracks kept a' points
  newest : ∀ k, (∀ call ∈ calls, call.commitOf k = none) → X.storage.Current k u64Max →
    Y.storage.Current k u64Max ∧
      (Y.storage.context k).committedRow (Y.storage.image hl' pl' k) u64Max =
        (X.storage.context k).committedRow (X.storage.image hl pl k) u64Max
  committedRow : ∀ k s, s ≤ u64Max → Along (fun X => X.Spares k s) X calls →
    (Y.storage.context k).committedRow (Y.storage.image hl' pl' k) (Y.storage.commitSnapshot s) =
      (X.storage.context k).committedRow (X.storage.image hl pl k) (X.storage.commitSnapshot s)
  kept : ∀ (base : Account) (log : List TouchedRow), base.Extends a → log <+: X.txn.touched.items →
    log.length = base.writes.length → StaysOpen base.savepoints.length X calls →
    base.Extends a' ∧ log <+: Y.txn.touched.items

lemma prefix_of_comparable {α : Type} {l x y : List α} (h : l <+: x) (hxy : x <+: y ∨ y <+: x)
    (hlen : l.length ≤ y.length) : l <+: y := by
  rcases hxy with hxy | hyx
  · exact h.trans hxy
  · exact prefix_of_prefix_length_le h hyx hlen

/-- **A whole history.** Induction on the calls. -/
theorem Follows.run (h : Follows X hl pl a) (htracks : Tracks kept a points)
    (hrun : X.run calls = some Y) (hfor : ∀ call ∈ calls, Foreign X.txn.txid call) :
    ∃ hl' pl' a', Follows Y hl' pl' a' ∧ Reaches X hl pl a calls Y hl' pl' a' := by
  induction calls generalizing X hl pl a kept points with
  | nil =>
    obtain rfl := some.inj hrun
    exact ⟨hl, pl, a, h, rfl, rfl, ⟨kept, points, htracks⟩, fun _ _ hcur => ⟨hcur, rfl⟩,
      fun _ _ _ _ => rfl, fun _ _ hext hlog _ _ => ⟨hext, hlog⟩⟩
  | cons call calls ih =>
    obtain ⟨Z, hcall, hrest⟩ := bind_eq_some_iff.mp hrun
    obtain ⟨hl₁, pl₁, a₁, hstep, htxid, hperf, hfol⟩ :=
      h.step htracks hcall (hfor call mem_cons_self)
    obtain ⟨kept₁, points₁, -, htracks₁⟩ := htracks.step hstep
    obtain ⟨hl₂, pl₂, a₂, hfol₂, hreach⟩ := ih hfol htracks₁ hrest fun c hc => by
      rw [htxid]
      exact hfor c (mem_cons_of_mem _ hc)
    refine ⟨hl₂, pl₂, a₂, hfol₂, ?_, hreach.txid.trans htxid, hreach.tracks,
      fun k hcom hcur => ?_, ?_, ?_⟩
    · show (Account.step a call).bind _ = _
      rw [hstep]
      exact hreach.account
    · obtain ⟨hcur₁, hrow₁⟩ := hperf.newest (hcom call mem_cons_self) hcur
      obtain ⟨hcur₂, hrow₂⟩ := hreach.newest k (forall_mem_cons.mp hcom).2 hcur₁
      exact ⟨hcur₂, hrow₂.trans hrow₁⟩
    · rintro k s hs ⟨hspares, hrest⟩
      rw [hreach.committedRow k s hs (hrest Z hcall), hperf.keeps.commitSnapshot_eq s]
      exact hperf.committedRow k _ (X.storage.commitSnapshot_le hs) (hspares.commitSnapshot hs)
    · rintro base log hext hlog hlen ⟨hdepth, hopen⟩
      have hext₁ := hext.step hstep (hfol.depth_eq ▸ hdepth Z hcall)
      refine hreach.kept base log hext₁ (prefix_of_comparable hlog hperf.touched ?_) hlen
        (hopen Z hcall)
      rw [hlen, hfol.length_touched]
      exact hext₁.writes.length_le

end Session

namespace Storage

variable {st : Storage} {hl : RowKey → List CommittedVersion} {pl : RowKey → List PendingEntry}
  {k : RowKey} {s t : ℕ}

/-- No version above: the same row later on. -/
lemma Current.committedRow_eq (h : st.Current k s) (hst : s ≤ t) (ht : t ≤ u64Max) :
    (st.context k).committedRow (st.image hl pl k) t =
      (st.context k).committedRow (st.image hl pl k) s := by
  obtain ⟨hcur, hsaved⟩ := (current_iff hl pl).mp h
  rcases himage : st.image hl pl k with _ | i
  · have hprobe : probeSpillSource (st.spillGenerations k.table) k.rowid t =
        probeSpillSource (st.spillGenerations k.table) k.rowid s := by
      rcases hnew : probeSpillSource (st.spillGenerations k.table) k.rowid u64Max with _ | v
      · rw [probeSpillSource_none_of_le ht hnew, probeSpillSource_none_of_le (hst.trans ht) hnew]
      · have hv := h.2 v hnew
        rw [probeSpillSource_of_le ht hnew (hv.trans hst),
          probeSpillSource_of_le (hst.trans ht) hnew hv]
    simp only [RowContext.committedRow, RowContext.savedAt, context, hprobe]
  · have hle := hcur i himage
    simp only [RowContext.committedRow, RowContext.committedView, hle, hle.trans hst, if_true]

end Storage

namespace Session

variable {C : CatalogCodec} {S A X : Session C}

/-! ## Rolling back -/

/-- **ROLLBACK TO restores.** Take any state `A` in the history of a transaction in which a
savepoint has just been established, and any continuation that keeps it open and in which it is the
newest of its name again. The rollback returns; the undo log and the staged bytes are those of `A`,
and every row whose committed version nobody replaced looks as it did, at every command and at every
snapshot that the transaction reads at. Source: `rollback_to_savepoint`. -/
theorem Begun.rollback (hbegun : Begun S) {bef span : List (SessionCall C)} {name : String}
    (hbefore : S.run (bef ++ [.savepoint name]) = some A) (hspan : A.run span = some X)
    (hfor : ∀ call ∈ bef ++ span, Foreign S.txn.txid call) (hopen : StaysOpen A.depth A span)
    (hindex : X.txn.savepointIndex name = some (A.depth - 1)) :
    ∃ Y, X.perform (.rollbackTo name) = some Y ∧ Y.stagedBytes = A.stagedBytes ∧
      Y.txn.touched.items = A.txn.touched.items ∧
      ∀ k commandSnapshot s t, s ≤ t → t ≤ u64Max →
        Along (fun X => X.Spares k s) A (span ++ [.rollbackTo name]) →
        (t = s ∨ Y.storage.Current k s) →
        Y.storage.visibleRowHomeAt k S.owner commandSnapshot t =
          A.storage.visibleRowHomeAt k S.owner commandSnapshot s := by
  -- the account of the savepoint
  have hfor' : ∀ call ∈ bef ++ [SessionCall.savepoint name], Foreign S.txn.txid call :=
    forall_mem_append.mpr ⟨(forall_mem_append.mp hfor).1, forall_mem_singleton.mpr trivial⟩
  obtain ⟨_, _, hstart⟩ := hbegun.follows
  obtain ⟨hl, pl, a, hbase, hreach⟩ := hstart.run tracks_empty hbefore hfor'
  obtain ⟨kept, points, htracks⟩ := hreach.tracks
  obtain ⟨older, hsps⟩ := Account.run_savepoint hreach.account
  have hdepth : A.depth = older.length + 1 := by
    rw [hbase.depth_eq, hsps, length_append]
    rfl
  -- nothing of it is gone while the savepoint stays open
  obtain ⟨hl₁, pl₁, a₁, hfol, hreach₁⟩ := hbase.run htracks hspan fun call hcall => by
    rw [hreach.txid]
    exact hfor call (mem_append_right _ hcall)
  obtain ⟨hext, htouched⟩ := hreach₁.kept a A.txn.touched.items (Account.extends_refl hsps)
    prefix_rfl hbase.length_touched (hbase.depth_eq ▸ hopen)
  obtain ⟨kept₁, points₁, htracks₁⟩ := hreach₁.tracks
  obtain ⟨Y, hperform⟩ := hfol.rollback_returns htracks₁ hindex
  obtain ⟨hl', pl', a', hstep, htxid, hperf, hfol'⟩ := hfol.step htracks₁ hperform trivial
  rw [hdepth, hfol.savepointIndex_eq] at hindex
  obtain rfl := some.inj ((hext.rollbackTo hsps hindex).symm.trans hstep)
  have hlen : A.txn.touched.items.length = Y.txn.touched.items.length := by
    rw [hbase.length_touched, hfol'.length_touched]
  have hitems : Y.txn.touched.items = A.txn.touched.items :=
    ((prefix_of_comparable htouched hperf.touched hlen.le).eq_of_length hlen).symm
  refine ⟨Y, hperform, ?_, hitems, ?_⟩
  · rw [hfol'.stagedBytes_eq, hbase.stagedBytes_eq]
  intro k commandSnapshot s t hst ht halong hread
  obtain ⟨halong, hrollback⟩ := halong.append hspan
  have howner : S.owner = A.owner := by
    unfold owner
    rw [hreach.txid]
  have howner' : Y.owner = A.owner := by
    unfold owner
    rw [htxid, hreach₁.txid]
  rw [howner, hfol'.abs.visibleRowHomeAt_view, hbase.abs.visibleRowHomeAt_view]
  refine congrArg some (RowContext.view_congr ?_ ?_ commandSnapshot)
  · rw [hfol'.abs.pendingOf_image, hbase.abs.pendingOf_image]
    exact hbase.images_eq hfol' howner' hitems k
  have hs : s ≤ u64Max := hst.trans ht
  have hsame :=
    hperf.committedRow k _ (X.storage.commitSnapshot_le hs) (hrollback.1.commitSnapshot hs)
  rw [hreach₁.committedRow k s hs halong, ← hperf.keeps.commitSnapshot_eq s] at hsame
  rcases hread with rfl | hcur
  · exact hsame
  refine Eq.trans ?_ hsame
  unfold Storage.commitSnapshot
  split
  · exact hcur.committedRow_eq hst ht
  · rfl

end Session

end Pos3ql
