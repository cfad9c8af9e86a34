import Pos3ql.Transaction.Savepoints

/-!
# The undo log and the rows

The undo log and the transaction's entries in row storage grow together: every entry of a row is
logged, in order (`Logged`). Undoing the log in reverse therefore finds each logged image on top of
its row.

* `Steady`: what the transaction's own writes and undos keep of the committed rows.
* **`Logged.restoreTouched`**: the undo loop returns, and takes back exactly the images logged after
  a mark.
* `writeRow_spec`: a write is appended and logged, or changes neither.
* **`perform_entries`**: what every call of a history does to the transaction's entries, the log
  that describes them and the committed rows below.

Source: `sql/mod.rs` (`rollback_to_savepoint`), `sql/txn.rs`, `storage/row_publication.rs`.
-/

namespace Pos3ql

open Foundation Relation List Option

namespace Storage

variable {st st' st'' : Storage} {hl hl' hl'' : RowKey → List CommittedVersion}
  {pl pl' pl'' : RowKey → List PendingEntry} {reader : ℕ}

/-- **What own writes and undos keep**: every readable committed row, and that it is readable. -/
structure Steady (reader : ℕ) (st : Storage) (hl : RowKey → List CommittedVersion)
    (pl : RowKey → List PendingEntry) (st' : Storage) (hl' : RowKey → List CommittedVersion)
    (pl' : RowKey → List PendingEntry) : Prop where
  keeps : Keeps st st'
  committedRow : ∀ k s, s ≤ u64Max → st.Readable reader k s →
    (st'.context k).committedRow (st'.image hl' pl' k) s =
      (st.context k).committedRow (st.image hl pl k) s
  readable : ∀ k s, st.Readable reader k s → st'.Readable reader k s
  current : ∀ k s, st.Current k s → st'.Current k s

lemma Keeps.refl (st : Storage) : Keeps st st := (SameEnv.refl st).keeps

lemma Keeps.trans (h : Keeps st st') (h' : Keeps st' st'') : Keeps st st'' :=
  ⟨h'.mode.trans h.mode, h'.spill.trans h.spill, h'.maximum.trans h.maximum,
    fun t => (h'.layout t).trans (h.layout t)⟩

/-- Reads are made at the same snapshot. -/
lemma Keeps.commitSnapshot_eq (h : Keeps st st') (s : ℕ) :
    st'.commitSnapshot s = st.commitSnapshot s := by
  unfold commitSnapshot
  rw [h.mode]

lemma commitSnapshot_le (st : Storage) {s : ℕ} (hs : s ≤ u64Max) :
    st.commitSnapshot s ≤ u64Max := by
  unfold commitSnapshot
  split
  · exact hs
  · exact le_rfl

lemma Steady.refl (reader : ℕ) (st : Storage) (hl : RowKey → List CommittedVersion)
    (pl : RowKey → List PendingEntry) : Steady reader st hl pl st hl pl :=
  ⟨.refl st, fun _ _ _ _ => rfl, fun _ _ h => h, fun _ _ h => h⟩

/-- One steady step after another. -/
lemma Steady.trans (h : Steady reader st hl pl st' hl' pl')
    (h' : Steady reader st' hl' pl' st'' hl'' pl'') : Steady reader st hl pl st'' hl'' pl'' where
  keeps := h.keeps.trans h'.keeps
  committedRow k s hs hr :=
    (h'.committedRow k s hs (h.readable k s hr)).trans (h.committedRow k s hs hr)
  readable k s hr := h'.readable k s (h.readable k s hr)
  current k s hc := h'.current k s (h.current k s hc)

/-- A move of a row is steady. -/
lemma Changed.steady {k : RowKey} {txid : ℕ}
    (hchg : Changed st hl pl st' hl' pl' k (st.Moves k txid)) (habs : Abs st hl pl) :
    Steady reader st hl pl st' hl' pl' :=
  ⟨hchg.env.keeps, fun _ _ hs h => hchg.committedRow_eq habs hs h,
    fun _ _ h => hchg.readable h, fun _ _ h => hchg.current h⟩

/-! ## The log and the pending lists -/

/-- **The entries of a transaction are the logged ones**, row by row and in order. -/
def Logged (txid : ℕ) (pl : RowKey → List PendingEntry) (log : List TouchedRow) : Prop :=
  ∀ k, (own txid (pl k)).map PendingEntry.identity =
    ((log.filter fun entry => entry.key = k).map TouchedRow.identity).reverse

section Logged

variable {txid : ℕ} {log : List TouchedRow}

/-- The log looks at own entries only. -/
lemma Logged.congr (h : Logged txid pl log) (hown : ∀ k, own txid (pl' k) = own txid (pl k)) :
    Logged txid pl' log := by
  intro k
  rw [hown k]
  exact h k

/-- A write is logged. -/
lemma Logged.append (h : Logged txid pl log) {key : RowKey} {e : PendingEntry}
    (he : e.change.txid = txid) (hkey : pl' key = e :: pl key)
    (hframe : ∀ k, k ≠ key → pl' k = pl k) :
    Logged txid pl' (log ++ [⟨key, e.identity⟩]) := by
  intro k
  by_cases hk : k = key
  · subst hk
    rw [hkey, own_cons_self he, map_cons, h k]
    simp [filter_append]
  · rw [hframe k hk, h k]
    simp [Ne.symm hk]

/-- **Undoing the last logged image.** The row's list has it on top, so `restore_pending` finds
it. -/
theorem Logged.restore {entry : TouchedRow} (h : Logged txid pl (log ++ [entry]))
    (habs : Abs st hl pl) (reader : ℕ) :
    ∃ st' hl' pl', st.restorePending entry.key txid entry.identity = some st' ∧ Abs st' hl' pl' ∧
      Steady reader st hl pl st' hl' pl' ∧ Logged txid pl' log ∧
      ∀ k, own txid (pl' k) <:+ own txid (pl k) := by
  have hids := h entry.key
  rw [filter_append, map_append, reverse_append] at hids
  simp only [decide_true, filter_cons_of_pos, filter_nil, map_cons, map_nil,
    reverse_cons, reverse_nil, nil_append, singleton_append] at hids
  obtain ⟨e, rest, hown, hid, hids'⟩ := map_eq_cons_iff.mp hids
  -- the chain has one owner, so the transaction's newest entry is the newest of all
  have hmem : e ∈ own txid (pl entry.key) := by
    rw [hown]
    exact mem_cons_self
  have hone : ∀ x ∈ pl entry.key, ∀ y ∈ pl entry.key, x.change.txid = y.change.txid := by
    intro x hx y hy
    rcases hpl : pl entry.key with _ | ⟨z, rest⟩
    · rw [hpl] at hx
      cases hx
    · exact (habs.pending_owner hpl hx).trans (habs.pending_owner hpl hy).symm
  have hpl : pl entry.key = e :: rest := (own_eq_self hone hmem).symm.trans hown
  have htxid : e.change.txid = txid := by simpa [own] using (mem_filter.mp hmem).2
  obtain ⟨st', hl', pl', hop, ⟨habs', hchg⟩, hundone⟩ :=
    habs.restorePending_undoes entry.key txid entry.identity
  have hown' : own txid (pl' entry.key) = rest := by
    rw [hpl, own_cons_self htxid] at hown
    rw [hundone e rest hpl hid htxid]
    exact (cons.inj hown).2
  refine ⟨st', hl', pl', hop, habs', hchg.steady habs, fun k => ?_, fun k => ?_⟩
  · by_cases hk : k = entry.key
    · subst hk
      rw [hown', hids']
    rw [hchg.pending_frame habs habs' hk, h k]
    simp [Ne.symm hk]
  · by_cases hk : k = entry.key
    · subst hk
      rw [hown', hown]
      exact suffix_cons e _
    · rw [hchg.pending_frame habs habs' hk]

/-- **The undo loop returns**, and takes back the images logged after the mark. Induction on them,
the newest first. -/
theorem Logged.restoreTouched {undone : List TouchedRow} (h : Logged txid pl (log ++ undone))
    (habs : Abs st hl pl) (reader : ℕ) :
    ∃ st' hl' pl', Session.restoreTouched txid st undone.reverse = some st' ∧ Abs st' hl' pl' ∧
      Steady reader st hl pl st' hl' pl' ∧ Logged txid pl' log ∧
      ∀ k, own txid (pl' k) <:+ own txid (pl k) := by
  induction undone using reverseRecOn generalizing st hl pl with
  | nil =>
    rw [append_nil] at h
    exact ⟨st, hl, pl, rfl, habs, .refl .., h, fun _ => suffix_rfl⟩
  | append_singleton undone entry ih =>
    rw [← append_assoc] at h
    obtain ⟨mid, hl₁, pl₁, hop, habs₁, hsteady₁, hlog₁, hsuffix₁⟩ := h.restore habs reader
    obtain ⟨st', hl', pl', hrest, habs', hsteady', hlog', hsuffix'⟩ := ih hlog₁ habs₁
    refine ⟨st', hl', pl', ?_, habs', hsteady₁.trans hsteady', hlog',
      fun k => (hsuffix' k).trans (hsuffix₁ k)⟩
    rw [reverse_append]
    simp only [reverse_cons, reverse_nil, nil_append, singleton_append]
    unfold Session.restoreTouched at hrest ⊢
    rw [foldlM_cons, hop]
    exact hrest

end Logged

end Storage

/-! ## One write -/

namespace Session

variable {C : CatalogCodec} {X Y : Session C} {hl hl' : RowKey → List CommittedVersion}
  {pl pl' : RowKey → List PendingEntry} {call : SessionCall C}

open Storage

/-- **`write_row`** returns. It appends the image and logs it, or it fails and leaves the
transaction's entries and its log as they were. -/
theorem writeRow_spec (habs : Abs X.storage hl pl) (req : WriteRequest) :
    ∃ storage txn result hl' pl', X.writeRow req = some ({ X with storage, txn }, result) ∧
      Abs storage hl' pl' ∧ Steady X.owner X.storage hl pl storage hl' pl' ∧
      ((∃ identity, result = .ok (.written identity) ∧ req.change.txid = X.owner ∧
        X.txn.touch req.key identity = .ok txn ∧
        pl' req.key = ⟨identity, req.change, false⟩ :: pl req.key ∧ ∀ k, k ≠ req.key → pl' k = pl k)
        ∨ (∀ identity, result ≠ .ok (.written identity)) ∧ txn = X.txn ∧ ∀ k, pl' k = pl k) := by
  unfold writeRow
  split_ifs with htxid
  · exact ⟨_, _, _, hl, pl, rfl, habs, .refl .., .inr ⟨nofun, rfl, fun _ => rfl⟩⟩
  have howner : req.change.txid = X.owner := not_not.mp htxid
  obtain ⟨st, result, hl₁, pl₁, hop, ⟨habs₁, hchg⟩, happends⟩ :=
    habs.writePending_appends req
  have hframe : ∀ k, k ≠ req.key → pl₁ k = pl k := fun k hk => hchg.pending_frame habs habs₁ hk
  have hsteady : Steady X.owner X.storage hl pl st hl₁ pl₁ := hchg.steady habs
  rw [hop]
  -- a write that fails leaves the list of its row
  have hfail : pl₁ req.key = pl req.key → ∀ k, pl₁ k = pl k := by
    intro hkey k
    by_cases hk : k = req.key
    · rw [hk, hkey]
    · exact hframe k hk
  rcases result with err | (identity | _ | _ | err | ⟨waiting, message⟩)
  case ok.written =>
    dsimp only [bind_eq_bind, bind_some]
    rcases htouch : X.txn.touch req.key identity with err | txn
    · -- no room in the log: the image is taken back
      obtain ⟨st', hl', pl', hrestore, ⟨habs', hchg'⟩, hundone⟩ :=
        habs₁.restorePending_undoes req.key X.owner identity
      have hkey : pl' req.key = pl req.key := hundone _ _ happends rfl howner
      rw [hrestore]
      refine ⟨_, _, _, hl', pl', rfl, habs', hsteady.trans (hchg'.steady habs₁),
        .inr ⟨nofun, rfl, fun k => ?_⟩⟩
      by_cases hk : k = req.key
      · rw [hk, hkey]
      · rw [hchg'.pending_frame habs₁ habs' hk, hframe k hk]
    · exact ⟨_, _, _, hl₁, pl₁, rfl, habs₁, hsteady,
        .inl ⟨identity, rfl, howner, htouch, happends, hframe⟩⟩
  all_goals exact ⟨_, _, _, hl₁, pl₁, rfl, habs₁, hsteady, .inr ⟨nofun, rfl, hfail happends⟩⟩

end Session

/-! ## The calls -/

/-- The commit of a row by somebody else. -/
def SessionCall.commitOf {C : CatalogCodec} (k : RowKey) : SessionCall C → Option (ℕ × Bool)
  | .storage op => op.commitOf k
  | _ => none

namespace Session

variable {C : CatalogCodec} {X Y : Session C} {hl hl' : RowKey → List CommittedVersion}
  {pl pl' : RowKey → List PendingEntry} {call : SessionCall C} {name : String}

open Storage

/-- **The call leaves the committed row at a snapshot alone.** -/
def Spares (X : Session C) (k : RowKey) (s : ℕ) : SessionCall C → Prop
  | .storage op => X.storage.Spares X.owner k s op
  | _ => X.storage.Readable X.owner k s

/-- What a call keeps of the committed rows. -/
structure Undisturbing (X : Session C) (hl : RowKey → List CommittedVersion)
    (pl : RowKey → List PendingEntry) (call : SessionCall C) (Y : Session C)
    (hl' : RowKey → List CommittedVersion) (pl' : RowKey → List PendingEntry) : Prop where
  keeps : Keeps X.storage Y.storage
  committedRow : ∀ k s, s ≤ u64Max → X.Spares k s call →
    (Y.storage.context k).committedRow (Y.storage.image hl' pl' k) s =
      (X.storage.context k).committedRow (X.storage.image hl pl k) s
  current : ∀ k s, call.commitOf k = none → X.storage.Current k s → Y.storage.Current k s

/-- What a call does to the transaction's entries: a write adds one, a rollback drops the newest,
and nothing else changes them. -/
def Entries (txid : ℕ) (pl pl' : RowKey → List PendingEntry) : SessionCall C → Prop
  | .write req => (∃ identity, own txid (pl' req.key) =
        ⟨identity, req.change, false⟩ :: own txid (pl req.key)) ∧
      ∀ k, k ≠ req.key → own txid (pl' k) = own txid (pl k)
  | .rollbackTo _ => ∀ k, own txid (pl' k) <:+ own txid (pl k)
  | _ => ∀ k, own txid (pl' k) = own txid (pl k)

/-- **What a call does to the rows**, and to the end of the log that describes them. -/
structure Performed (X : Session C) (hl : RowKey → List CommittedVersion)
    (pl : RowKey → List PendingEntry) (call : SessionCall C) (Y : Session C)
    (hl' : RowKey → List CommittedVersion) (pl' : RowKey → List PendingEntry) :
    Prop extends Undisturbing X hl pl call Y hl' pl' where
  abs : Abs Y.storage hl' pl'
  entries : Entries X.owner pl pl' call
  logged : Logged X.owner pl' Y.txn.touched.items
  touched : X.txn.touched.items <+: Y.txn.touched.items ∨
    Y.txn.touched.items <+: X.txn.touched.items

/-- Steady steps disturb nothing. -/
lemma Undisturbing.of_steady (hspares : ∀ k s, X.Spares k s call → X.storage.Readable X.owner k s)
    (h : Steady X.owner X.storage hl pl Y.storage hl' pl') : Undisturbing X hl pl call Y hl' pl' :=
  ⟨h.keeps, fun k s hs hsp => h.committedRow k s hs (hspares k s hsp), fun k s _ => h.current k s⟩

/-- A logged write. -/
lemma touch_ok {txn txn' : TxnState} {key : RowKey} {ident : ℕ}
    (h : txn.touch key ident = .ok txn') :
    txn'.txid = txn.txid ∧ txn'.savepoints = txn.savepoints ∧
      txn'.touched.items = txn.touched.items ++ [⟨key, ident⟩] := by
  unfold TxnState.touch at h
  rcases hpush : txn.touched.push ⟨key, ident⟩ with _ | touched
  · rw [hpush] at h
    cases h
  · rw [hpush] at h
    cases h
    exact ⟨rfl, rfl, FixedVec.push_items hpush⟩

lemma getElem?_savepointIndex {txn : TxnState} {index : ℕ}
    (h : txn.savepointIndex name = some index) :
    ∃ sp, txn.savepoints.items[index]? = some sp := by
  obtain ⟨i, hi, rfl⟩ := map_eq_some_iff.mp h
  obtain ⟨hlt, -, -⟩ := findIdx?_eq_some_iff_getElem.mp hi
  refine ⟨txn.savepoints.items.reverse[i], ?_⟩
  rw [← getElem?_eq_getElem hlt]
  rw [length_reverse] at hlt
  rw [getElem?_reverse hlt]

/-- A rollback, part by part. -/
lemma rollbackToSavepoint_eq_some {index : ℕ} {sp : Savepoint}
    (hsp : X.txn.savepoints.items[index]? = some sp) (h : X.rollbackToSavepoint index = some Y) :
    ∃ storage wal,
      restoreTouched X.owner X.storage (X.txn.touched.items.drop sp.touchedMark).reverse =
        some storage ∧ X.journal.wal.truncateStage X.txn.txid sp.walMark = some wal ∧
        Y =
          { storage, journal := { X.journal with wal },
            txn := X.txn.rewindToSavepoint index sp } := by
  unfold rollbackToSavepoint TxnState.savepointAt at h
  rw [hsp] at h
  simp only [bind_eq_bind, bind_some] at h
  obtain ⟨storage, hstor, h⟩ := bind_eq_some_iff.mp h
  obtain ⟨wal, hwal, h⟩ := bind_eq_some_iff.mp h
  exact ⟨storage, wal, hstor, hwal, (some.inj h).symm⟩

/-! What each call of the transaction leaves, when the history has it. -/

/-- A write, part by part. -/
lemma perform_write {req : WriteRequest} (habs : Abs X.storage hl pl)
    (h : X.perform (.write req) = some Y) :
    ∃ storage txn identity hl' pl', Y = { X with storage, txn } ∧ Abs storage hl' pl' ∧
      Steady X.owner X.storage hl pl storage hl' pl' ∧ req.change.txid = X.owner ∧
      X.txn.touch req.key identity = .ok txn ∧
      pl' req.key = ⟨identity, req.change, false⟩ :: pl req.key ∧
      ∀ k, k ≠ req.key → pl' k = pl k := by
  obtain ⟨storage, txn, result, hl', pl', hop, habs', hsteady, hcase⟩ := writeRow_spec habs req
  simp only [perform, hop] at h
  rcases hcase with ⟨identity, rfl, howner, htouch, hkey, hframe⟩ | ⟨hrefused, -, -⟩
  · exact ⟨storage, txn, identity, hl', pl', (some.inj h).symm, habs', hsteady, howner, htouch,
      hkey, hframe⟩
  split at h
  · rename_i hresult
    exact absurd (Prod.mk.inj (some.inj hresult)).2 (hrefused _)
  · cases h

/-- A refused write keeps the entries. -/
lemma perform_refused {req : WriteRequest} (habs : Abs X.storage hl pl)
    (h : X.perform (.refused req) = some Y) :
    ∃ storage hl' pl', Y = { X with storage } ∧ Abs storage hl' pl' ∧
      Steady X.owner X.storage hl pl storage hl' pl' ∧ ∀ k, pl' k = pl k := by
  obtain ⟨storage, txn, result, hl', pl', hop, habs', hsteady, hcase⟩ := writeRow_spec habs req
  rcases hcase with ⟨identity, rfl, -⟩ | ⟨hrefused, rfl, hpl⟩
  · simp only [perform, hop] at h
    cases h
  · simp only [perform, hop] at h
    exact ⟨storage, hl', pl', (some.inj h).symm, habs', hsteady, hpl⟩

/-- A staged record. -/
lemma perform_stage {db : Int32} {lsn : ℕ} {op : StagedOp C}
    (h : X.perform (.stage db lsn op) = some Y) :
    ∃ wal, X.journal.wal.stage db X.txn.txid lsn op.op = some (wal, .ok ()) ∧
      Y = { X with journal := { X.journal with wal } } := by
  simp only [perform] at h
  split at h
  · rename_i hstage
    exact ⟨_, hstage, (some.inj h).symm⟩
  · cases h

/-- A new savepoint. -/
lemma perform_savepoint (h : X.perform (.savepoint name) = some Y) :
    ∃ savepoints, savepoints.items = X.txn.savepoints.items ++ [⟨name, X.txn.touched.items.length,
        X.journal.wal.stageMark X.txn.txid, X.txn.failed⟩] ∧
      Y = { X with txn := { X.txn with savepoints } } := by
  simp only [perform, establishSavepoint, TxnState.savepoint] at h
  split at h
  · rename_i hpush
    exact ⟨_, FixedVec.push_items hpush, (some.inj h).symm⟩
  · cases h

/-- A released savepoint. -/
lemma perform_release (h : X.perform (.release name) = some Y) :
    ∃ index, X.txn.savepointIndex name = some index ∧
      Y = { X with txn := X.txn.releaseSavepointsFrom index } := by
  simp only [perform, releaseSavepoint] at h
  split at h
  · cases h
  · rename_i index hindex
    exact ⟨index, hindex, (some.inj h).symm⟩

/-- A rollback to a savepoint. -/
lemma perform_rollbackTo (h : X.perform (.rollbackTo name) = some Y) :
    ∃ index sp, X.txn.savepointIndex name = some index ∧
      X.txn.savepoints.items[index]? = some sp ∧ X.rollbackToSavepoint index = some Y := by
  simp only [perform] at h
  split at h
  · cases h
  · rename_i index hindex
    obtain ⟨sp, hsp⟩ := getElem?_savepointIndex hindex
    exact ⟨index, sp, hindex, hsp, h⟩

/-- **Every call of a history.** One case per call. -/
theorem perform_entries (habs : Abs X.storage hl pl)
    (hlogged : Logged X.owner pl X.txn.touched.items) (hstep : X.perform call = some Y)
    (hfor : Foreign X.txn.txid call) :
    ∃ hl' pl', Performed X hl pl call Y hl' pl' := by
  -- the rows are as they were
  have hsame : Y.storage = X.storage → Y.txn.touched = X.txn.touched →
      (∀ k s, X.Spares k s call → X.storage.Readable X.owner k s) → Entries X.owner pl pl call →
      ∃ hl' pl', Performed X hl pl call Y hl' pl' := by
    intro hstor htouched hspares hents
    refine ⟨hl, pl, .of_steady hspares ?_, hstor ▸ habs, hents, htouched ▸ hlogged, .inl ?_⟩
    · rw [hstor]
      exact .refl ..
    · rw [htouched]
  cases call with
  | write req =>
    obtain ⟨storage, txn, identity, hl', pl', rfl, habs', hsteady, howner, htouch, hkey, hframe⟩ :=
      perform_write habs hstep
    have htouched := (touch_ok htouch).2.2
    refine ⟨hl', pl', .of_steady (fun _ _ h => h) hsteady, habs', ⟨⟨identity, ?_⟩, fun k hk => ?_⟩,
      ?_, ?_⟩
    · rw [hkey]
      exact own_cons_self howner _
    · rw [hframe k hk]
    · rw [htouched]
      exact hlogged.append (e := ⟨identity, req.change, false⟩) howner hkey hframe
    · exact .inl (htouched ▸ prefix_append _ _)
  | refused req =>
    obtain ⟨storage, hl', pl', rfl, habs', hsteady, hpl⟩ := perform_refused habs hstep
    have hown : ∀ k, own X.owner (pl' k) = own X.owner (pl k) := fun k => by rw [hpl k]
    exact ⟨hl', pl', .of_steady (fun _ _ h => h) hsteady, habs', hown, hlogged.congr hown,
      .inl prefix_rfl⟩
  | stage database lsn operation =>
    obtain ⟨wal, -, rfl⟩ := perform_stage hstep
    exact hsame rfl rfl (fun _ _ h => h) fun _ => rfl
  | savepoint name =>
    obtain ⟨savepoints, -, rfl⟩ := perform_savepoint hstep
    exact hsame rfl rfl (fun _ _ h => h) fun _ => rfl
  | release name =>
    obtain ⟨index, -, rfl⟩ := perform_release hstep
    exact hsame rfl rfl (fun _ _ h => h) fun _ => rfl
  | rollbackTo name =>
    obtain ⟨index, sp, -, hsp, hstep⟩ := perform_rollbackTo hstep
    obtain ⟨storage, wal, hrestore, -, rfl⟩ := rollbackToSavepoint_eq_some hsp hstep
    rw [← take_append_drop sp.touchedMark X.txn.touched.items] at hlogged
    obtain ⟨st', hl', pl', hop, habs', hsteady, hlogged', hsuffix⟩ :=
      hlogged.restoreTouched habs X.owner
    rw [hop] at hrestore
    cases hrestore
    have hcut : X.txn.touched.items.take sp.touchedMark <+: X.txn.touched.items :=
      ⟨_, take_append_drop _ _⟩
    exact ⟨hl', pl', .of_steady (fun _ _ h => h) hsteady, habs', hsuffix, hlogged', .inr hcut⟩
  | storage op =>
    obtain ⟨storage, hop, rfl⟩ := map_eq_some_iff.mp hstep
    obtain ⟨hl', pl', habs', hkeeps, hown, hcomm, hcur⟩ := habs.step_other hop hfor
    exact ⟨hl', pl', ⟨hkeeps, hcomm, hcur⟩, habs', hown, hlogged.congr hown, .inl prefix_rfl⟩
  | journal call =>
    obtain ⟨journal, -, rfl⟩ := map_eq_some_iff.mp hstep
    exact hsame rfl rfl (fun _ _ h => h) fun _ => rfl

end Session

end Pos3ql
