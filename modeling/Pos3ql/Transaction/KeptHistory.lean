import Pos3ql.Transaction.Rollback

/-!
# What a transaction publishes

A transaction follows its account. Two histories with the same account therefore commit the same
records; and a history has the account of the history without its rolled-back parts.

* `CommitRecord`, **`commitRecords`**: the row records that a commit adds to the staged ones.
* `Follows.commitRecords_eq`: what the records depend on.
* **`rollback_to_savepoint_restores`**.

Tables that are temporary or not visible to their transaction write no records; they are left out.

Source: `sql/mod.rs` (the commit's loop over `touched`), `sql/txn.rs`.
-/

namespace Pos3ql

open Foundation Storage List

/-! ## Commit -/

/-- A row record of a commit. Source: `WalOp::Upsert` and `WalOp::Delete` as the commit writes
them. -/
structure CommitRecord where
  key : RowKey
  row : Option RowLoc
  oldRow : Option RowHome
  commandId : ℕ
  deriving DecidableEq, Repr

/-- The record of a row whose newest image is the transaction's; a row that was inserted and deleted
again has none. Source: the commit's `match (p.loc, committed)`. -/
def commitRecord (key : RowKey) (change : PendingChange) (committed : Option RowHome) :
    Option CommitRecord :=
  if change.loc.isNone && committed.isNone then none
  else some ⟨key, change.loc, committed, change.cid⟩

namespace Session

variable {C : CatalogCodec}

/-- The committed image below a resident row. Source: `state.committed` of `row_state`. -/
def committedHome (X : Session C) (key : RowKey) : Option RowHome :=
  (X.storage.rows key).bind fun state =>
    ((X.storage.publication key.table).visibleState state).committed

/-- The image of a row that a commit installs: its newest one, if it is the transaction's. Source:
the check `p.txid != txn.txid` of the commit's loops, with `pending_last`. -/
def pendingImage (X : Session C) (key : RowKey) : Option (Option PendingChange) :=
  (X.storage.rowHead key).map fun head =>
    (head.filter fun entry => entry.change.txid = X.owner).map PendingEntry.change

/-- The record of a touched row. Source: the body of the commit's loop. -/
def rowRecord (X : Session C) (key : RowKey) : Option (Option CommitRecord) :=
  (X.pendingImage key).map fun image =>
    image.bind fun change => commitRecord key change (X.committedHome key)

/-- The row records of a commit, each row once, in the order in which they were first touched; no
result when a lookup panics. Source: the commit's loop over `touched`. -/
def commitRecords (X : Session C) : Option (List CommitRecord) :=
  ((X.txn.touched.items.map TouchedRow.key).eraseDups.mapM X.rowRecord).map fun records =>
    records.filterMap id

end Session

/-! ## The records -/

namespace Account

/-- The newest image of a row. -/
def lastWrite (a : Account) (key : RowKey) : Option PendingChange :=
  ((a.writes.filter fun w => w.1 = key).map Prod.snd).reverse.head?

end Account

namespace Session

variable {C : CatalogCodec} {X : Session C} {hl : RowKey → List CommittedVersion}
  {pl : RowKey → List PendingEntry} {a : Account}

section

variable (h : Follows X hl pl a)
include h

/-- The pending image is the last write's. -/
lemma Follows.pendingImage_eq (key : RowKey) : X.pendingImage key = some (a.lastWrite key) := by
  unfold pendingImage Account.lastWrite
  rw [h.abs.rowHead_eq, ← h.changes key, Option.map_some]
  rcases hpl : pl key with _ | ⟨head, rest⟩
  · rfl
  by_cases htxid : head.change.txid = X.owner
  · rw [own_cons_self htxid, head?_cons, Option.filter_some_pos (by simpa using htxid)]
    rfl
  -- the chain has one owner, and it is somebody else
  have hnone : own X.owner (head :: rest) = [] := by
    refine filter_eq_nil_iff.mpr fun e he => ?_
    rw [← hpl] at he
    rw [h.abs.pending_owner hpl he]
    simpa using htxid
  rw [hnone, head?_cons, Option.filter_some_neg (by simpa using htxid)]
  rfl

/-- The home of the committed row. -/
lemma Follows.committedHome_eq {key : RowKey} (hkey : key ∈ a.writes.map Prod.fst)
    (hcur : X.storage.Current key u64Max) :
    X.committedHome key =
      ((X.storage.context key).committedRow (X.storage.image hl pl key) u64Max).map
        VisibleRow.home := by
  obtain ⟨w, hw, rfl⟩ := mem_map.mp hkey
  rcases hrow : X.storage.rows w.1 with _ | r
  · -- the row has an image of the transaction, so it is resident
    have hchgs := h.changes w.1
    rw [(h.abs.lists_none hrow).2] at hchgs
    have hmem : w ∈ a.writes.filter fun x => x.1 = w.1 := mem_filter.mpr ⟨hw, by simp⟩
    have hnil := map_eq_nil_iff.mp (reverse_eq_nil_iff.mp hchgs.symm)
    rw [hnil] at hmem
    cases hmem
  have hle : (r.image (hl w.1) (pl w.1)).committedLsn ≤ u64Max := hcur.1 r hrow
  have himage : X.storage.image hl pl w.1 = some (r.image (hl w.1) (pl w.1)) := by
    unfold Storage.image
    rw [hrow]
    rfl
  have hview : ((X.storage.publication w.1.table).visibleState r).committed =
      ((r.image (hl w.1) (pl w.1)).visible (X.storage.context w.1)).1 := by
    have hobsolete : (r.image (hl w.1) (pl w.1)).obsolete (X.storage.context w.1) =
        (X.storage.publication w.1.table).obsolete r := rfl
    unfold TablePublication.visibleState RowImage.visible
    rw [hobsolete]
    split_ifs <;> rfl
  unfold committedHome
  rw [hrow, Option.bind_some, hview, himage]
  show _ = Option.map _ (RowContext.committedView _ _ _)
  unfold RowContext.committedView
  rw [if_pos hle, Option.map_map]
  exact Option.map_id'.symm

/-- **What the records of a commit depend on.** -/
theorem Follows.commitRecords_eq :
    X.commitRecords = some ((a.writes.map Prod.fst).eraseDups.filterMap fun key =>
      (a.lastWrite key).bind fun change => commitRecord key change (X.committedHome key)) := by
  have hmapM : ∀ (f : RowKey → Option CommitRecord) (keys : List RowKey),
      keys.mapM (fun key => some (f key)) = some (keys.map f) := by
    intro f keys
    induction keys with
    | nil => rfl
    | cons key keys ih => simp [ih]
  have hrec : X.rowRecord = fun key =>
      some
        ((a.lastWrite key).bind fun change => commitRecord key change (X.committedHome key)) := by
    funext key
    unfold rowRecord
    rw [h.pendingImage_eq]
    rfl
  unfold commitRecords
  rw [h.keys, hrec, hmapM, Option.map_some, filterMap_map]
  rfl

end

/-- **Two histories with one account publish the same**, over the same committed rows. -/
theorem Follows.publishes_eq {X' : Session C} {hl₁ hl₂ : RowKey → List CommittedVersion}
    {pl₁ pl₂ : RowKey → List PendingEntry} (h : Follows X hl₁ pl₁ a) (h' : Follows X' hl₂ pl₂ a)
    (hhomes : ∀ key ∈ a.writes.map Prod.fst, X.committedHome key = X'.committedHome key) :
    X.commitRecords = X'.commitRecords := by
  rw [h.commitRecords_eq, h'.commitRecords_eq]
  refine congrArg some (filterMap_congr fun key hkey => ?_)
  rw [hhomes key (mem_eraseDups.mp hkey)]

/-! ## Rolling back to a savepoint -/

/-- A whole history follows its account. -/
lemma Begun.run_follows {S : Session C} (hbegun : Begun S) (hstart : Follows S hl pl .empty)
    {calls : List (SessionCall C)} (hrun : S.run calls = some X)
    (hfor : ∀ call ∈ calls, Foreign S.txn.txid call) :
    ∃ hl' pl' a, Account.empty.run calls = some a ∧ Follows X hl' pl' a ∧
      ∀ k ∈ a.writes.map Prod.fst, (∀ call ∈ calls, call.commitOf k = none) →
        X.committedHome k =
          ((S.storage.context k).committedRow (S.storage.image hl pl k) u64Max).map
            VisibleRow.home := by
  obtain ⟨hl', pl', a, hfol, hreach⟩ := hstart.run tracks_empty hrun hfor
  refine ⟨hl', pl', a, hreach.account, hfol, fun k hk hcom => ?_⟩
  have hcur : S.storage.Current k u64Max :=
    ⟨fun r hr => hbegun.lsn k r hr, fun v hv => probeSpillSource_le hv⟩
  obtain ⟨hcur', hrow⟩ := hreach.newest k hcom hcur
  rw [hfol.committedHome_eq hk hcur', hrow]

/-- **ROLLBACK TO SAVEPOINT restores data.** First, after a rollback the undo log, the staged bytes
and the visible versions are those of the moment when the savepoint was established. Second, a whole
history publishes what any history publishes that makes the calls it kept: the same staged bytes,
the same installed images, and, when nobody else commits the rows it touched, the same records.
Source: `rollback_to_savepoint`, `commit`. -/
theorem rollback_to_savepoint_restores {S : Session C} (hbegun : Begun S) :
    (∀ (before span : List (SessionCall C)) (name : String) (A X : Session C),
      S.run (before ++ [.savepoint name]) = some A → A.run span = some X →
      (∀ call ∈ before ++ span, Foreign S.txn.txid call) → StaysOpen A.depth A span →
      X.txn.savepointIndex name = some (A.depth - 1) →
      ∃ Y, X.perform (.rollbackTo name) = some Y ∧ Y.stagedBytes = A.stagedBytes ∧
        Y.txn.touched.items = A.txn.touched.items ∧
        ∀ k commandSnapshot s t, s ≤ t → t ≤ u64Max →
          Along (fun X => X.Spares k s) A (span ++ [.rollbackTo name]) →
          (t = s ∨ Y.storage.Current k s) →
          Y.storage.visibleRowHomeAt k S.owner commandSnapshot t =
            A.storage.visibleRowHomeAt k S.owner commandSnapshot s) ∧
    ∀ (history : List (SessionCall C)) (X : Session C), S.run history = some X →
      (∀ call ∈ history, Foreign S.txn.txid call) →
      ∃ kept records, keptCalls history = some kept ∧ X.commitRecords = some records ∧
        ∀ (without : List (SessionCall C)) (X' : Session C),
          without.filter SessionCall.counts = kept → S.run without = some X' →
          (∀ call ∈ without, Foreign S.txn.txid call) →
          X'.stagedBytes = X.stagedBytes ∧
            X'.txn.touched.items.map TouchedRow.key = X.txn.touched.items.map TouchedRow.key ∧
            (∀ k, X'.pendingImage k = X.pendingImage k) ∧
            ((∀ k ∈ X.txn.touched.items.map TouchedRow.key,
                ∀ call ∈ history ++ without, call.commitOf k = none) →
              X'.commitRecords = some records) := by
  refine ⟨fun before span name A X hbefore hspan hfor hopen hindex =>
    hbegun.rollback hbefore hspan hfor hopen hindex, fun history X hrun hfor => ?_⟩
  obtain ⟨hl, pl, hstart⟩ := hbegun.follows
  obtain ⟨hl₁, pl₁, a, haccount, hfol, hhome⟩ := hbegun.run_follows hstart hrun hfor
  obtain ⟨kept, hkept, hkeptRun⟩ := keptCalls_run haccount
  refine ⟨kept, _, hkept, hfol.commitRecords_eq, fun without X' hwithout hrun' hfor' => ?_⟩
  obtain ⟨hl₂, pl₂, a', haccount', hfol', hhome'⟩ := hbegun.run_follows hstart hrun' hfor'
  -- the account depends on the calls that count
  obtain rfl : a' = a := by
    rw [← run_filter_counts, hwithout, hkeptRun] at haccount'
    exact (Option.some.inj haccount').symm
  refine ⟨?_, ?_, fun k => ?_, fun hcom => ?_⟩
  · rw [hfol'.stagedBytes_eq, hfol.stagedBytes_eq]
  · rw [hfol'.keys, hfol.keys]
  · rw [hfol'.pendingImage_eq, hfol.pendingImage_eq]
  rw [← hfol.commitRecords_eq]
  refine hfol'.publishes_eq hfol fun k hk => ?_
  rw [hfol.keys] at hcom
  rw [hhome' k hk fun call hcall => hcom k hk call (mem_append_right _ hcall),
    hhome k hk fun call hcall => hcom k hk call (mem_append_left _ hcall)]

/-- A transaction over one committed row. -/
def oneRow : Session .rowsOnly where
  storage := sampleStart
  journal := .create _ 64 256 1
  txn := ⟨1, ⟨[], 4, by simp⟩, ⟨[], 4, by simp⟩, false⟩

/-- The sample transaction has just begun. -/
lemma oneRow_begun : Begun oneRow where
  reachable := sampleStart_reachable
  assigned := by decide
  touched := rfl
  savepoints := rfl
  staged := rfl
  unwritten k := by
    by_cases hk : k = ⟨0, 1⟩
    · subst hk
      decide
    · simp [oneRow, sampleStart, rowHasOwnPending, rowHead, hk]
  lsn k row hrow := by
    by_cases hk : k = ⟨0, 1⟩
    · subst hk
      obtain rfl := Option.some.inj hrow
      decide
    · simp [oneRow, sampleStart, hk] at hrow

/-- Replace a row, or delete it. -/
def writeOf (rowid commandId : ℕ) (loc : Option RowLoc) : SessionCall .rowsOnly :=
  .write ⟨⟨0, rowid⟩, ⟨1, commandId, loc⟩, none, true, false, none⟩

/-- The row stays readable at the snapshot while the registry and the owner are those of the
start. -/
lemma oneRow_readable {history : List (SessionCall .rowsOnly)} {X : Session .rowsOnly}
    (hrun : oneRow.run history = some X)
    (hsame : (oneRow.run history).map (fun X => (X.storage.snapshots, X.owner)) =
      some (sampleStart.snapshots, 1)) :
    X.storage.Readable X.owner ⟨0, 1⟩ 7 := by
  rw [hrun, Option.map_some, Option.some.injEq, Prod.mk.injEq] at hsame
  rw [Storage.Readable, hsame.1, hsame.2]
  exact .inr ⟨rfl, .inl (by decide)⟩

/-- The committed row is deleted and the deletion rolled back: the log, the stage and the row are
those of the savepoint. Then another row is inserted, and what is published is the insertion. -/
theorem rollback_to_savepoint_restores_oneRow :
    (∃ A X Y, oneRow.run [.savepoint "a"] = some A ∧ A.run [writeOf 1 0 none] = some X ∧
      X.perform (.rollbackTo "a") = some Y ∧ Y.stagedBytes = A.stagedBytes ∧
      Y.txn.touched.items = A.txn.touched.items ∧
      Y.storage.visibleRowHomeAt ⟨0, 1⟩ oneRow.owner 1 7 =
        A.storage.visibleRowHomeAt ⟨0, 1⟩ oneRow.owner 1 7) ∧
    ∃ X X', oneRow.run [.savepoint "a", writeOf 1 0 none, .rollbackTo "a",
        writeOf 2 1 (some sampleLoc)] = some X ∧
      oneRow.run [.savepoint "a", writeOf 2 1 (some sampleLoc)] = some X' ∧
      X'.stagedBytes = X.stagedBytes ∧ X'.commitRecords = X.commitRecords ∧
      X.commitRecords = some [⟨⟨0, 2⟩, some sampleLoc, none, 1⟩] := by
  constructor
  · obtain ⟨X, hX⟩ : ∃ X, oneRow.run [.savepoint "a", writeOf 1 0 none] = some X :=
      Option.isSome_iff_exists.mp rfl
    obtain ⟨A, hsavepoint, hspan⟩ := Option.bind_eq_some_iff.mp
      (show (oneRow.perform (.savepoint "a")).bind (run · [writeOf 1 0 none]) = some X from hX)
    have hA : oneRow.run [.savepoint "a"] = some A := by
      simpa [run] using hsavepoint
    have hperform : A.perform (writeOf 1 0 none) = some X := by
      simpa [run] using hspan
    have hdepth : A.depth = 1 := Option.some.inj ((congrArg (·.map depth) hA).symm.trans rfl)
    have hdepth' : X.depth = 1 := Option.some.inj ((congrArg (·.map depth) hX).symm.trans rfl)
    have hindex : X.txn.savepointIndex "a" = some 0 :=
      Option.some.inj ((congrArg (·.map (·.txn.savepointIndex "a")) hX).symm.trans rfl)
    have hopen : StaysOpen A.depth A [writeOf 1 0 none] := by
      refine ⟨fun Y hY => ?_, fun _ _ => trivial⟩
      obtain rfl := Option.some.inj (hperform.symm.trans hY)
      rw [hdepth, hdepth']
    obtain ⟨Y, hY, hstaged, htouched, hview⟩ := (rollback_to_savepoint_restores oneRow_begun).1 []
      [writeOf 1 0 none] "a" A X hA hspan (by simp [writeOf, Foreign]) hopen
        (by rw [hindex, hdepth])
    refine ⟨A, X, Y, hA, hspan, hY, hstaged, htouched,
      hview _ _ _ _ le_rfl (by decide) ?_ (.inl rfl)⟩
    refine ⟨oneRow_readable hA rfl, fun Y hY => ⟨?_, fun _ _ => trivial⟩⟩
    obtain rfl := Option.some.inj (hperform.symm.trans hY)
    exact oneRow_readable hX rfl
  obtain ⟨X, hX⟩ :=
    Option.isSome_iff_exists.mp (rfl : (oneRow.run [.savepoint "a", writeOf 1 0 none,
    .rollbackTo "a", writeOf 2 1 (some sampleLoc)]).isSome = true)
  obtain ⟨X', hX'⟩ := Option.isSome_iff_exists.mp (rfl : (oneRow.run [.savepoint "a",
    writeOf 2 1 (some sampleLoc)]).isSome = true)
  obtain ⟨kept, records, hkept, hrecs, hwithout⟩ :=
    (rollback_to_savepoint_restores oneRow_begun).2 _ X hX fun call hcall => by
      simp only [mem_cons, not_mem_nil, or_false] at hcall
      rcases hcall with rfl | rfl | rfl | rfl <;> trivial
  obtain rfl := Option.some.inj ((rfl : _ = some _).symm.trans hkept)
  obtain ⟨hstaged, -, -, hpublished⟩ := hwithout _ X' rfl hX' fun call hcall => by
    simp only [mem_cons, not_mem_nil, or_false] at hcall
    rcases hcall with rfl | rfl <;> trivial
  refine ⟨X, X', hX, hX', hstaged, ?_, ?_⟩
  · rw [hrecs]
    refine hpublished fun k _ call hcall => ?_
    simp only [cons_append, nil_append, mem_cons, not_mem_nil, or_false] at hcall
    rcases hcall with rfl | rfl | rfl | rfl | rfl | rfl <;> rfl
  · have hrun := congrArg (Option.bind · commitRecords) hX
    exact hrun.symm.trans rfl

end Session

end Pos3ql
