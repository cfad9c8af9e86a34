import Pos3ql.Wal.History

/-!
# The stage of one transaction

The stages of all transactions lie in one array, but each is touched by its own transaction only.

* `stagedFor`: the bytes a transaction has staged, if it has a stage.
* `stage_stagedFor`, `truncateStage_stagedFor`: what the transaction's own calls do to it.
* **`Journal.step_elsewhere`**: no call of another transaction, and no flush, changes it.

Source: `wal/mod.rs` (`stage`, `stage_mark`, `truncate_stage`).
-/

namespace Pos3ql

open Foundation List Option

namespace Wal

variable {C : CatalogCodec} {w w' : Wal} {transactionId : UInt32}

/-- The bytes a transaction has staged, if it has a stage. -/
def stagedFor (w : Wal) (transactionId : UInt32) : Option Bytes :=
  (w.stageIndex transactionId).map w.staged

/-- A transaction has one stage at most. -/
def SoleStage (w : Wal) (transactionId : UInt32) : Prop :=
  ∀ (i j : ℕ) (a b : TransactionStage), w.stages[i]? = some a → w.stages[j]? = some b →
    a.transactionId = transactionId → b.transactionId = transactionId → i = j

/-- The stages of a transaction are the same; others may have changed, or changed hands. -/
def Elsewhere (transactionId : UInt32) (w w' : Wal) : Prop :=
  ∀ i : ℕ, w'.stages[i]? = w.stages[i]? ∨
    ∃ a b, w.stages[i]? = some a ∧ a.transactionId ≠ transactionId ∧
      w'.stages[i]? = some b ∧ b.transactionId ≠ transactionId

/-- Source: `stage_mark`, on the staged bytes. -/
lemma stageMark_eq (w : Wal) (tx : UInt32) :
    w.stageMark tx = ((w.stagedFor tx).getD []).length := by
  unfold stageMark stagedFor
  rcases w.stageIndex tx with _ | index
  · rfl
  · rfl

lemma Elsewhere.refl (w : Wal) : Elsewhere transactionId w w := fun _ => .inl rfl

lemma Elsewhere.of_stages_eq (h : w'.stages = w.stages) : Elsewhere transactionId w w' :=
  fun i => .inl (by rw [h])

section

variable (h : Elsewhere transactionId w w')
include h

lemma Elsewhere.trans {w'' : Wal} (h' : Elsewhere transactionId w' w'') :
    Elsewhere transactionId w w'' := by
  intro i
  rcases h' i with heq' | ⟨b, c, hb, hbid, hc, hcid⟩
  · rw [heq']
    exact h i
  · rcases h i with heq | ⟨a, b', ha, haid, -, -⟩
    · exact .inr ⟨b, c, heq ▸ hb, hbid, hc, hcid⟩
    · exact .inr ⟨a, c, ha, haid, hc, hcid⟩

/-- **What happens elsewhere** is not seen: the stage is found at the same place, with the same
bytes. -/
theorem Elsewhere.stagedFor_eq : w'.stagedFor transactionId = w.stagedFor transactionId := by
  -- the flags the search looks at agree at every position
  have hflags : w'.stages.map (fun stage => stage.transactionId == transactionId) =
      w.stages.map fun stage => stage.transactionId == transactionId := by
    refine ext_getElem? fun i => ?_
    rw [getElem?_map, getElem?_map]
    rcases h i with heq | ⟨a, b, ha, haid, hb, hbid⟩
    · rw [heq]
    · rw [ha, hb, map_some, map_some, beq_eq_false_iff_ne.mpr haid, beq_eq_false_iff_ne.mpr hbid]
  have hsearch : ∀ stages : List TransactionStage,
      stages.findIdx? (fun stage => stage.transactionId == transactionId) =
        (stages.map fun stage => stage.transactionId == transactionId).findIdx? id := by
    intro stages
    rw [findIdx?_map]
    rfl
  have hindex : w'.stageIndex transactionId = w.stageIndex transactionId := by
    unfold stageIndex
    rw [hsearch, hsearch, hflags]
  unfold stagedFor
  rw [hindex]
  rcases hfound : w.stageIndex transactionId with _ | index
  · rfl
  rw [map_some, map_some]
  unfold staged
  rcases h index with heq | ⟨a, b, ha, haid, -, -⟩
  · rw [heq]
  · have hid := stageIndex_id hfound
    rw [ha] at hid
    exact absurd (some.inj hid) haid

lemma Elsewhere.sole (hsole : w.SoleStage transactionId) : w'.SoleStage transactionId := by
  have hback : ∀ (i : ℕ) (a : TransactionStage), w'.stages[i]? = some a →
      a.transactionId = transactionId → w.stages[i]? = some a := by
    intro i a ha haid
    rcases h i with heq | ⟨-, b, -, -, hb, hbid⟩
    · rw [← heq]
      exact ha
    · rw [ha] at hb
      exact absurd (some.inj hb ▸ haid) hbid
  intro i j a b ha hb haid hbid
  exact hsole i j a b (hback i a ha haid) (hback j b hb hbid) haid hbid

end

/-! ## One stage changed -/

section Changes

variable {other : UInt32} {index : ℕ}

section

variable (h : w.stageIndex other = some index)
include h

lemma getElem?_stageIndex : ∃ a, w.stages[index]? = some a ∧ a.transactionId = other := by
  have hid := stageIndex_id h
  rcases ha : w.stages[index]? with _ | a
  · rw [ha] at hid
    cases hid
  · rw [ha] at hid
    exact ⟨a, rfl, some.inj hid⟩

variable (hne : other ≠ transactionId)
include hne

lemma elsewhere_modify (f : TransactionStage → TransactionStage)
    (hf : ∀ a, a.transactionId = other → (f a).transactionId ≠ transactionId) :
    Elsewhere transactionId w { w with stages := w.stages.modify index f } := by
  obtain ⟨a, ha, haid⟩ := getElem?_stageIndex h
  intro i
  by_cases hi : index = i
  · subst hi
    refine .inr ⟨a, f a, ha, haid ▸ hne, ?_, hf a haid⟩
    simp [ha]
  refine .inl ?_
  simp only [getElem?_modify, if_neg hi]
  rcases w.stages[i]? with _ | b <;> rfl

lemma elsewhere_setStaged (buffer : Bytes) : Elsewhere transactionId w (w.setStaged index buffer) :=
  elsewhere_modify h hne _ fun a ha => by
    rw [← ha] at hne
    exact hne

lemma elsewhere_releaseStage (hzero : transactionId ≠ 0) :
    Elsewhere transactionId w (w.releaseStage index) :=
  elsewhere_modify h hne _ fun _ _ => Ne.symm hzero

lemma appendStaged_elsewhere {lsn : ℕ} {op : WalOp C}
    (hok : w.appendStaged index lsn op = .ok w') : Elsewhere transactionId w w' := by
  rw [appendStaged_eq hok]
  exact elsewhere_setStaged h hne _

end

variable (hne : other ≠ transactionId) (hzero : transactionId ≠ 0)
include hne hzero

lemma elsewhere_claimed (h : w.stageIndex 0 = some index) (db : Int32) :
    Elsewhere transactionId w (w.claimed index db other) := by
  obtain ⟨a, ha, haid⟩ := getElem?_stageIndex h
  intro i
  unfold claimed
  by_cases hi : index = i
  · subst hi
    have hlt := stageIndex_lt h
    exact .inr ⟨a, ⟨other, db, []⟩, ha, haid ▸ Ne.symm hzero, by simp [hlt], hne⟩
  · exact .inl (by simp [getElem?_set_ne hi])

variable {db scope : Int32} {lsn : ℕ}

lemma Opened.elsewhere (h : Opened C db scope other lsn w index w') :
    Elsewhere transactionId w w' := by
  cases h with
  | existing hindex => exact .refl _
  | fresh hnone hfree hscope =>
    exact (elsewhere_claimed hne hzero hfree db).trans
      (appendStaged_elsewhere (stageIndex_claimed db hnone hfree) hne hscope)

lemma Unopened.elsewhere (h : Unopened db other w w') : Elsewhere transactionId w w' := by
  rcases h with ⟨rfl, -⟩ | ⟨index, -, hfree, rfl⟩
  · exact .refl _
  · exact elsewhere_claimed hne hzero hfree db

/-! ## The calls of other transactions -/

lemma stage_elsewhere {op : WalOp C} {result : Except SqlError Unit}
    (hstage : w.stage db other lsn op = some (w', result)) : Elsewhere transactionId w w' := by
  rcases stage_cases hstage with ⟨-, hu⟩ | ⟨index, w₁, hopen, ⟨e, -, -, rfl⟩ | ⟨hop, -⟩⟩
  · exact hu.elsewhere hne hzero
  · exact hopen.elsewhere hne hzero
  · exact (hopen.elsewhere hne hzero).trans (appendStaged_elsewhere hopen.stageIndex_eq hne hop)

lemma truncateStage_elsewhere {mark : ℕ} (hcut : w.truncateStage other mark = some w') :
    Elsewhere transactionId w w' := by
  unfold truncateStage at hcut
  by_cases hown : other = 0
  · rw [if_pos hown] at hcut
    cases hcut
  rw [if_neg hown] at hcut
  rcases hindex : w.stageIndex other with _ | index
  · rw [hindex] at hcut
    cases hcut
    exact .refl _
  rw [hindex] at hcut
  dsimp only at hcut
  split_ifs at hcut
  · cases hcut
    exact elsewhere_releaseStage hindex hne hzero
  · cases hcut
    exact elsewhere_setStaged hindex hne _

lemma discardStage_elsewhere (hdisc : w.discardStage other = some w') :
    Elsewhere transactionId w w' := by
  unfold discardStage at hdisc
  split_ifs at hdisc
  rcases hindex : w.stageIndex other with _ | index
  · rw [hindex] at hdisc
    cases hdisc
    exact .refl _
  · rw [hindex] at hdisc
    cases hdisc
    exact elsewhere_releaseStage hindex hne hzero

variable {floor : ℕ} {result : Except SqlError (ℕ × Bytes)}

lemma sealStage_elsewhere {rs : List Bytes} {bd : WalOp C} {captured : Option ℕ}
    (hseal : w.sealStage index rs floor bd captured = some (w', result))
    (hindex : w.stageIndex other = some index) : Elsewhere transactionId w w' := by
  rcases sealStage_cases hseal with ⟨-, rfl, -⟩ | ⟨-, -, -, ⟨rfl, -⟩ |
    ⟨-, buffer, firstLsn, offset, copy, -, rfl, -⟩⟩
  · exact .refl _
  · exact .of_stages_eq rfl
  · exact fun i => elsewhere_releaseStage hindex hne hzero i

lemma finishStage_elsewhere {bd : WalOp C} {captured : Option ℕ}
    (hfin : w.finishStage other floor bd captured = some (w', result)) :
    Elsewhere transactionId w w' := by
  unfold finishStage at hfin
  split_ifs at hfin
  rcases hindex : w.stageIndex other with _ | index
  · rw [hindex] at hfin
    cases hfin
    exact .refl _
  rw [hindex] at hfin
  dsimp only at hfin
  split_ifs at hfin
  · cases hfin
    exact elsewhere_releaseStage hindex hne hzero
  rcases hsplit : splitFrames (w.staged index).length (w.staged index) with _ | records
  · rw [hsplit] at hfin
    cases hfin
  · rw [hsplit] at hfin
    exact sealStage_elsewhere hne hzero hfin hindex

omit hne in
lemma prepareStage_elsewhere {exe : Int32} {pm : PreparedTransactionMetadata} {rcap : ℕ}
    (hprep : w.prepareStage C exe pm floor rcap = some (w', result))
    (hne : pm.transactionId ≠ transactionId) : Elsewhere transactionId w w' := by
  rcases prepareStage_cases hprep with ⟨-, -, hu⟩ | ⟨index, w₁, hopen, hfin⟩
  · exact hu.elsewhere hne hzero
  · exact (hopen.elsewhere hne hzero).trans (finishStage_elsewhere hne hzero hfin)

end Changes

/-! ## The calls of the transaction -/

lemma SoleStage.setStaged (hsole : w.SoleStage transactionId) (index : ℕ) (buffer : Bytes) :
    (w.setStaged index buffer).SoleStage transactionId := by
  have hids : ∀ (i : ℕ) (a : TransactionStage), (w.setStaged index buffer).stages[i]? = some a →
      ∃ b, w.stages[i]? = some b ∧ b.transactionId = a.transactionId := by
    intro i a ha
    unfold Wal.setStaged at ha
    rw [getElem?_modify] at ha
    obtain ⟨b, hb, rfl⟩ := map_eq_some_iff.mp ha
    refine ⟨b, hb, ?_⟩
    split_ifs <;> rfl
  intro i j a b ha hb haid hbid
  obtain ⟨a', ha', haid'⟩ := hids i a ha
  obtain ⟨b', hb', hbid'⟩ := hids j b hb
  exact hsole i j a' b' ha' hb' (haid'.trans haid) (hbid'.trans hbid)

/-- **Staging appends** a record to the transaction's own bytes, after the record of its database
when the stage is new. -/
theorem stage_stagedFor {db : Int32} {lsn : ℕ} {op : WalOp C}
    (hstage : w.stage db transactionId lsn op = some (w', .ok ()))
    (hsole : w.SoleStage transactionId) :
    w'.stagedFor transactionId =
      some
        ((w.stagedFor transactionId).getD (JournalRecord.bytes ⟨lsn, .databaseScope (C := C) db⟩) ++
          JournalRecord.bytes ⟨lsn, op⟩) ∧ w'.SoleStage transactionId := by
  -- appending keeps the stage where it is
  have happended : ∀ {w₁ w₂ : Wal} {index : ℕ} {record : WalOp C},
      w₁.appendStaged index lsn record = .ok w₂
      → w₁.stageIndex transactionId = some index → w₁.SoleStage transactionId →
        w₂.stageIndex transactionId
      = some index ∧
        w₂.staged index = w₁.staged index ++ JournalRecord.bytes ⟨lsn, record⟩ ∧
        w₂.SoleStage transactionId := by
    intro w₁ w₂ index record hok hindex hsole₁
    rw [appendStaged_eq hok, stageIndex_setStaged]
    refine ⟨hindex, ?_, hsole₁.setStaged _ _⟩
    rw [staged_setStaged, if_pos ⟨rfl, stageIndex_lt hindex⟩]
  rcases stage_cases hstage with ⟨⟨e, he⟩, -⟩ | ⟨index, w₁, hopen, ⟨e, -, he, -⟩ | ⟨hop, -⟩⟩
  · cases he
  · cases he
  -- the bytes before the record: those there were, or the record of the database
  obtain ⟨hsole₁, hstaged₁⟩ : w₁.SoleStage transactionId ∧ w₁.staged index =
      (w.stagedFor transactionId).getD (JournalRecord.bytes ⟨lsn, .databaseScope (C := C) db⟩) := by
    cases hopen with
    | existing hindex => exact ⟨hsole, by rw [stagedFor, hindex]; rfl⟩
    | fresh hnone hfree hscope =>
      have hsole₁ : (w.claimed index db transactionId).SoleStage transactionId := by
        have honly : ∀ (i : ℕ) (a : TransactionStage),
            (w.claimed index db transactionId).stages[i]? = some
            a → a.transactionId = transactionId → i = index := by
          intro i a ha haid
          by_contra hi
          unfold claimed at ha
          rw [getElem?_set_ne (Ne.symm hi)] at ha
          have hno := findIdx?_eq_none_iff.mp hnone a (mem_of_getElem? ha)
          exact absurd haid (beq_eq_false_iff_ne.mp hno)
        intro i j a b ha hb haid hbid
        rw [honly i a ha haid, honly j b hb hbid]
      obtain ⟨-, hstaged, hsole₂⟩ :=
        happended hscope (stageIndex_claimed db hnone hfree) hsole₁
      refine ⟨hsole₂, ?_⟩
      rw [hstaged, staged_claimed, if_pos rfl, stagedFor, hnone]
      rfl
  obtain ⟨hindex, hstaged, hsole₂⟩ := happended hop hopen.stageIndex_eq hsole₁
  exact ⟨by rw [stagedFor, hindex, map_some, hstaged, hstaged₁], hsole₂⟩

/-- **Cutting a stage back** to a mark inside it keeps the bytes before the mark; at zero the stage
is given up. -/
theorem truncateStage_stagedFor (hsole : w.SoleStage transactionId) (hzero : transactionId ≠ 0)
    {mark : ℕ} (hmark : mark ≤ ((w.stagedFor transactionId).getD []).length) :
    ∃ w', w.truncateStage transactionId mark = some w' ∧
      w'.stagedFor transactionId = (if mark = 0 then none else
        some (((w.stagedFor transactionId).getD []).take mark)) ∧
      w'.SoleStage transactionId := by
  unfold truncateStage
  rw [if_neg hzero]
  unfold stagedFor at hmark ⊢
  rcases hindex : w.stageIndex transactionId with _ | index
  · rw [hindex] at hmark
    obtain rfl := Nat.le_zero.mp hmark
    exact ⟨w, rfl, by rw [hindex, if_pos rfl]; rfl, hsole⟩
  rw [hindex] at hmark
  dsimp only [map_some, getD_some] at hmark ⊢
  rw [if_neg (not_lt.mpr hmark)]
  by_cases hm : mark = 0
  · -- the stage is given up, and the transaction had no other
    rw [if_pos hm, if_pos hm]
    obtain ⟨a, ha, haid⟩ := getElem?_stageIndex hindex
    have hnone : ∀ (i : ℕ) (b : TransactionStage), (w.releaseStage index).stages[i]? = some b →
        b.transactionId ≠ transactionId := by
      intro i b hb hbid
      unfold releaseStage at hb
      rw [getElem?_modify] at hb
      obtain ⟨c, hc, rfl⟩ := map_eq_some_iff.mp hb
      by_cases hi : index = i
      · rw [if_pos hi] at hbid
        exact hzero hbid.symm
      · rw [if_neg hi] at hbid
        exact hi (hsole index i a c ha hc haid hbid)
    refine ⟨_, rfl, ?_, fun i j b c hb hc hbid _ => absurd hbid (hnone i b hb)⟩
    have hgone : (w.releaseStage index).stageIndex transactionId = none := by
      refine findIdx?_eq_none_iff.mpr fun b hb => ?_
      obtain ⟨i, hi⟩ := mem_iff_getElem?.mp hb
      exact beq_eq_false_iff_ne.mpr (hnone i b hi)
    rw [hgone]
    rfl
  · rw [if_neg hm, if_neg hm]
    refine ⟨_, rfl, ?_, hsole.setStaged _ _⟩
    rw [stageIndex_setStaged, hindex, map_some, staged_setStaged,
      if_pos ⟨rfl, stageIndex_lt hindex⟩]

end Wal

/-! ## Whole calls -/

/-- The transaction a call on the journal is made for. -/
def JournalCall.owner {C : CatalogCodec} : JournalCall C → Option UInt32
  | .stage _ transactionId _ _ => some transactionId
  | .truncateStage transactionId _ => some transactionId
  | .discardStage transactionId => some transactionId
  | .commitStage transactionId _ _ _ => some transactionId
  | .prepareStage _ metadata _ _ => some metadata.transactionId
  | .commit | .clearBatchMarker | .resetAfterCheckpoint => none

/-- **A call of another transaction** leaves the stage alone, whether it succeeds or not. -/
theorem Journal.step_elsewhere {C : CatalogCodec} {j j' : Journal C} {call : JournalCall C}
    (hstep : j.step call = some j') {transactionId : UInt32} (hzero : transactionId ≠ 0)
    (hother : call.owner ≠ some transactionId) : Wal.Elsewhere transactionId j.wal j'.wal := by
  have hne : ∀ {other : UInt32}, call.owner = some other → other ≠ transactionId := by
    intro other howner heq
    exact hother (heq ▸ howner)
  have hfinish : ∀ {b : Batch C} {outcome : Outcome (ℕ × Bytes)}, j.finish b outcome = some j' →
      ∃ result, outcome = some (j'.wal, result) := by
    rintro b (_ | ⟨wal, e | ⟨lsn, copy⟩⟩) h
    · cases h
    · cases h
      exact ⟨_, rfl⟩
    · cases h
      exact ⟨_, rfl⟩
  cases call with
  | stage database other lsn operation =>
    obtain ⟨⟨wal, result⟩, hstage, rfl⟩ := map_eq_some_iff.mp hstep
    exact Wal.stage_elsewhere (hne rfl) hzero hstage
  | truncateStage other kept =>
    obtain ⟨wal, htruncate, rfl⟩ := map_eq_some_iff.mp hstep
    exact Wal.truncateStage_elsewhere (hne rfl) hzero htruncate
  | discardStage other =>
    obtain ⟨wal, hdiscard, rfl⟩ := map_eq_some_iff.mp hstep
    exact Wal.discardStage_elsewhere (hne rfl) hzero hdiscard
  | commitStage other floor assigned now =>
    obtain ⟨result, houtcome⟩ := hfinish hstep
    exact Wal.finishStage_elsewhere (hne rfl) hzero houtcome
  | prepareStage executing metadata floor recordsCapacity =>
    obtain ⟨result, houtcome⟩ := hfinish hstep
    exact Wal.prepareStage_elsewhere hzero houtcome (hne rfl)
  | commit =>
    cases hstep
    refine .of_stages_eq ?_
    unfold Wal.commit
    split_ifs <;> rfl
  | clearBatchMarker | resetAfterCheckpoint =>
    cases hstep
    exact .of_stages_eq rfl

end Pos3ql
