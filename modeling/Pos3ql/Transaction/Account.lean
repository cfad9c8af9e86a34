import Pos3ql.Transaction.Savepoints

/-!
# The account of a transaction

What a transaction has to publish, kept without row storage and the journal: the images it wrote in
order, the bytes it staged, and its savepoints as marks into the two. A call of a history changes
the account in a way that depends on the call alone.

* `Account`, `Account.step`, `Account.run`.
* `Keeping`: a history without its rolled-back parts, call by call; `keptCalls`.
* **`keptCalls_run`**: leaving out what was rolled back gives the same account.

Source: `sql/txn.rs` (`savepoint_index`, `rewind_to_savepoint`), `wal/mod.rs` (`stage`,
`truncate_stage`).
-/

namespace Pos3ql

open Foundation List Option

/-! ## Accounts -/

/-- The newest entry with a name. Source: `savepoint_index` (`rposition`). -/
def newestNamed {β : Type} (name : String) (stack : List (String × β)) : Option ℕ :=
  (stack.reverse.findIdx? fun entry => entry.1 == name).map fun i => stack.length - 1 - i

/-- **What a transaction has to publish**, and its savepoints with their marks. -/
structure Account where
  writes : List (RowKey × PendingChange)
  staged : Bytes
  savepoints : List (String × ℕ × ℕ)

namespace Account

variable {C : CatalogCodec}

/-- A transaction that has just begun. -/
def empty : Account := ⟨[], [], []⟩

/-- Back to a savepoint: its marks, and the savepoints up to it. -/
def rewind (a : Account) (index : ℕ) (marks : ℕ × ℕ) : Account :=
  ⟨a.writes.take marks.1, a.staged.take marks.2, a.savepoints.take (index + 1)⟩

/-- **One call of a history.** -/
def step (a : Account) : SessionCall C → Option Account
  | .write req => some { a with writes := a.writes ++ [(req.key, req.change)] }
  | .stage database lsn operation => some { a with
      staged := (if a.staged = [] then JournalRecord.bytes ⟨lsn, .databaseScope (C := C) database⟩
        else a.staged) ++ JournalRecord.bytes ⟨lsn, operation.op⟩ }
  | .savepoint name => some { a with
      savepoints := a.savepoints ++ [(name, a.writes.length, a.staged.length)] }
  | .release name => (newestNamed name a.savepoints).map fun index =>
    { a with savepoints := a.savepoints.take index }
  | .rollbackTo name => do
      let index ← newestNamed name a.savepoints
      let (_, marks) ← a.savepoints[index]?
      some (a.rewind index marks)
  | _ => some a

/-- A history. -/
def run (a : Account) (calls : List (SessionCall C)) : Option Account := calls.foldlM step a

lemma run_append (a : Account) (first second : List (SessionCall C)) :
    a.run (first ++ second) = (a.run first).bind fun b => b.run second := by
  unfold run
  rw [foldlM_append]
  rfl

end Account

/-! ## Histories without what was rolled back -/

/-- The call changes the account. -/
def SessionCall.counts {C : CatalogCodec} : SessionCall C → Bool
  | .write _ | .stage _ _ _ | .savepoint _ | .release _ | .rollbackTo _ => true
  | _ => false

/-- **A history without its rolled-back parts**: the calls kept, and for each open savepoint how
many calls there were when it was established. -/
structure Keeping (C : CatalogCodec) where
  calls : List (SessionCall C)
  stack : List (String × ℕ)

namespace Keeping

variable {C : CatalogCodec}

/-- One call: a rollback removes what came after its savepoint. -/
def step (kept : Keeping C) : SessionCall C → Option (Keeping C)
  | .savepoint name =>
      some ⟨kept.calls ++ [.savepoint name], kept.stack ++ [(name, kept.calls.length + 1)]⟩
  | .release name => (newestNamed name kept.stack).map fun index =>
    ⟨kept.calls ++ [.release name], kept.stack.take index⟩
  | .rollbackTo name => do
      let index ← newestNamed name kept.stack
      let (_, length) ← kept.stack[index]?
      some ⟨kept.calls.take length, kept.stack.take (index + 1)⟩
  | call => some (if call.counts then ⟨kept.calls ++ [call], kept.stack⟩ else kept)

end Keeping

/-- **The calls of a history that were not rolled back.** -/
def keptCalls {C : CatalogCodec} (calls : List (SessionCall C)) : Option (List (SessionCall C)) :=
  (calls.foldlM Keeping.step ⟨[], []⟩).map Keeping.calls

/-! ## Marks -/

/-- **A stack of marks**: each is at most the next, and the last at most the present one. -/
def Ascending {β μ : Type} [Preorder μ] (mark : β → μ) (stack : List β) (now : μ) : Prop :=
  stack.Pairwise (fun x y => mark x ≤ mark y) ∧ ∀ x ∈ stack, mark x ≤ now

section Marks

variable {β μ : Type} [Preorder μ] {mark : β → μ} {stack : List β} {now now' : μ} {b : β} {n i : ℕ}

lemma of_getElem?_take {x : β} (h : (stack.take n)[i]? = some x) : i < n ∧ stack[i]? = some x := by
  rw [getElem?_take] at h
  split at h
  · rename_i hlt
    exact ⟨hlt, h⟩
  · cases h

lemma of_getElem?_concat {x p : β} (h : (stack ++ [x])[i]? = some p) :
    i < stack.length ∧ stack[i]? = some p ∨ i = stack.length ∧ p = x := by
  rcases lt_or_ge i stack.length with hlt | hge
  · exact .inl ⟨hlt, getElem?_append_left hlt ▸ h⟩
  rw [getElem?_append_right hge, getElem?_singleton] at h
  split at h
  · cases h
    exact .inr ⟨by omega, rfl⟩
  · cases h

lemma Ascending.mono (h : Ascending mark stack now) (hnow : now ≤ now') :
    Ascending mark stack now' :=
  ⟨h.1, fun x hx => (h.2 x hx).trans hnow⟩

/-- A new mark on top. -/
lemma Ascending.push (h : Ascending mark stack now) (hb : now ≤ mark b) :
    Ascending mark (stack ++ [b]) (mark b) := by
  refine ⟨pairwise_append.mpr ⟨h.1, pairwise_singleton _ _, fun x hx y hy => ?_⟩, fun x hx => ?_⟩
  · rw [mem_singleton.mp hy]
    exact (h.2 x hx).trans hb
  · rcases mem_append.mp hx with hold | hnew
    · exact (h.2 x hold).trans hb
    · rw [mem_singleton.mp hnew]

lemma Ascending.take (h : Ascending mark stack now) (n : ℕ) : Ascending mark (stack.take n) now :=
  ⟨h.1.sublist (take_sublist _ _), fun x hx => h.2 x (mem_of_mem_take hx)⟩

/-- Marks ascend. -/
lemma Ascending.le_of_le (h : Ascending mark stack now) {j : ℕ} {x y : β} (hij : i ≤ j)
    (hx : stack[i]? = some x) (hy : stack[j]? = some y) : mark x ≤ mark y := by
  obtain ⟨hi, rfl⟩ := List.getElem?_eq_some_iff.mp hx
  obtain ⟨hj, rfl⟩ := List.getElem?_eq_some_iff.mp hy
  rcases hij.lt_or_eq with hlt | rfl
  · exact List.pairwise_iff_getElem.mp h.1 i j hi hj hlt
  · exact le_rfl

/-- Back to a mark. -/
lemma Ascending.back (h : Ascending mark stack now) (hb : stack[i]? = some b) :
    Ascending mark (stack.take (i + 1)) (mark b) := by
  refine ⟨(h.take _).1, fun x hx => ?_⟩
  obtain ⟨j, hj⟩ := mem_iff_getElem?.mp hx
  obtain ⟨hlt, hj⟩ := of_getElem?_take hj
  exact h.le_of_le (Nat.le_of_lt_succ hlt) hj hb

end Marks

/-! ## The same account -/

section Kept

variable {C : CatalogCodec} {a a' b b' : Account} {kept : Keeping C} {call : SessionCall C}
  {points : List (String × ℕ × ℕ × ℕ)} {p : String × ℕ × ℕ × ℕ} {i : ℕ}

lemma newestNamed_map {α β : Type} (name : String) (stack : List (String × α))
    (f : String × α → β) :
    newestNamed name (stack.map fun x => (x.1, f x)) = newestNamed name stack := by
  unfold newestNamed
  rw [← map_reverse, findIdx?_map, length_map]
  rfl

/-- **The calls kept give the account**, and up to each open savepoint they give the account that a
rollback to it restores. A point is a savepoint with the number of calls up to it and its marks. -/
structure Tracks (kept : Keeping C) (a : Account) (points : List (String × ℕ × ℕ × ℕ)) : Prop where
  run : Account.empty.run kept.calls = some a
  stack : kept.stack = points.map fun p => (p.1, p.2.1)
  savepoints : a.savepoints = points.map fun p => (p.1, p.2.2)
  ascending : Ascending Prod.snd points (kept.calls.length, a.writes.length, a.staged.length)
  restores :
    ∀ i p, points[i]? = some p → Account.empty.run (kept.calls.take p.2.1) = some (a.rewind i p.2.2)

lemma tracks_empty : Tracks (C := C) ⟨[], []⟩ .empty [] where
  run := rfl
  stack := rfl
  savepoints := rfl
  ascending := ⟨.nil, fun x hx => (nomatch hx)⟩
  restores i p hp := by cases hp

lemma Tracks.bounded (h : Tracks kept a points) {x : String × ℕ × ℕ} (hx : x ∈ a.savepoints) :
    x.2 ≤ (a.writes.length, a.staged.length) := by
  rw [h.savepoints] at hx
  obtain ⟨p, hp, rfl⟩ := mem_map.mp hx
  exact (h.ascending.2 p hp).2

lemma Tracks.run_concat (h : Tracks kept a points) (call : SessionCall C) :
    Account.empty.run (kept.calls ++ [call]) = a.step call := by
  rw [Account.run_append, h.run]
  exact bind_fun_some _

/-- A call after a savepoint leaves what a rollback to it restores. -/
lemma Tracks.restores_concat (h : Tracks kept a points) (hp : points[i]? = some p)
    (hrewind : a'.rewind i p.2.2 = a.rewind i p.2.2) :
    Account.empty.run ((kept.calls ++ [call]).take p.2.1) = some (a'.rewind i p.2.2) := by
  have hle := (h.ascending.2 p (mem_of_getElem? hp)).1
  rw [take_append_of_le_length hle, h.restores i p hp, hrewind]

/-- A call that adds. -/
lemma Tracks.added (h : Tracks kept a points) (hstep : a.step call = some a')
    (hwrites : a.writes <+: a'.writes) (hstaged : a.staged <+: a'.staged ∨ a.staged = [])
    (hsps : a'.savepoints = a.savepoints) :
    Tracks ⟨kept.calls ++ [call], kept.stack⟩ a' points where
  run := (h.run_concat call).trans hstep
  stack := h.stack
  savepoints := hsps.trans h.savepoints
  ascending := by
    refine h.ascending.mono ⟨?_, hwrites.length_le, ?_⟩
    · exact (prefix_append _ _).length_le
    rcases hstaged with hprefix | hempty
    · exact hprefix.length_le
    · rw [hempty]
      exact zero_le
  restores i p hp := by
    refine h.restores_concat hp ?_
    obtain ⟨-, hw, hs⟩ := h.ascending.2 p (mem_of_getElem? hp)
    unfold Account.rewind
    obtain ⟨more, hmore⟩ := hwrites
    rw [← hmore, take_append_of_le_length hw, hsps]
    congr 1
    rcases hstaged with ⟨tail, htail⟩ | hempty
    · rw [← htail, take_append_of_le_length hs]
    · rw [hempty] at hs
      rw [Nat.le_zero.mp hs, take_zero, take_zero]

/-- The lower rewind wins. -/
lemma rewind_rewind {i j : ℕ} {x y : ℕ × ℕ} (hij : i ≤ j) (h : x ≤ y) :
    (a.rewind j y).rewind i x = a.rewind i x := by
  unfold Account.rewind
  simp only [take_take]
  rw [min_eq_left h.1, min_eq_left h.2, min_eq_left (Nat.succ_le_succ hij)]

/-- **One call.** One case per call. -/
theorem Tracks.step (h : Tracks kept a points) (hstep : a.step call = some a') :
    ∃ kept' points', kept.step call = some kept' ∧ Tracks kept' a' points' := by
  have hlen : a.savepoints.length = points.length := by rw [h.savepoints, length_map]
  cases call with
  | write req =>
    cases hstep
    exact ⟨_, points, rfl, h.added rfl (prefix_append _ _) (.inl prefix_rfl) rfl⟩
  | stage database lsn operation =>
    cases hstep
    refine ⟨_, points, rfl, h.added rfl prefix_rfl ?_ rfl⟩
    by_cases hempty : a.staged = []
    · exact .inr hempty
    · simp only [if_neg hempty]
      exact .inl (prefix_append _ _)
  | refused _ | storage _ | journal _ =>
    cases hstep
    exact ⟨kept, points, rfl, h⟩
  | savepoint name =>
    cases hstep
    have hrun := h.run_concat (.savepoint name)
    refine ⟨_, points ++ [(name, kept.calls.length + 1, a.writes.length, a.staged.length)], rfl,
      hrun,
      ?_, ?_, ?_, fun i p hp => ?_⟩
    · rw [map_append, ← h.stack]
      rfl
    · rw [map_append, ← h.savepoints]
      rfl
    · rw [length_append]
      exact h.ascending.push (b := (name, _, _, _)) ⟨Nat.le_succ _, le_rfl, le_rfl⟩
    rcases of_getElem?_concat hp with ⟨hlt, hp⟩ | ⟨rfl, rfl⟩
    · -- an older savepoint
      refine h.restores_concat hp ?_
      unfold Account.rewind
      rw [take_append_of_le_length (hlen ▸ hlt)]
    -- the new one restores this very state
    rw [take_of_length_le (by simp), hrun]
    unfold Account.rewind
    rw [take_length, take_length, take_of_length_le (by simp [hlen])]
    rfl
  | release name =>
    obtain ⟨index, hindex, rfl⟩ := map_eq_some_iff.mp hstep
    refine ⟨⟨kept.calls ++ [.release name], kept.stack.take index⟩, points.take index, ?_,
      (h.run_concat _).trans hstep, ?_, ?_, ?_, fun i p hp => ?_⟩
    · rw [h.savepoints, newestNamed_map] at hindex
      show (newestNamed name kept.stack).map _ = _
      rw [h.stack, newestNamed_map, hindex]
      rfl
    · rw [h.stack, map_take]
    · rw [h.savepoints, map_take]
    · exact (h.ascending.take index).mono ⟨(prefix_append _ _).length_le, le_rfl, le_rfl⟩
    · obtain ⟨hlt, hp⟩ := of_getElem?_take hp
      refine h.restores_concat hp ?_
      unfold Account.rewind
      rw [take_take, min_eq_left hlt]
  | rollbackTo name =>
    obtain ⟨index, hindex, hrest⟩ := bind_eq_some_iff.mp hstep
    obtain ⟨⟨named, marks⟩, hpoint, hrewind⟩ := bind_eq_some_iff.mp hrest
    cases hrewind
    rw [h.savepoints, newestNamed_map] at hindex
    rw [h.savepoints, getElem?_map] at hpoint
    obtain ⟨p, hp, hmarks⟩ := map_eq_some_iff.mp hpoint
    cases hmarks
    obtain ⟨hcalls, hwrites, hstaged⟩ := h.ascending.2 p (mem_of_getElem? hp)
    refine ⟨⟨kept.calls.take p.2.1, kept.stack.take (index + 1)⟩, points.take (index + 1), ?_,
      h.restores index p hp, ?_, ?_, ?_, fun i x hx => ?_⟩
    · show (newestNamed name kept.stack).bind _ = _
      rw [h.stack, newestNamed_map, hindex, bind_some, getElem?_map, hp]
      rfl
    · rw [h.stack, map_take]
    · rw [map_take, ← h.savepoints]
      rfl
    · unfold Account.rewind
      rw [length_take, length_take, length_take, min_eq_left hcalls, min_eq_left hwrites,
        min_eq_left hstaged]
      exact h.ascending.back hp
    · obtain ⟨hlt, hx⟩ := of_getElem?_take hx
      obtain ⟨hbefore, hmarks⟩ := h.ascending.le_of_le (Nat.le_of_lt_succ hlt) hx hp
      rw [take_take, min_eq_left hbefore, h.restores i x hx,
        rewind_rewind (Nat.le_of_lt_succ hlt) hmarks]

/-- **Leaving out what was rolled back gives the same account.** Induction on the history. -/
theorem keptCalls_run {calls : List (SessionCall C)} (h : Account.empty.run calls = some a) :
    ∃ kept, keptCalls calls = some kept ∧ Account.empty.run kept = some a := by
  suffices hfrom : ∀ (calls : List (SessionCall C)) (kept : Keeping C) (b : Account) points,
      Tracks kept b points → b.run calls = some a → ∃ kept' points',
        calls.foldlM Keeping.step kept = some kept' ∧ Tracks kept' a points' by
    obtain ⟨kept, _, hkept, htracks⟩ := hfrom calls _ _ _ tracks_empty h
    exact ⟨kept.calls, by unfold keptCalls; rw [hkept]; rfl, htracks.run⟩
  intro calls
  induction calls with
  | nil =>
    intro kept b points htracks hrun
    cases hrun
    exact ⟨kept, points, rfl, htracks⟩
  | cons call calls ih =>
    intro kept b points htracks hrun
    obtain ⟨b', hcall, hrest⟩ := bind_eq_some_iff.mp hrun
    obtain ⟨kept₁, points₁, hkept, htracks₁⟩ := htracks.step hcall
    obtain ⟨kept', points', hrun', htracks'⟩ := ih kept₁ b' points₁ htracks₁ hrest
    refine ⟨kept', points', ?_, htracks'⟩
    rw [foldlM_cons, hkept]
    exact hrun'

/-- Only calls that count matter. -/
lemma run_filter_counts (b : Account) (calls : List (SessionCall C)) :
    b.run (calls.filter SessionCall.counts) = b.run calls := by
  induction calls generalizing b with
  | nil => rfl
  | cons call calls ih =>
    by_cases hcounts : call.counts = true
    · rw [filter_cons_of_pos hcounts]
      exact bind_congr fun b' _ => ih b'
    rw [filter_cons_of_neg hcounts, ih]
    have hsame : b.step call = some b := by
      cases call <;> first | rfl | exact absurd rfl hcounts
    show _ = (Account.step b call).bind _
    rw [hsame]
    rfl

/-! ## While savepoints stay open -/

/-- **What holds of an account reached from `a`** while the savepoints of `a` stay open, if the
newest of them was established in `a`: nothing of `a` is gone, and no mark that a rollback may go
back to lies below it. -/
structure Account.Extends (a b : Account) : Prop where
  writes : a.writes <+: b.writes
  staged : a.staged <+: b.staged
  savepoints : a.savepoints <+: b.savepoints
  marks : ∀ i p, a.savepoints.length ≤ i + 1 → b.savepoints[i]? = some p →
    (a.writes.length, a.staged.length) ≤ p.2

/-- **One call** that leaves the savepoints open. One case per call. -/
theorem Account.Extends.step (h : a.Extends b) (hstep : b.step call = some b')
    (hopen : a.savepoints.length ≤ b'.savepoints.length) : a.Extends b' := by
  obtain ⟨hw, hs, hsps, hmarks⟩ := h
  cases call with
  | write req =>
    cases hstep
    exact ⟨hw.trans (prefix_append _ _), hs, hsps, hmarks⟩
  | stage database lsn operation =>
    cases hstep
    refine ⟨hw, ?_, hsps, hmarks⟩
    by_cases hempty : b.staged = []
    · rw [hempty] at hs
      rw [prefix_nil.mp hs]
      exact nil_prefix
    · simp only [if_neg hempty]
      exact hs.trans (prefix_append _ _)
  | refused _ | storage _ | journal _ =>
    cases hstep
    exact ⟨hw, hs, hsps, hmarks⟩
  | savepoint name =>
    cases hstep
    refine ⟨hw, hs, hsps.trans (prefix_append _ _), fun i p hi hp => ?_⟩
    rcases of_getElem?_concat hp with ⟨-, hp⟩ | ⟨-, rfl⟩
    · exact hmarks i p hi hp
    · exact ⟨hw.length_le, hs.length_le⟩
  | release name =>
    obtain ⟨index, -, rfl⟩ := map_eq_some_iff.mp hstep
    have hle := hopen.trans (length_take_le _ _)
    exact ⟨hw, hs, prefix_take_iff.mpr ⟨hsps, hle⟩,
      fun i p hi hp => hmarks i p hi (of_getElem?_take hp).2⟩
  | rollbackTo name =>
    obtain ⟨index, -, hrest⟩ := bind_eq_some_iff.mp hstep
    obtain ⟨p, hp, hrewind⟩ := bind_eq_some_iff.mp hrest
    cases hrewind
    have hle := hopen.trans (length_take_le _ _)
    obtain ⟨hle₁, hle₂⟩ := hmarks index p hle hp
    exact ⟨prefix_take_iff.mpr ⟨hw, hle₁⟩, prefix_take_iff.mpr ⟨hs, hle₂⟩,
      prefix_take_iff.mpr ⟨hsps, hle⟩, fun i x hi hx => hmarks i x hi (of_getElem?_take hx).2⟩

lemma Account.run_savepoint {calls : List (SessionCall C)} {name : String}
    (h : b.run (calls ++ [.savepoint name]) = some a) :
    ∃ older, a.savepoints = older ++ [(name, a.writes.length, a.staged.length)] := by
  rw [Account.run_append] at h
  obtain ⟨b', -, hlast⟩ := bind_eq_some_iff.mp h
  cases hlast
  exact ⟨b'.savepoints, rfl⟩

section Established

variable {older : List (String × ℕ × ℕ)} {name : String}
  (hsps : a.savepoints = older ++ [(name, a.writes.length, a.staged.length)])
include hsps

lemma Account.extends_refl : a.Extends a := by
  refine ⟨prefix_rfl, prefix_rfl, prefix_rfl, fun i p hi hp => ?_⟩
  rw [hsps, length_append] at hi
  rw [hsps] at hp
  rcases of_getElem?_concat hp with ⟨hlt, -⟩ | ⟨-, rfl⟩
  · exact absurd hlt (Nat.not_lt.mpr (Nat.le_of_succ_le_succ hi))
  · exact le_rfl

/-- **Back to the newest savepoint of `a`.** -/
theorem Account.Extends.rollbackTo (h : a.Extends b)
    (hindex : newestNamed name b.savepoints = some older.length) :
    b.step (.rollbackTo name : SessionCall C) = some a := by
  obtain ⟨more, hmore⟩ := h.savepoints
  have hlen : a.savepoints.length = older.length + 1 := by
    rw [hsps, length_append]
    rfl
  have hpoint : b.savepoints[older.length]? = some (name, a.writes.length, a.staged.length) := by
    rw [← hmore, hsps]
    simp
  show (newestNamed name b.savepoints).bind _ = _
  rw [hindex, bind_some, hpoint]
  show some (b.rewind _ _) = _
  unfold Account.rewind
  rw [← hlen, ← prefix_iff_eq_take.mp h.writes, ← prefix_iff_eq_take.mp h.staged,
    ← prefix_iff_eq_take.mp h.savepoints]

end Established

end Kept

end Pos3ql
