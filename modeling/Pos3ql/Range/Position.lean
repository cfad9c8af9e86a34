import Pos3ql.Range.Order

/-!
# Where a multirange stands

* `multirangePosition`: as in the source, from the first and the last members.
* `outer`: the interval between the outer bounds; `Stands`: the predicates of SQL on it.
* **`multirangePosition_iff_stands`**: all are those of SQL, but for adjacency, which also holds
  where the first member of one multirange ends at the start of the last of the other.

Source: `sql/range.rs`.
-/

namespace Pos3ql

open Foundation List

/-- Source: `MultirangePosition`. -/
inductive MultirangePosition
  | before | after | notRightOf | notLeftOf | adjacent

/-- The predicates of SQL, on outer bounds. -/
def Stands (I J : Interval) : MultirangePosition → Prop
  | .before => I.Before J
  | .after => J.Before I
  | .notRightOf => Interval.hiLe I.hi J.hi
  | .notLeftOf => Interval.loLe J.lo I.lo
  | .adjacent => I.Touches J ∨ J.Touches I

namespace Parsed

/-- Source: `strictly_before`; `strictly_after` is this with the ranges exchanged. -/
def strictlyBefore (a b : Parsed) : Bool := if a.empty || b.empty then false else strictlyLeft a b

/-- Source: `not_right_of`. -/
def notRightOf (a b : Parsed) : Bool :=
  if a.empty || b.empty then false
  else cmpBound a.upper a.upperInc b.upper b.upperInc false != .gt

/-- Source: `not_left_of`. -/
def notLeftOf (a b : Parsed) : Bool :=
  if a.empty || b.empty then false
  else cmpBound a.lower a.lowerInc b.lower b.lowerInc true != .lt

/-- The last member. Source: `ca.last().unwrap_or(a_first)`. -/
def lastMember (first : Parsed) (rest : List Parsed) : Parsed := rest.getLast?.getD first

/-- Source: `multirange_position`. -/
def multirangePosition : List Parsed → List Parsed → MultirangePosition → Bool
  | aFirst :: a, bFirst :: b, predicate =>
    let aLast := lastMember aFirst a
    let bLast := lastMember bFirst b
    match predicate with
    | .before => strictlyBefore aLast bFirst
    | .after => strictlyBefore bLast aFirst
    | .notRightOf => notRightOf aLast bLast
    | .notLeftOf => notLeftOf aFirst bFirst
    | .adjacent => adjacent aLast bFirst || adjacent aFirst bLast
  | _, _, _ => false

/-- From the start of the first member to the end of the last. -/
def outer (first : Parsed) (rest : List Parsed) : Interval :=
  ⟨first.toInterval.lo, (lastMember first rest).toInterval.hi⟩

section

variable {kind : RangeKind} {p q : Parsed} {a b : List Parsed}

/-- Before, on intervals. -/
lemma Member.strictlyBefore_iff (hp : Member kind p) (hq : Member kind q) :
    strictlyBefore p q ↔ p.toInterval.Before q.toInterval := by
  simp [strictlyBefore, hp.nonempty, hq.nonempty,
    strictlyLeft_iff hp.canonical.upper hq.canonical.lower]

/-- Not right of: the upper ends. -/
lemma Member.notRightOf_iff (hp : Member kind p) (hq : Member kind q) :
    notRightOf p q ↔ Interval.hiLe p.toInterval.hi q.toInterval.hi := by
  have h := cmpBound_upper hq.canonical.upper hp.canonical.upper
  rw [cmpBound_swap, Ordering.swap_eq_lt] at h
  simp [notRightOf, hp.nonempty, hq.nonempty, h]

/-- Not left of: the lower ends. -/
lemma Member.notLeftOf_iff (hp : Member kind p) (hq : Member kind q) :
    notLeftOf p q ↔ Interval.loLe q.toInterval.lo p.toInterval.lo := by
  have h := cmpBound_lower hq.canonical.lower hp.canonical.lower
  rw [cmpBound_swap, Ordering.swap_eq_gt] at h
  simp [notLeftOf, hp.nonempty, hq.nonempty, h]

/-- The last member is the only one, or comes after the first with a gap. -/
lemma CanonicalMultirange.last_cases (h : CanonicalMultirange kind (p :: a)) :
    Member kind (lastMember p a) ∧
      (a = [] ∧ lastMember p a = p ∨ p.toInterval.Gap (lastMember p a).toInterval) := by
  rcases eq_nil_or_concat a with rfl | ⟨init, last, rfl⟩
  · exact ⟨h.members p mem_cons_self, .inl ⟨rfl, rfl⟩⟩
  · have hmem : last ∈ init.concat last := by simp
    have hlast := h.members last (mem_cons_of_mem _ hmem)
    have hgap :=
      (apart_iff (h.members p mem_cons_self) hlast).mp ((pairwise_cons.mp h.apart).1 _ hmem)
    have heq : lastMember p (init.concat last) = last := by simp [lastMember]
    rw [heq]
    exact ⟨hlast, .inr hgap⟩

/-- A first member that ends where the last one of another multirange starts makes the two adjacent
only when both have one member. -/
lemma CanonicalMultirange.nil_of_touches (ha : CanonicalMultirange kind (p :: a))
    (hb : CanonicalMultirange kind (q :: b))
    (h : q.toInterval.Touches (lastMember p a).toInterval)
    (hadj : (lastMember p a).toInterval.Touches q.toInterval ∨
      (lastMember q b).toInterval.Touches p.toInterval) :
    a = [] ∧ b = [] := by
  obtain ⟨hlast, ha'⟩ := ha.last_cases
  obtain ⟨hlast', hb'⟩ := hb.last_cases
  have hp := (ha.members p mem_cons_self).proper
  have hq := (hb.members q mem_cons_self).proper
  have hp' := hlast.proper
  have hq' := hlast'.proper
  rcases ha' with ⟨rfl, ha'⟩ | ha' <;> rcases hb' with ⟨rfl, hb'⟩ | hb'
  · exact ⟨rfl, rfl⟩
  all_goals
    simp only [Interval.Touches, Interval.Gap, Interval.Proper] at *
    grind

/-- **Where multiranges stand.** Before, after, not right of and not left of are always those of
SQL. Adjacency is exactly when both have one member, or neither has its first member end where the
last one of the other starts. -/
theorem multirangePosition_iff_stands (ha : CanonicalMultirange kind (p :: a))
    (hb : CanonicalMultirange kind (q :: b)) :
    (∀ predicate, predicate ≠ .adjacent →
      (multirangePosition (p :: a) (q :: b) predicate = true ↔
        Stands (outer p a) (outer q b) predicate)) ∧
    ((multirangePosition (p :: a) (q :: b) .adjacent = true ↔
        Stands (outer p a) (outer q b) .adjacent) ↔
      a = [] ∧ b = [] ∨ ¬ (q.toInterval.Touches (lastMember p a).toInterval ∨
        p.toInterval.Touches (lastMember q b).toInterval)) := by
  have hp := ha.members p mem_cons_self
  have hq := hb.members q mem_cons_self
  have hlast := ha.last_cases.1
  have hlast' := hb.last_cases.1
  refine ⟨fun predicate hne => ?_, ?_⟩
  · cases predicate with
    | before => exact hlast.strictlyBefore_iff hq
    | after => exact hlast'.strictlyBefore_iff hp
    | notRightOf => exact hlast.notRightOf_iff hlast'
    | notLeftOf => exact hp.notLeftOf_iff hq
    | adjacent => exact (hne rfl).elim
  have hadj : multirangePosition (p :: a) (q :: b) .adjacent = true ↔ _ :=
    Bool.or_eq_true_iff.trans (or_congr (hlast.adjacent_iff hq) (hp.adjacent_iff hlast'))
  constructor
  · intro h
    by_contra hnot
    obtain ⟨hne, htouch⟩ := not_or.mp hnot
    have hstands : (lastMember p a).toInterval.Touches q.toInterval ∨
        (lastMember q b).toInterval.Touches p.toInterval := h.mp (hadj.mpr (by tauto))
    rcases not_not.mp htouch with htouch | htouch
    · exact hne (ha.nil_of_touches hb htouch hstands)
    · exact hne (hb.nil_of_touches ha htouch hstands.symm).symm
  · intro hcond
    refine hadj.trans ?_
    change _ ↔ (lastMember p a).toInterval.Touches q.toInterval ∨
      (lastMember q b).toInterval.Touches p.toInterval
    rcases hcond with ⟨rfl, rfl⟩ | hnot
    · change (p.toInterval.Touches _ ∨ _) ∨ _ ∨ q.toInterval.Touches _ ↔ _
      tauto
    · tauto

end

/-- **Adjacency inside the hull**: the numbers three and four lie between one and five, and are
reported adjacent to them. -/
theorem multirangePosition_adjacent_fails :
    CanonicalMultirange .int4 [int4Range 1 2, int4Range 5 6] ∧
      CanonicalMultirange .int4 [int4Range 3 5] ∧
      multirangePosition [int4Range 1 2, int4Range 5 6] [int4Range 3 5] .adjacent = true ∧
      ¬ Stands (outer (int4Range 1 2) [int4Range 5 6]) (outer (int4Range 3 5) []) .adjacent := by
  refine ⟨canonicalMultirange_int4Range_pair (by decide) (by decide),
    canonicalMultirange_int4Range (by decide), rfl, ?_⟩
  simp [Stands, outer, lastMember, Interval.Touches, toInterval, int4Range, ofBounds, start, stop]

/-- The numbers 1, 2 and 5, 6 are before and adjacent to 7, 8 and 11, 12. -/
theorem multirangePosition_two_members :
    (multirangePosition [int4Range 1 3, int4Range 5 7] [int4Range 7 9, int4Range 11 13] .before =
        true ↔
      Stands (outer (int4Range 1 3) [int4Range 5 7]) (outer (int4Range 7 9) [int4Range 11 13])
        .before) ∧
    (multirangePosition [int4Range 1 3, int4Range 5 7] [int4Range 7 9, int4Range 11 13] .adjacent =
        true ↔
      Stands (outer (int4Range 1 3) [int4Range 5 7]) (outer (int4Range 7 9) [int4Range 11 13])
        .adjacent) := by
  obtain ⟨hothers, hadjacent⟩ := multirangePosition_iff_stands
    (canonicalMultirange_int4Range_pair (l := 1) (u := 3) (m := 5) (n := 7) (by decide) (by decide))
    (canonicalMultirange_int4Range_pair (l := 7) (u := 9) (m := 11) (n := 13) (by decide)
      (by decide))
  refine ⟨hothers .before nofun, hadjacent.mpr (.inr ?_)⟩
  simp [lastMember, Interval.Touches, toInterval, int4Range, ofBounds, start, stop]

end Parsed

end Pos3ql
