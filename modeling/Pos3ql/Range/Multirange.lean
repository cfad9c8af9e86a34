import Pos3ql.Range.Ranges

/-!
# Multiranges

A multirange is a list of discrete ranges. Its canonical form has its members in order, none of them
empty, and no two of them overlapping or adjacent.

* `canonicalizeMultirange`: sorts the members and merges neighbours.
* `multirangeUnion`, `multirangeIntersect`, `multirangeDifference`, `multirangeOverlaps`,
  `multirangeContainsMultirange`, `multirangeContainsElem`: as in the source.
* `CanonicalMultirange`; **`canonicalizeMultirange_spec`**; **`CanonicalMultirange.ext`**: the form
  is determined by the points.
* **`multirangeIntersect_spec`**: the sweep over two lists of members.
* `Protrudes`; **`subtractAll_spec`**: the removal of members succeeds exactly when none that is
  removed reaches past what it is removed from.
* **`multirange_algebra_iff`**: when the operations are those of sets of integers.
* `MultirangeExpr`; **`eval_eq_iff_points_eq`**: which expressions are equal.

A multirange is the list of its members here and a text in the source; the statement memory of the
results is left out. The order of members is total on canonical ranges, so that the unstable sort of
the source gives the one sorted list.

Source: `sql/range.rs`.
-/

namespace Pos3ql.Parsed

open Foundation List Option

/-! ## The operations -/

/-- Source: `cmp_ranges`. -/
def cmpRanges (a b : Parsed) : Ordering :=
  match a.empty, b.empty with
  | true, true => .eq
  | true, false => .lt
  | false, true => .gt
  | false, false =>
    let lower := cmpBound a.lower a.lowerInc b.lower b.lowerInc true
    if lower != .eq then lower else cmpBound a.upper a.upperInc b.upper b.upperInc false

/-- One member after the ones before it, which are in reverse order. Source: the loop body of
`canonicalize_multirange`. -/
def mergeStep (kind : RangeKind) (out : List Parsed) (r : Parsed) : Except SqlError (List Parsed) :=
  match out with
  | [] => .ok [r]
  | last :: rest =>
    if overlaps last r || adjacent last r then (merge kind last r).map (· :: rest)
    else .ok (r :: last :: rest)

/-- Source: the loop of `canonicalize_multirange`. -/
def mergeNeighbours (kind : RangeKind) (out : List Parsed) :
    List Parsed → Except SqlError (List Parsed)
  | [] => .ok out.reverse
  | r :: rest => do
      let next ← mergeStep kind out r
      mergeNeighbours kind next rest

/-- Source: `canonicalize_multirange`. -/
def canonicalizeMultirange (kind : RangeKind) (ranges : List Parsed) :
    Except SqlError (List Parsed) :=
  mergeNeighbours kind [] (ranges.insertionSort fun left right => cmpRanges left right ≠ .gt)

/-- Source: `parse_multirange`. -/
def parseMultirange (kind : RangeKind) (raw : List Parsed) : Except SqlError (List Parsed) := do
  let canon ← raw.mapM (canonical kind)
  canonicalizeMultirange kind (canon.filter fun c => !c.empty)

/-- Source: `multirange_union`. -/
def multirangeUnion (kind : RangeKind) (a b : List Parsed) : Except SqlError (List Parsed) :=
  canonicalizeMultirange kind (a ++ b)

/-- Source: the loop of `multirange_intersect`. -/
def sweep (kind : RangeKind) : List Parsed → List Parsed → Except SqlError (List Parsed)
  | [], _ => .ok []
  | _ :: _, [] => .ok []
  | left :: ls, right :: rs =>
    if strictlyLeft left right then sweep kind ls (right :: rs)
    else if strictlyLeft right left then sweep kind (left :: ls) rs
    else do
      let q ← intersect kind left right
      let rest ← match cmpBound left.upper left.upperInc right.upper right.upperInc false with
        | .lt => sweep kind ls (right :: rs)
        | .gt => sweep kind (left :: ls) rs
        | .eq => sweep kind ls rs
      return q :: rest
  termination_by a b => a.length + b.length

/-- Source: `multirange_intersect`. -/
def multirangeIntersect (kind : RangeKind) (a b : List Parsed) : Except SqlError (List Parsed) := do
  let out ← sweep kind a b
  canonicalizeMultirange kind out

/-- One remnant, which is there when the bound is. Source: `range_minus`. -/
def remnant (kind : RangeKind) (present : Bool) (p : Parsed) : Except SqlError (List Parsed) :=
  if present then (canonical kind p).map fun r => if r.empty then [] else [r] else .ok []

/-- Source: `left` in `range_minus`. -/
def leftRemnant (a b : Parsed) : Parsed := ofBounds a.lower a.lowerInc b.lower (!b.lowerInc)

/-- Source: `right` in `range_minus`. -/
def rightRemnant (a b : Parsed) : Parsed := ofBounds b.upper (!b.upperInc) a.upper a.upperInc

/-- Source: `range_minus`. -/
def rangeMinus (kind : RangeKind) (a b : Parsed) : Except SqlError (List Parsed) := do
  let left ← remnant kind b.lower.isSome (leftRemnant a b)
  let right ← remnant kind b.upper.isSome (rightRemnant a b)
  return left ++ right

/-- One member out of one piece. Source: the body of the inner loop of `multirange_difference`. -/
def subtractFrom (kind : RangeKind) (b piece : Parsed) : Except SqlError (List Parsed) :=
  if overlaps piece b then rangeMinus kind piece b else .ok [piece]

/-- One member out of every piece. Source: the inner loop of `multirange_difference`. -/
def subtract (kind : RangeKind) (b : Parsed) : List Parsed → Except SqlError (List Parsed)
  | [] => .ok []
  | piece :: rest => do
      let parts ← subtractFrom kind b piece
      let others ← subtract kind b rest
      return parts ++ others

/-- Source: the outer loop of `multirange_difference`. -/
def subtractAll (kind : RangeKind) (pieces : List Parsed) :
    List Parsed → Except SqlError (List Parsed)
  | [] => .ok pieces
  | b :: rest => do
      let next ← subtract kind b pieces
      subtractAll kind next rest

/-- Source: `multirange_difference`. -/
def multirangeDifference (kind : RangeKind) (a b : List Parsed) :
    Except SqlError (List Parsed) := do
  let pieces ← subtractAll kind a b
  canonicalizeMultirange kind pieces

/-- Source: `multirange_overlaps`. -/
def multirangeOverlaps : List Parsed → List Parsed → Bool
  | [], _ => false
  | _ :: _, [] => false
  | left :: ls, right :: rs =>
    if strictlyLeft left right then multirangeOverlaps ls (right :: rs)
    else if strictlyLeft right left then multirangeOverlaps (left :: ls) rs
    else true
  termination_by a b => a.length + b.length

/-- Source: `multirange_contains_multirange`. -/
def multirangeContainsMultirange (kind : RangeKind) (a b : List Parsed) : Except SqlError Bool := do
  let inter ← multirangeIntersect kind a b
  let bcanon ← parseMultirange kind b
  return inter == bcanon

/-- Source: `multirange_contains_elem`. -/
def multirangeContainsElem (a : List Parsed) (element : ℤ) : Bool :=
  a.any fun ai => containsElem ai element

/-! ## Canonical multiranges -/

/-- The integers of a multirange. -/
def pointsOf (m : List Parsed) : Set ℤ := {x | ∃ p ∈ m, x ∈ p.points}

/-- A range that may be a member. -/
structure Member (kind : RangeKind) (p : Parsed) : Prop where
  canonical : Canonical kind p
  nonempty : p.empty = false

/-- **The form that a stored multirange has**: members in order, not empty, that neither overlap nor
are adjacent. -/
structure CanonicalMultirange (kind : RangeKind) (m : List Parsed) : Prop where
  members : ∀ p ∈ m, Member kind p
  apart : m.Pairwise fun p q => strictlyLeft p q = true ∧ adjacent p q = false

section Forms

variable {kind : RangeKind} {p q r : Parsed} {a b m l : List Parsed}

/-- No members, no points. -/
lemma pointsOf_nil : pointsOf [] = ∅ := by
  ext x
  simp [pointsOf]

/-- The points of one more member. -/
lemma pointsOf_cons (p : Parsed) (m : List Parsed) : pointsOf (p :: m) = p.points ∪ pointsOf m := by
  ext x
  simp [pointsOf]

/-- The points of joined lists. -/
lemma pointsOf_append (a b : List Parsed) : pointsOf (a ++ b) = pointsOf a ∪ pointsOf b := by
  ext x
  simp [pointsOf, or_and_right, exists_or]

/-- The order of the members does not matter. -/
lemma pointsOf_congr (h : ∀ p, p ∈ a ↔ p ∈ b) : pointsOf a = pointsOf b := by
  ext x
  simp [pointsOf, h]

/-- A member is a proper interval. -/
lemma Member.proper (h : Member kind p) : p.toInterval.Proper := h.canonical.proper h.nonempty

/-- Its points are those of the interval. -/
lemma Member.points (h : Member kind p) : p.points = p.toInterval.points := points_eq h.nonempty

/-- Single ranges are sets. -/
lemma Member.setAlgebra (hp : Member kind p) (hq : Member kind q) : SetAlgebra kind p q :=
  setAlgebra_of_nonempty hp.canonical hq.canonical hp.nonempty hq.nonempty

/-- Overlap, on intervals. -/
lemma Member.overlaps_iff (hp : Member kind p) (hq : Member kind q) :
    overlaps p q ↔
      ¬ p.toInterval.Before q.toInterval ∧ ¬ q.toInterval.Before p.toInterval :=
  Parsed.overlaps_iff hp.canonical hq.canonical hp.nonempty hq.nonempty

/-- Adjacency, on intervals. -/
lemma Member.adjacent_iff (hp : Member kind p) (hq : Member kind q) :
    adjacent p q ↔
      p.toInterval.Touches q.toInterval ∨ q.toInterval.Touches p.toInterval :=
  Parsed.adjacent_iff hp.canonical hq.canonical hp.nonempty hq.nonempty

/-- Multiranges as lists of intervals. -/
lemma pointsOf_eq (h : ∀ p ∈ m, Member kind p) :
    pointsOf m = Interval.pointsOf (m.map toInterval) := by
  induction m with
  | nil => rw [pointsOf_nil, map_nil, Interval.pointsOf_nil]
  | cons p m ih =>
    rw [pointsOf_cons, map_cons, Interval.pointsOf_cons, (h p mem_cons_self).points,
      ih (forall_mem_cons.mp h).2]

/-- Apart: strictly left with a gap. -/
lemma apart_iff (hp : Member kind p) (hq : Member kind q) :
    strictlyLeft p q ∧ adjacent p q = false ↔ p.toInterval.Gap q.toInterval := by
  rw [strictlyLeft_iff hp.canonical.upper hq.canonical.lower, ← Bool.not_eq_true,
    hp.adjacent_iff hq, Interval.before_iff]
  constructor
  · rintro ⟨hgap | htouches, hnot⟩
    · exact hgap
    · exact absurd (.inl htouches) hnot
  · intro hgap
    exact ⟨.inl hgap, hgap.not_touches hp.proper hq.proper⟩

/-- Canonical: separated intervals. -/
lemma canonicalMultirange_iff :
    CanonicalMultirange kind m ↔
      (∀ p ∈ m, Member kind p) ∧ Interval.Separated (m.map toInterval) := by
  have hgaps : (∀ p ∈ m, Member kind p) →
      ((m.Pairwise fun p q => strictlyLeft p q ∧ adjacent p q = false) ↔
        m.Pairwise fun p q => p.toInterval.Gap q.toInterval) := fun hm =>
    List.Pairwise.iff_of_mem fun hp hq => apart_iff (hm _ hp) (hm _ hq)
  constructor
  · rintro ⟨hm, hapart⟩
    refine ⟨hm, ?_, pairwise_map.mpr ((hgaps hm).mp hapart)⟩
    intro I hI
    obtain ⟨p, hp, rfl⟩ := mem_map.mp hI
    exact (hm p hp).proper
  · rintro ⟨hm, -, hpairs⟩
    exact ⟨hm, (hgaps hm).mpr (pairwise_map.mp hpairs)⟩

/-- The members are separated. -/
lemma CanonicalMultirange.separated (h : CanonicalMultirange kind m) :
    Interval.Separated (m.map toInterval) := (canonicalMultirange_iff.mp h).2

/-- Without the first member. -/
lemma CanonicalMultirange.tail (h : CanonicalMultirange kind (p :: m)) :
    CanonicalMultirange kind m :=
  ⟨(forall_mem_cons.mp h.members).2, (pairwise_cons.mp h.apart).2⟩

/-- A bound in canonical form is determined by the first integer of the range. -/
lemma LowerForm.eq_of_start {v w : ℤ} {i j : Bool} (hv : LowerForm kind (some v) i)
    (hw : LowerForm kind (some w) j) (h : start v i = start w j) : v = w ∧ i = j := by
  rcases lt_trichotomy v w with hlt | rfl | hlt
  · exact absurd h (start_lt_start hv hw hlt).ne
  · refine ⟨rfl, ?_⟩
    cases i <;> cases j <;> simp [start] at h ⊢
  · exact absurd h (start_lt_start hw hv hlt).ne'

/-- An upper bound is given by its end. -/
lemma UpperForm.eq_of_stop {v w : ℤ} {i j : Bool} (hv : UpperForm kind (some v) i)
    (hw : UpperForm kind (some w) j) (h : stop v i = stop w j) : v = w ∧ i = j := by
  rw [← hv.flip.2, ← hw.flip.2] at h
  exact (hv.flip.1.eq_of_start hw.flip.1 h).imp_right Bool.not_inj

/-- **A member is determined by its interval.** -/
theorem Member.ext (hp : Member kind p) (hq : Member kind q) (h : p.toInterval = q.toInterval) :
    p = q := by
  obtain ⟨⟨-, hpl, hpu, -⟩, hpe⟩ := hp
  obtain ⟨⟨-, hql, hqu, -⟩, hqe⟩ := hq
  obtain ⟨pe, pl, pu, pli, pui⟩ := p
  obtain ⟨qe, ql, qu, qli, qui⟩ := q
  obtain rfl := hpe
  obtain rfl := hqe
  simp only [toInterval, Interval.mk.injEq] at h hpl hpu hql hqu
  have hlower : pl = ql ∧ pli = qli := by
    cases pl <;> cases ql <;> simp only
      [map_none, map_some, reduceCtorEq, false_and, some.injEq] at h
    · exact ⟨rfl, hpl.trans hql.symm⟩
    · obtain ⟨rfl, rfl⟩ := hpl.eq_of_start hql h.1
      exact ⟨rfl, rfl⟩
  have hupper : pu = qu ∧ pui = qui := by
    cases pu <;> cases qu <;> simp only
      [map_none, map_some, reduceCtorEq, and_false, some.injEq] at h
    · exact ⟨rfl, hpu.trans hqu.symm⟩
    · obtain ⟨rfl, rfl⟩ := hpu.eq_of_stop hqu h.2
      exact ⟨rfl, rfl⟩
  rw [hlower.1, hlower.2, hupper.1, hupper.2]

/-- **A canonical multirange is determined by its points.** -/
theorem CanonicalMultirange.ext (ha : CanonicalMultirange kind a) (hb : CanonicalMultirange kind b)
    (h : pointsOf a = pointsOf b) : a = b := by
  rw [pointsOf_eq ha.members, pointsOf_eq hb.members] at h
  have hmaps := ha.separated.ext hb.separated h
  have hma := ha.members
  have hmb := hb.members
  clear h ha hb
  induction a generalizing b with
  | nil => rw [map_nil, eq_comm, map_eq_nil_iff] at hmaps; exact hmaps.symm
  | cons p a ih =>
    cases b with
    | nil => cases hmaps
    | cons q b =>
      rw [map_cons, map_cons, List.cons.injEq] at hmaps
      obtain rfl := (hma p mem_cons_self).ext (hmb q mem_cons_self) hmaps.1
      rw [ih hmaps.2 (forall_mem_cons.mp hma).2 (forall_mem_cons.mp hmb).2]

/-! ## The order of members -/

/-- **Bounds that are present compare as integers**, twice the value and one more on the inner
side. -/
lemma cmpBound_eq_compare (v w : ℤ) (i j lower : Bool) :
    cmpBound (some v) i (some w) j lower =
      compare (2 * v + if i = lower then 0 else 1) (2 * w + if j = lower then 0 else 1) := by
  rcases lt_trichotomy v w with h | rfl | h
  · simp only [cmpBound, compare_lt_iff_lt.mpr h]
    exact (compare_lt_iff_lt.mpr (by split <;> split <;> omega)).symm
  · simp only [cmpBound]
    symm
    cases i <;> cases j <;> cases lower <;>
      simp [compare_lt_iff_lt, compare_gt_iff_gt]
  · simp only [cmpBound, compare_gt_iff_gt.mpr h]
    exact (compare_gt_iff_gt.mpr (by split <;> split <;> omega)).symm

/-- Bounds compared the other way. -/
lemma cmpBound_swap (v w : Option ℤ) (i j lower : Bool) :
    cmpBound w j v i lower = (cmpBound v i w j lower).swap := by
  rcases v with _ | v <;> rcases w with _ | w
  case some.some =>
    rw [cmpBound_eq_compare, cmpBound_eq_compare]
    exact Std.OrientedCmp.eq_swap
  all_goals cases lower <;> rfl

/-- Comparing bounds is transitive. -/
lemma transCmp_cmpBound (bound : Parsed → Option ℤ × Bool) (lower : Bool) :
    Std.TransCmp fun a b => cmpBound (bound a).1 (bound a).2 (bound b).1 (bound b).2 lower where
  eq_swap := cmpBound_swap ..
  isLE_trans {a b c} := by
    obtain ⟨_ | u, i⟩ := bound a <;> obtain ⟨_ | v, j⟩ := bound b <;>
      obtain ⟨_ | w, k⟩ := bound c
    case some.some.some =>
      simp only [cmpBound_eq_compare]
      exact Std.TransCmp.isLE_trans
    all_goals cases lower <;> simp [cmpBound]

/-- The order of ranges that are not empty: lower bounds first. -/
def cmpBounds : Parsed → Parsed → Ordering :=
  compareLex (fun a b => cmpBound a.lower a.lowerInc b.lower b.lowerInc true)
    fun a b => cmpBound a.upper a.upperInc b.upper b.upperInc false

instance transCmp_cmpBounds : Std.TransCmp cmpBounds := by
  have hlower := transCmp_cmpBound (fun p => (p.lower, p.lowerInc)) true
  have hupper := transCmp_cmpBound (fun p => (p.upper, p.upperInc)) false
  unfold cmpBounds
  infer_instance

/-- The comparison, case by case. -/
lemma cmpRanges_eq (a b : Parsed) :
    cmpRanges a b =
      bif a.empty then bif b.empty then .eq else .lt
      else bif b.empty then .gt else cmpBounds a b := by
  simp only [cmpRanges, cmpBounds, compareLex]
  cases a.empty <;> cases b.empty <;> try rfl
  cases cmpBound a.lower a.lowerInc b.lower b.lowerInc true <;> rfl

/-- **The order of ranges is a total preorder.** -/
instance transCmp_cmpRanges : Std.TransCmp cmpRanges where
  eq_swap {a b} := by
    rw [cmpRanges_eq a, cmpRanges_eq b]
    cases a.empty <;> cases b.empty <;> try rfl
    exact transCmp_cmpBounds.eq_swap
  isLE_trans {a b c} := by
    rw [cmpRanges_eq a, cmpRanges_eq b, cmpRanges_eq a]
    cases a.empty <;> cases b.empty <;> cases c.empty
    case false.false.false => exact transCmp_cmpBounds.isLE_trans
    all_goals simp

/-! ## Canonicalization -/

/-- The order in which the members are merged. -/
abbrev StartsBefore (p q : Parsed) : Prop := Interval.loLe p.toInterval.lo q.toInterval.lo

/-- What is not greater does not start later. -/
lemma startsBefore_of_cmpRanges (hp : Member kind p) (hq : Member kind q)
    (h : cmpRanges p q ≠ .gt) : StartsBefore p q := by
  by_contra hnot
  have hgt := (cmpBound_lower hp.canonical.lower hq.canonical.lower).mpr hnot
  rw [cmpRanges_eq, hp.nonempty] at h
  simp [cmpBounds, compareLex, hgt] at h

/-- The sort orders the starts. -/
lemma pairwise_insertionSort (hl : ∀ q ∈ l, Member kind q) :
    (l.insertionSort fun left right => cmpRanges left right ≠ .gt).Pairwise StartsBefore := by
  have htotal : Std.Total fun left right => cmpRanges left right ≠ .gt := by
    refine ⟨fun p q => ?_⟩
    rw [transCmp_cmpRanges.eq_swap (a := q)]
    cases cmpRanges p q <;> simp
  have htrans : IsTrans Parsed fun left right => cmpRanges left right ≠ .gt := by
    refine ⟨fun p q r => ?_⟩
    simp only [Ordering.ne_gt_iff_isLE]
    exact transCmp_cmpRanges.isLE_trans
  refine (List.pairwise_insertionSort _ l).imp_of_mem fun hp hq h => ?_
  exact startsBefore_of_cmpRanges (hl _ ((mem_insertionSort _).mp hp))
    (hl _ ((mem_insertionSort _).mp hq)) h

/-- What is merged so far, the last member first. -/
structure Merged (kind : RangeKind) (out : List Parsed) : Prop where
  members : ∀ p ∈ out, Member kind p
  gaps : out.Pairwise fun p q => q.toInterval.Gap p.toInterval

variable {out : List Parsed} {present : Bool}

/-- The merged members, in order. -/
lemma Merged.reverse (h : Merged kind out) : CanonicalMultirange kind out.reverse := by
  refine ⟨fun p hp => h.members p (mem_reverse.mp hp), pairwise_reverse.mpr ?_⟩
  exact h.gaps.imp_of_mem fun hp hq hgap => (apart_iff (h.members _ hq) (h.members _ hp)).mpr hgap

/-- Two members are joined unless a gap parts them. -/
lemma joined_iff (hp : Member kind p) (hq : Member kind q) (h : StartsBefore p q) :
    (overlaps p q || adjacent p q) ↔ ¬ p.toInterval.Gap q.toInterval := by
  have hback := Interval.not_before_of_loLe hq.proper h
  rw [Bool.or_eq_true, hp.overlaps_iff hq, hp.adjacent_iff hq]
  constructor
  · rintro (⟨hbefore, -⟩ | htouches) hgap
    · exact hbefore (Interval.before_iff.mpr (.inl hgap))
    · exact hgap.not_touches hp.proper hq.proper htouches
  intro hgap
  by_cases hbefore : p.toInterval.Before q.toInterval
  · exact .inr (.inl ((Interval.before_iff.mp hbefore).resolve_left hgap))
  · exact .inl ⟨hbefore, hback⟩

/-- **One member more.** -/
theorem mergeStep_spec (h : Merged kind out) (hr : Member kind r)
    (hfirst : ∀ p ∈ out.head?, StartsBefore p r) :
    ∃ next, mergeStep kind out r = .ok next ∧ Merged kind next ∧
      pointsOf next = pointsOf out ∪ r.points ∧
      ∀ q, StartsBefore r q → ∀ p ∈ next.head?, StartsBefore p q := by
  cases out with
  | nil =>
    refine ⟨[r], rfl, ⟨by simpa using hr, pairwise_singleton _ _⟩, ?_, ?_⟩
    · rw [pointsOf_cons, Set.union_comm]
    · simp
  | cons last rest =>
    have hlast := h.members last mem_cons_self
    have horder : StartsBefore last r := hfirst last rfl
    obtain ⟨hgaps, hrest⟩ := pairwise_cons.mp h.gaps
    have hjoined := joined_iff hlast hr horder
    by_cases hgap : last.toInterval.Gap r.toInterval
    · refine ⟨r :: last :: rest, if_neg (mt hjoined.mp (not_not.mpr hgap)), ⟨?_, ?_⟩, ?_, ?_⟩
      · exact forall_mem_cons.mpr ⟨hr, h.members⟩
      · refine pairwise_cons.mpr ⟨forall_mem_cons.mpr ⟨hgap, fun p hp => ?_⟩, h.gaps⟩
        exact (hgaps p hp).mono horder
      · rw [pointsOf_cons, Set.union_comm]
      · simp
    -- the hull of the two starts where the first of them does
    obtain ⟨q, hq, hcan, hqe, hint⟩ :=
      combine_hull hlast.canonical hr.canonical hlast.nonempty
    have hlo : q.toInterval.lo = last.toInterval.lo := by
      rw [hint]
      exact if_pos horder
    have hmerge : merge kind last r = .ok q := by
      unfold merge
      rw [hlast.nonempty, hr.nonempty]
      exact hq
    have hback : ¬ r.toInterval.Gap last.toInterval := fun hback =>
      Interval.not_before_of_loLe hr.proper horder (Interval.before_iff.mpr (.inl hback))
    refine ⟨q :: rest, ?_, ⟨?_, ?_⟩, ?_, ?_⟩
    · simp only [mergeStep]
      rw [if_pos (hjoined.mpr hgap), hmerge]
      rfl
    · exact forall_mem_cons.mpr ⟨⟨hcan, hqe⟩, (forall_mem_cons.mp h.members).2⟩
    · refine pairwise_cons.mpr ⟨fun p hp => (hgaps p hp).mono ?_, hrest⟩
      rw [hlo]
      exact (Interval.loLe_total _ _).elim id id
    · rw [pointsOf_cons, pointsOf_cons, points_eq hqe, hint,
        Interval.points_hull hlast.proper hr.proper hgap hback, hlast.points, hr.points,
        Set.union_right_comm]
    intro s hs p hp
    obtain rfl : q = p := by simpa using hp
    rw [StartsBefore, hlo]
    exact Interval.loLe_trans horder hs

/-- **The loop over the sorted members.** Induction on the members to come. -/
theorem mergeNeighbours_spec (h : Merged kind out) (hl : ∀ q ∈ l, Member kind q)
    (hsorted : l.Pairwise StartsBefore) (hfirst : ∀ q ∈ l, ∀ p ∈ out.head?, StartsBefore p q) :
    ∃ m, mergeNeighbours kind out l = .ok m ∧ CanonicalMultirange kind m ∧
      pointsOf m = pointsOf out ∪ pointsOf l := by
  induction l generalizing out with
  | nil =>
    refine ⟨out.reverse, rfl, h.reverse, ?_⟩
    rw [pointsOf_nil, Set.union_empty, pointsOf_congr fun p => mem_reverse]
  | cons r l ih =>
    obtain ⟨hr, hrest⟩ := pairwise_cons.mp hsorted
    obtain ⟨next, hstep, hnext, hpts, hlater⟩ :=
      mergeStep_spec h (hl r mem_cons_self) (hfirst r mem_cons_self)
    obtain ⟨m, hm, hcan, hall⟩ := ih hnext (forall_mem_cons.mp hl).2 hrest
      fun q hq => hlater q (hr q hq)
    refine ⟨m, ?_, hcan, ?_⟩
    · simp only [mergeNeighbours, hstep]
      exact hm
    · rw [hall, hpts, pointsOf_cons, Set.union_assoc]

/-- **Canonicalization of members.** -/
theorem canonicalizeMultirange_spec (hl : ∀ q ∈ l, Member kind q) :
    ∃ m, canonicalizeMultirange kind l = .ok m ∧ CanonicalMultirange kind m ∧
      pointsOf m = pointsOf l := by
  obtain ⟨m, hm, hcan, hpts⟩ := mergeNeighbours_spec (⟨nofun, .nil⟩ : Merged kind [])
    (fun q hq => hl q ((mem_insertionSort _).mp hq)) (pairwise_insertionSort hl)
      fun _ _ _ h => nomatch h
  refine ⟨m, hm, hcan, ?_⟩
  rw [hpts, pointsOf_nil, Set.empty_union]
  exact pointsOf_congr fun p => mem_insertionSort _

/-- A canonical multirange is read back as it is. -/
lemma parseMultirange_self (h : CanonicalMultirange kind m) : parseMultirange kind m = .ok m := by
  have hmap : ∀ {l : List Parsed}, (∀ p ∈ l, Member kind p) → l.mapM (canonical kind) = .ok l := by
    intro l hl
    induction l with
    | nil => rfl
    | cons p l ih =>
      rw [mapM_cons, canonical_self (hl p mem_cons_self).canonical, ih (forall_mem_cons.mp hl).2]
      rfl
  have hfilter : m.filter (fun c => !c.empty) = m :=
    filter_eq_self.mpr fun p hp => by rw [(h.members p hp).nonempty]; rfl
  obtain ⟨out, hout, hcan, hpts⟩ := canonicalizeMultirange_spec h.members
  unfold parseMultirange
  rw [hmap h.members]
  change canonicalizeMultirange kind (m.filter fun c => !c.empty) = .ok m
  rw [hfilter, hout, hcan.ext h hpts]

/-! ## The sweep over two multiranges -/

/-- A range that ends no later than the first member misses the others. -/
lemma CanonicalMultirange.disjoint_rest (h : CanonicalMultirange kind (q :: m)) (hp : Member kind p)
    (hhi : Interval.hiLe p.toInterval.hi q.toInterval.hi) : Disjoint p.points (pointsOf m) := by
  rw [hp.points, pointsOf_eq h.tail.members]
  exact h.separated.disjoint_rest hhi

/-- What is left of the first member is left of all. -/
lemma CanonicalMultirange.disjoint_of_left (h : CanonicalMultirange kind (q :: m))
    (hp : Member kind p) (hleft : strictlyLeft p q) : Disjoint p.points (pointsOf (q :: m)) := by
  have hq := h.members q mem_cons_self
  have hbefore := (strictlyLeft_iff hp.canonical.upper hq.canonical.lower).mp hleft
  rw [pointsOf_cons, Set.disjoint_union_right]
  refine ⟨?_, h.disjoint_rest hp (hbefore.hiLe hq.proper)⟩
  rw [hp.points, hq.points]
  exact hbefore.disjoint

/-- **What the sweep collects.** Induction on the number of members left. -/
theorem sweep_spec (ha : CanonicalMultirange kind a) (hb : CanonicalMultirange kind b) :
    ∃ out, sweep kind a b = .ok out ∧ (∀ p ∈ out, Member kind p) ∧
      pointsOf out = pointsOf a ∩ pointsOf b ∧
      (multirangeOverlaps a b ↔ (pointsOf a ∩ pointsOf b).Nonempty) := by
  induction hn : a.length + b.length using Nat.strong_induction_on generalizing a b with
  | _ n ih =>
  rcases a with _ | ⟨p, as⟩
  · rw [pointsOf_nil, Set.empty_inter]
    exact ⟨[], by rw [sweep], nofun, pointsOf_nil, by simp [multirangeOverlaps]⟩
  rcases b with _ | ⟨q, bs⟩
  · rw [pointsOf_nil, Set.inter_empty]
    exact ⟨[], by rw [sweep], nofun, pointsOf_nil, by simp [multirangeOverlaps]⟩
  have hp := ha.members p mem_cons_self
  have hq := hb.members q mem_cons_self
  rw [sweep, multirangeOverlaps]
  by_cases hpq : strictlyLeft p q = true
  · rw [if_pos hpq, if_pos hpq, pointsOf_cons p, Set.union_inter_distrib_right,
      (hb.disjoint_of_left hp hpq).inter_eq, Set.empty_union]
    exact ih _ (by simp only [length_cons] at hn ⊢; omega) ha.tail hb rfl
  by_cases hqp : strictlyLeft q p = true
  · rw [if_neg hpq, if_neg hpq, if_pos hqp, if_pos hqp, pointsOf_cons q,
      Set.inter_union_distrib_left,
      (ha.disjoint_of_left hq hqp).symm.inter_eq, Set.empty_union]
    exact ih _ (by simp only [length_cons] at hn ⊢; omega) ha hb.tail rfl
  rw [if_neg hpq, if_neg hpq, if_neg hqp, if_neg hqp]
  -- the two first members overlap, and the one that ends first is done with
  have hover : overlaps p q := by simp [overlaps, hp.nonempty, hq.nonempty, hpq, hqp]
  have halgebra := hp.setAlgebra hq
  have hshared := halgebra.overlap.mp hover
  obtain ⟨r, hr, hcan, hpts⟩ := halgebra.intersection
  have hre : r.empty = false := by
    by_contra hre
    rw [← hpts, points_empty (by simpa using hre)] at hshared
    exact Set.not_nonempty_empty hshared
  have hnonempty : (pointsOf (p :: as) ∩ pointsOf (q :: bs)).Nonempty := by
    rw [pointsOf_cons, pointsOf_cons]
    exact hshared.mono (Set.inter_subset_inter Set.subset_union_left Set.subset_union_left)
  have hfin : ∀ {rest : Except SqlError (List Parsed)} {as' bs' : List Parsed},
      (∃ out, rest = .ok out ∧ (∀ p ∈ out, Member kind p) ∧ pointsOf out =
        pointsOf as' ∩ pointsOf bs' ∧
          (multirangeOverlaps as' bs' ↔ (pointsOf as' ∩ pointsOf bs').Nonempty)) →
      (p.points ∩ q.points ∪ pointsOf as' ∩ pointsOf bs' =
        pointsOf (p :: as) ∩ pointsOf (q :: bs)) →
      ∃ out, (do let s ← intersect kind p q; let others ← rest; return s :: others) = .ok out ∧
        (∀ p ∈ out, Member kind p) ∧ pointsOf out = pointsOf (p :: as) ∩ pointsOf (q :: bs) ∧
          (true ↔ (pointsOf (p :: as) ∩ pointsOf (q :: bs)).Nonempty) := by
    rintro rest as' bs' ⟨out, rfl, hout, hall, -⟩ hsplit
    refine ⟨r :: out, by rw [hr]; rfl, forall_mem_cons.mpr ⟨⟨hcan, hre⟩, hout⟩, ?_, ?_⟩
    · rw [pointsOf_cons, hpts, hall, hsplit]
    · exact iff_of_true rfl hnonempty
  have hends := cmpBound_upper hp.canonical.upper hq.canonical.upper
  have hends' := cmpBound_upper hq.canonical.upper hp.canonical.upper
  rw [cmpBound_swap] at hends'
  have htotal := Interval.hiLe_total p.toInterval.hi q.toInterval.hi
  cases hc : cmpBound p.upper p.upperInc q.upper q.upperInc false with
  | lt =>
    have hmiss := hb.disjoint_rest hp (htotal.resolve_right (hends.mp hc))
    refine hfin (ih _ ?_ ha.tail hb rfl) ?_
    · simp only [length_cons] at hn ⊢
      omega
    · rw [pointsOf_cons p, pointsOf_cons q, Set.union_inter_distrib_right,
        Set.inter_union_distrib_left p.points, hmiss.inter_eq, Set.union_empty]
  | gt =>
    rw [hc] at hends'
    have hmiss := ha.disjoint_rest hq (htotal.resolve_left (hends'.mp rfl))
    refine hfin (ih _ ?_ ha hb.tail rfl) ?_
    · simp only [length_cons] at hn ⊢
      omega
    · rw [pointsOf_cons p, pointsOf_cons q, Set.inter_union_distrib_left,
        Set.union_inter_distrib_right p.points (pointsOf as) q.points, hmiss.symm.inter_eq,
        Set.union_empty]
  | eq =>
    rw [hc] at hends hends'
    have hle : Interval.hiLe p.toInterval.hi q.toInterval.hi := by
      by_contra hnot
      exact absurd (hends'.mpr hnot) (by decide)
    have hge : Interval.hiLe q.toInterval.hi p.toInterval.hi := by
      by_contra hnot
      exact absurd (hends.mpr hnot) (by decide)
    refine hfin (ih _ ?_ ha.tail hb.tail rfl) ?_
    · simp only [length_cons] at hn ⊢
      omega
    rw [pointsOf_cons p, pointsOf_cons q, Set.union_inter_distrib_right,
      Set.inter_union_distrib_left p.points, Set.inter_union_distrib_left (pointsOf as),
      (hb.disjoint_rest hp hle).inter_eq, (ha.disjoint_rest hq hge).symm.inter_eq, Set.union_empty,
      Set.empty_union]

/-- **The intersection of two multiranges.** -/
theorem multirangeIntersect_spec (ha : CanonicalMultirange kind a)
    (hb : CanonicalMultirange kind b) :
    ∃ m, multirangeIntersect kind a b = .ok m ∧ CanonicalMultirange kind m ∧
      pointsOf m = pointsOf a ∩ pointsOf b := by
  obtain ⟨out, hout, hmembers, hpts, -⟩ := sweep_spec ha hb
  obtain ⟨m, hm, hcan, hall⟩ := canonicalizeMultirange_spec hmembers
  refine ⟨m, ?_, hcan, hall.trans hpts⟩
  unfold multirangeIntersect
  rw [hout]
  exact hm

/-! ## Removing members -/

/-- A member that is removed from a piece reaches past its bounds. -/
def Protrudes (p q : Parsed) : Prop :=
  (∃ l m, p.lower = some l ∧ q.lower = some m ∧ m < l) ∨
    ∃ u v, p.upper = some u ∧ q.upper = some v ∧ u < v

/-- A remnant, when there is one. -/
def kept (present : Bool) (p : Parsed) : List Parsed :=
  if present && !noRoom p.lower p.lowerInc p.upper p.upperInc then [p] else []

/-- What is left of a piece. -/
def remnants (p q : Parsed) : List Parsed :=
  kept q.lower.isSome (leftRemnant p q) ++ kept q.upper.isSome (rightRemnant p q)

/-- A remnant that is kept. -/
lemma mem_kept :
    r ∈ kept present p ↔
      present ∧ noRoom p.lower p.lowerInc p.upper p.upperInc = false ∧ r = p := by
  unfold kept
  by_cases h : (present && !noRoom p.lower p.lowerInc p.upper p.upperInc) = true
  · simp_all
  · rw [if_neg h]
    simp_all

/-- An ordered remnant is made. -/
lemma remnant_ok (hp : p.empty = false)
    (hform : present → LowerForm kind p.lower p.lowerInc ∧ UpperForm kind p.upper p.upperInc)
    (hordered : ¬ p.Reversed) :
    remnant kind present p = .ok (kept present p) := by
  cases present with
  | false => rfl
  | true =>
    obtain ⟨hl, hu⟩ := hform rfl
    unfold remnant
    rw [if_pos rfl, canonical_steps kind hp hordered, canonicalLower_self hl,
      canonicalUpper_self hu]
    simp only [Except.bind, kept, Bool.true_and]
    cases noRoom p.lower p.lowerInc p.upper p.upperInc with
    | true => rfl
    | false =>
      simp only [Bool.false_eq_true, if_false, Except.map, ofBounds, Bool.not_false, if_true]
      rw [← hp]

/-- A reversed one is refused. -/
lemma remnant_reversed (hp : p.empty = false) (h : p.Reversed) :
    remnant kind true p = .error reversedBounds := by
  unfold remnant
  rw [canonical_reversed kind hp h]
  rfl

/-- The left remnant has the form of a member. -/
lemma leftRemnant_forms (hp : Member kind p) (hq : Member kind q) (h : q.lower.isSome) :
    (LowerForm kind (leftRemnant p q).lower (leftRemnant p q).lowerInc ∧
      UpperForm kind (leftRemnant p q).upper (leftRemnant p q).upperInc) ∧
      (leftRemnant p q).toInterval = ⟨p.toInterval.lo, q.toInterval.lo⟩ := by
  have hform := hq.canonical.lower
  obtain ⟨m, hm⟩ := isSome_iff_exists.mp h
  rw [hm] at hform
  refine ⟨⟨hp.canonical.lower, ?_⟩, ?_⟩
  · simp only [leftRemnant, hm]
    exact hform.flip.1
  · simp [leftRemnant, ofBounds, toInterval, hm, hform.flip.2]

/-- So has the right one. -/
lemma rightRemnant_forms (hp : Member kind p) (hq : Member kind q) (h : q.upper.isSome) :
    (LowerForm kind (rightRemnant p q).lower (rightRemnant p q).lowerInc ∧
      UpperForm kind (rightRemnant p q).upper (rightRemnant p q).upperInc) ∧
      (rightRemnant p q).toInterval = ⟨q.toInterval.hi, p.toInterval.hi⟩ := by
  have hform := hq.canonical.upper
  obtain ⟨v, hv⟩ := isSome_iff_exists.mp h
  rw [hv] at hform
  refine ⟨⟨?_, hp.canonical.upper⟩, ?_⟩
  · simp only [rightRemnant, hv]
    exact hform.flip.1
  · simp [rightRemnant, ofBounds, toInterval, hv, hform.flip.2]

/-- **One member out of one piece**: the two remnants, or an error when it reaches past the
piece. -/
theorem rangeMinus_eq (hp : Member kind p) (hq : Member kind q) :
    (¬ Protrudes p q → rangeMinus kind p q = .ok (remnants p q)) ∧
      (Protrudes p q → rangeMinus kind p q = .error reversedBounds) := by
  have hleft := @remnant_ok kind (leftRemnant p q) q.lower.isSome rfl
    fun h => (leftRemnant_forms hp hq h).1
  have hright := @remnant_ok kind (rightRemnant p q) q.upper.isSome rfl
    fun h => (rightRemnant_forms hp hq h).1
  unfold rangeMinus
  constructor
  · intro h
    obtain ⟨hlower, hupper⟩ := not_or.mp h
    rw [hleft fun ⟨l, m, hl, hm, hlt⟩ => hlower ⟨l, m, hl, hm, hlt⟩,
      hright fun ⟨v, u, hv, hu, hlt⟩ => hupper ⟨u, v, hu, hv, hlt⟩]
    rfl
  intro h
  by_cases hreversed : (leftRemnant p q).Reversed
  · obtain ⟨l, m, hl, hm, hlt⟩ := hreversed
    rw [show q.lower = some m from hm, isSome_some, remnant_reversed rfl ⟨l, m, hl, hm, hlt⟩]
    rfl
  rw [hleft hreversed]
  rcases h with ⟨l, m, hl, hm, hlt⟩ | ⟨u, v, hu, hv, hlt⟩
  · exact absurd ⟨l, m, hl, hm, hlt⟩ hreversed
  · rw [hv, isSome_some, @remnant_reversed kind (rightRemnant p q) rfl ⟨v, u, hv, hu, hlt⟩]
    rfl

/-- The points of a remnant. -/
lemma mem_pointsOf_kept {x : ℤ} (hp : p.empty = false)
    (hform : present → LowerForm kind p.lower p.lowerInc ∧ UpperForm kind p.upper p.upperInc) :
    x ∈ pointsOf (kept present p) ↔ present ∧ x ∈ p.toInterval.points := by
  constructor
  · rintro ⟨r, hr, hx⟩
    obtain ⟨hpres, -, rfl⟩ := mem_kept.mp hr
    exact ⟨hpres, (mem_points_iff hp x).mp hx⟩
  rintro ⟨hpres, hx⟩
  obtain ⟨hl, hu⟩ := hform hpres
  have hroom := (noRoom_iff hl hu).mpr (Interval.proper_iff.mpr ⟨x, hx⟩)
  exact ⟨p, mem_kept.mpr ⟨hpres, hroom, rfl⟩, (mem_points_iff hp x).mpr hx⟩

/-- Remnants are members. -/
lemma member_of_mem_remnants (hp : Member kind p) (hq : Member kind q) (hr : r ∈ remnants p q) :
    Member kind r := by
  rcases mem_append.mp hr with hr | hr
  · obtain ⟨hpres, hroom, rfl⟩ := mem_kept.mp hr
    obtain ⟨⟨hl, hu⟩, -⟩ := leftRemnant_forms hp hq hpres
    exact ⟨canonical_ofBounds hl hu ((noRoom_iff hl hu).mp hroom), rfl⟩
  · obtain ⟨hpres, hroom, rfl⟩ := mem_kept.mp hr
    obtain ⟨⟨hl, hu⟩, -⟩ := rightRemnant_forms hp hq hpres
    exact ⟨canonical_ofBounds hl hu ((noRoom_iff hl hu).mp hroom), rfl⟩

/-- They are what the removal leaves. -/
lemma pointsOf_remnants (hp : Member kind p) (hq : Member kind q) (h : overlaps p q) :
    pointsOf (remnants p q) = p.points \ q.points := by
  obtain ⟨hpq, hqp⟩ := (hp.overlaps_iff hq).mp h
  ext x
  rw [hp.points, hq.points, Interval.mem_diff_iff hpq hqp, remnants, pointsOf_append, Set.mem_union,
    mem_pointsOf_kept rfl fun h => (leftRemnant_forms hp hq h).1,
    mem_pointsOf_kept rfl fun h => (rightRemnant_forms hp hq h).1]
  refine or_congr ?_ ?_
  · cases hm : q.lower with
    | none => simp [toInterval, hm]
    | some m =>
      rw [(leftRemnant_forms hp hq (by rw [hm]; rfl)).2]
      simp [toInterval, hm]
  cases hv : q.upper with
  | none => simp [toInterval, hv]
  | some v =>
    rw [(rightRemnant_forms hp hq (by rw [hv]; rfl)).2]
    simp [toInterval, hv]

/-- What one removal leaves of a piece. -/
def after (q p : Parsed) : List Parsed := if overlaps p q then remnants p q else [p]

/-- No member to be removed reaches past a piece that it overlaps. -/
def Safe (pieces bs : List Parsed) : Prop :=
  ∀ p ∈ pieces, ∀ q ∈ bs, overlaps p q = true → ¬ Protrudes p q

/-- A safe removal succeeds. -/
lemma subtract_of_safe (hq : Member kind q) (ha : ∀ p ∈ a, Member kind p) (h : Safe a [q]) :
    subtract kind q a = .ok (a.flatMap (after q)) := by
  induction a with
  | nil => rfl
  | cons p a ih =>
    have hfirst : subtractFrom kind q p = .ok (after q p) := by
      unfold subtractFrom after
      by_cases hover : overlaps p q = true
      · rw [if_pos hover, if_pos hover]
        exact (rangeMinus_eq (ha p mem_cons_self) hq).1 (h p mem_cons_self q mem_cons_self hover)
      · rw [if_neg hover, if_neg hover]
    rw [subtract, hfirst, ih (forall_mem_cons.mp ha).2 (forall_mem_cons.mp h).2]
    rfl

/-- Only a safe one does. -/
lemma safe_of_subtract (hq : Member kind q) (ha : ∀ p ∈ a, Member kind p)
    (h : subtract kind q a = .ok l) : Safe a [q] := by
  induction a generalizing l with
  | nil => nofun
  | cons p a ih =>
    rw [subtract] at h
    rcases hfirst : subtractFrom kind q p with e | parts
    · rw [hfirst] at h
      cases h
    rcases hrest : subtract kind q a with e | others
    · rw [hfirst, hrest] at h
      cases h
    intro r hr s hs hover hprotrudes
    obtain rfl := mem_singleton.mp hs
    rcases mem_cons.mp hr with rfl | hr
    · rw [subtractFrom, if_pos hover, (rangeMinus_eq (ha r mem_cons_self) hq).2 hprotrudes]
        at hfirst
      cases hfirst
    · exact ih (forall_mem_cons.mp ha).2 hrest r hr s hs hover hprotrudes

/-- The points that a removal leaves. -/
lemma pointsOf_after (hq : Member kind q) (ha : ∀ p ∈ a, Member kind p) :
    pointsOf (a.flatMap (after q)) = pointsOf a \ q.points := by
  induction a with
  | nil => rw [flatMap_nil, pointsOf_nil, Set.empty_sdiff]
  | cons p a ih =>
    have hp := ha p mem_cons_self
    rw [flatMap_cons, pointsOf_append, pointsOf_cons, Set.union_sdiff_distrib,
      ih (forall_mem_cons.mp ha).2]
    congr 1
    unfold after
    by_cases hover : overlaps p q = true
    · rw [if_pos hover, pointsOf_remnants hp hq hover]
    rw [if_neg hover, pointsOf_cons, pointsOf_nil, Set.union_empty]
    rw [(hp.setAlgebra hq).overlap, Set.not_nonempty_iff_eq_empty,
      ← Set.disjoint_iff_inter_eq_empty] at hover
    exact hover.sdiff_eq_left.symm

/-- What a removal leaves are members. -/
lemma member_after (hq : Member kind q) (ha : ∀ p ∈ a, Member kind p) :
    ∀ r ∈ a.flatMap (after q), Member kind r := by
  intro r hr
  obtain ⟨p, hp, hr⟩ := mem_flatMap.mp hr
  unfold after at hr
  by_cases hover : overlaps p q = true
  · rw [if_pos hover] at hr
    exact member_of_mem_remnants (ha p hp) hq hr
  · rw [if_neg hover, mem_singleton] at hr
    exact hr ▸ ha p hp

/-- **A later member meets a piece as it meets what is left of it.** The left remnant is before the
gap, and the right one starts at the end of the member removed and ends with the piece. -/
theorem safe_after_iff {s : Parsed} (hp : Member kind p) (hq : Member kind q) (hs : Member kind s)
    (hgap : q.toInterval.Gap s.toInterval) : Safe (after q p) [s] ↔ Safe [p] [s] := by
  unfold after
  by_cases hover : overlaps p q = true
  swap
  · rw [if_neg hover]
  rw [if_pos hover]
  obtain ⟨-, hqp⟩ := (hp.overlaps_iff hq).mp hover
  have hpres : q.upper.isSome := by
    cases hv : q.upper with
    | none => simp [Interval.Gap, toInterval, hv] at hgap
    | some v => rfl
  obtain ⟨⟨hl, hu⟩, hint⟩ := rightRemnant_forms hp hq hpres
  -- a piece that starts before the later member is passed at its end only
  have hends : ∀ r : Parsed, LowerForm kind r.lower r.lowerInc → StartsBefore r s →
      (Protrudes r s ↔ ∃ u w, r.upper = some u ∧ s.upper = some w ∧ u < w) := by
    intro r hr hstarts
    refine ⟨fun h => h.resolve_left ?_, .inr⟩
    rintro ⟨l, m, hl, hm, hlt⟩
    have hform := hs.canonical.lower
    rw [hm] at hform
    rw [hl] at hr
    have hbelow := start_lt_start hform hr hlt
    simp only [StartsBefore, toInterval, hl, hm, map_some, Interval.loLe] at hstarts
    omega
  have hstarts : StartsBefore p s := hgap.loLe hqp
  have hstarts' : StartsBefore (rightRemnant p q) s := by
    rw [StartsBefore, hint]
    exact hgap.hi_loLe
  have hps := hp.overlaps_iff hs
  constructor
  · intro h r hr t ht hmeets
    obtain rfl := mem_singleton.mp hr
    obtain rfl := mem_singleton.mp ht
    obtain ⟨hprop, hbefore, hafter⟩ := hgap.above hs.proper (hps.mp hmeets).1
    have hmem : rightRemnant r q ∈ remnants r q := mem_append_right _
      (mem_kept.mpr ⟨hpres, (noRoom_iff hl hu).mpr (hint ▸ hprop), rfl⟩)
    have hright := member_of_mem_remnants hp hq hmem
    have hremnant : overlaps (rightRemnant r q) t := by
      rw [hright.overlaps_iff hs, hint]
      exact ⟨hbefore, hafter⟩
    rw [hends r hp.canonical.lower hstarts]
    exact (hends _ hl hstarts').not.mp (h _ hmem t ht hremnant)
  intro h r hr t ht hmeets
  obtain rfl := mem_singleton.mp ht
  have hmember := member_of_mem_remnants hp hq hr
  obtain ⟨hbefore, -⟩ :=
    (hmember.overlaps_iff hs).mp hmeets
  rcases mem_append.mp hr with hr | hr
  · obtain ⟨hleft, -, rfl⟩ := mem_kept.mp hr
    rw [(leftRemnant_forms hp hq hleft).2] at hbefore
    obtain ⟨m, hm⟩ := isSome_iff_exists.mp hleft
    have hlo : q.toInterval.lo = some (start m q.lowerInc) := by simp [toInterval, hm]
    rw [hlo] at hbefore
    exact absurd (hgap.before_below hq.proper hlo) hbefore
  · obtain ⟨-, -, rfl⟩ := mem_kept.mp hr
    rw [hint] at hbefore
    rw [hends _ hl hstarts']
    refine (hends p hp.canonical.lower hstarts).not.mp (h p mem_cons_self t ht (hps.mpr ?_))
    exact ⟨hbefore, Interval.not_before_of_loLe hs.proper hstarts⟩

/-- A removal does not change what is safe later. -/
lemma safe_flatMap_iff (hq : Member kind q) (ha : ∀ p ∈ a, Member kind p)
    (hb : ∀ s ∈ b, Member kind s ∧ q.toInterval.Gap s.toInterval) :
    Safe (a.flatMap (after q)) b ↔ Safe a b := by
  constructor
  · intro h p hp s hs
    refine (safe_after_iff (ha p hp) hq (hb s hs).1 (hb s hs).2).mp (fun r hr t ht => ?_) p
      mem_cons_self s mem_cons_self
    rw [mem_singleton.mp ht]
    exact h r (mem_flatMap.mpr ⟨p, hp, hr⟩) s hs
  intro h r hr s hs
  obtain ⟨p, hp, hr⟩ := mem_flatMap.mp hr
  refine (safe_after_iff (ha p hp) hq (hb s hs).1 (hb s hs).2).mpr (fun p' hp' t ht => ?_) r hr s
    mem_cons_self
  rw [mem_singleton.mp ht, mem_singleton.mp hp']
  exact h p hp s hs

/-- **The removal of all members**, one after the other: it succeeds exactly when none reaches past
a piece it overlaps. Induction on the members to be removed, over any pieces. -/
theorem subtractAll_spec (ha : ∀ p ∈ a, Member kind p) (hb : CanonicalMultirange kind b) :
    (Safe a b → ∃ out, subtractAll kind a b = .ok out ∧ (∀ p ∈ out, Member kind p) ∧
      pointsOf out = pointsOf a \ pointsOf b) ∧
      ∀ out, subtractAll kind a b = .ok out → Safe a b := by
  induction b generalizing a with
  | nil =>
    refine ⟨fun _ => ⟨a, rfl, ha, ?_⟩, fun _ _ _ _ _ h => nomatch h⟩
    rw [pointsOf_nil, Set.sdiff_empty]
  | cons q b ih =>
    have hq := hb.members q mem_cons_self
    have hlater : ∀ s ∈ b, Member kind s ∧ q.toInterval.Gap s.toInterval := fun s hs =>
      have hmember := hb.tail.members s hs
      ⟨hmember, (apart_iff hq hmember).mp ((pairwise_cons.mp hb.apart).1 s hs)⟩
    obtain ⟨hforward, hback⟩ := ih (member_after hq ha) hb.tail
    rw [safe_flatMap_iff hq ha hlater] at hforward hback
    constructor
    · intro hsafe
      obtain ⟨out, hout, hmembers, hpts⟩ :=
        hforward fun p hp s hs => hsafe p hp s (mem_cons_of_mem _ hs)
      have hstage : Safe a [q] := fun p hp s hs =>
        hsafe p hp s (mem_singleton.mp hs ▸ mem_cons_self)
      refine ⟨out, ?_, hmembers, ?_⟩
      · rw [subtractAll, subtract_of_safe hq ha hstage]
        exact hout
      · rw [hpts, pointsOf_after hq ha, pointsOf_cons, Set.sdiff_sdiff]
    intro out hout
    rw [subtractAll] at hout
    rcases hnext : subtract kind q a with e | next
    · rw [hnext] at hout
      cases hout
    have hstage := safe_of_subtract hq ha hnext
    rw [subtract_of_safe hq ha hstage] at hout
    have hrest := hback out hout
    intro p hp s hs
    rcases mem_cons.mp hs with rfl | hs
    · exact hstage p hp s mem_cons_self
    · exact hrest p hp s hs

/-! ## The algebra of multiranges -/

/-- **The operations are those of sets of integers**, with canonical results; the difference
apart. -/
structure MultirangeSetOperations (kind : RangeKind) (a b : List Parsed) : Prop where
  element : ∀ x, multirangeContainsElem a x = true ↔ x ∈ pointsOf a
  contains : ∃ c, multirangeContainsMultirange kind a b = .ok c ∧
    (c = true ↔ pointsOf b ⊆ pointsOf a)
  overlap : multirangeOverlaps a b = true ↔ (pointsOf a ∩ pointsOf b).Nonempty
  union : ∃ m, multirangeUnion kind a b = .ok m ∧ CanonicalMultirange kind m ∧
    pointsOf m = pointsOf a ∪ pointsOf b
  intersection : ∃ m, multirangeIntersect kind a b = .ok m ∧ CanonicalMultirange kind m ∧
    pointsOf m = pointsOf a ∩ pointsOf b

/-- **All operations are those of sets of integers**, the difference included. -/
structure MultirangeAlgebra (kind : RangeKind) (a b : List Parsed) :
    Prop extends MultirangeSetOperations kind a b where
  difference : ∃ m, multirangeDifference kind a b = .ok m ∧ CanonicalMultirange kind m ∧
    pointsOf m = pointsOf a \ pointsOf b

/-- One multirange contains another exactly when the intersection is the other. -/
lemma multirangeContains_spec (ha : CanonicalMultirange kind a) (hb : CanonicalMultirange kind b) :
    ∃ c, multirangeContainsMultirange kind a b = .ok c ∧ (c ↔ pointsOf b ⊆ pointsOf a) := by
  obtain ⟨m, hm, hcan, hpts⟩ := multirangeIntersect_spec ha hb
  refine ⟨m == b, ?_, ?_⟩
  · unfold multirangeContainsMultirange
    rw [hm, parseMultirange_self hb]
    rfl
  · rw [beq_iff_eq, ← Set.inter_eq_right, ← hpts]
    exact ⟨fun h => by rw [h], hcan.ext hb⟩

/-- Every operation but the difference is that of the sets, for all canonical multiranges. -/
lemma multirange_setOperations (ha : CanonicalMultirange kind a) (hb : CanonicalMultirange kind b) :
    MultirangeSetOperations kind a b := by
  refine ⟨fun x => ?_, multirangeContains_spec ha hb, ?_, ?_, multirangeIntersect_spec ha hb⟩
  · simp [multirangeContainsElem, pointsOf, containsElem_iff]
  · obtain ⟨-, -, -, -, hoverlap⟩ := sweep_spec ha hb
    exact hoverlap
  · rw [← pointsOf_append]
    refine canonicalizeMultirange_spec fun p hp => ?_
    exact (mem_append.mp hp).elim (ha.members p) (hb.members p)

/-- **When multiranges are sets of integers.** Membership, containment, overlap, union and
intersection are always those of the sets, with canonical results. The difference is too exactly
when no member of the second reaches past a member of the first that it overlaps; otherwise it is
refused. -/
theorem multirange_algebra_iff (ha : CanonicalMultirange kind a) (hb : CanonicalMultirange kind b) :
    MultirangeSetOperations kind a b ∧
      (MultirangeAlgebra kind a b ↔
        ∀ p ∈ a, ∀ q ∈ b, overlaps p q = true → ¬ Protrudes p q) := by
  obtain ⟨hforward, hback⟩ := subtractAll_spec ha.members hb
  refine ⟨multirange_setOperations ha hb, fun h => ?_, fun hsafe => ?_⟩
  · obtain ⟨m, hm, -⟩ := h.difference
    unfold multirangeDifference at hm
    rcases hout : subtractAll kind a b with e | out
    · rw [hout] at hm
      cases hm
    · exact hback out hout
  obtain ⟨out, hout, hmembers, hpts⟩ := hforward hsafe
  obtain ⟨m, hm, hcan, hall⟩ := canonicalizeMultirange_spec hmembers
  refine ⟨multirange_setOperations ha hb, m, ?_, hcan, hall.trans hpts⟩
  unfold multirangeDifference
  rw [hout]
  exact hm

end Forms

/-! ## Expressions -/

/-- Unions and intersections of canonical multiranges, nested in any way. -/
inductive MultirangeExpr (kind : RangeKind)
  | value (m : List Parsed) (h : CanonicalMultirange kind m)
  | union (a b : MultirangeExpr kind)
  | intersect (a b : MultirangeExpr kind)

namespace MultirangeExpr

variable {kind : RangeKind}

/-- The evaluation, which stops at the first error. Source: `multirange_union`,
`multirange_intersect`. -/
def eval : MultirangeExpr kind → Except SqlError (List Parsed)
  | value m _ => .ok m
  | union a b => do multirangeUnion kind (← a.eval) (← b.eval)
  | intersect a b => do multirangeIntersect kind (← a.eval) (← b.eval)

/-- The integers an expression stands for. -/
def points : MultirangeExpr kind → Set ℤ
  | value m _ => pointsOf m
  | union a b => a.points ∪ b.points
  | intersect a b => a.points ∩ b.points

/-- The value of an expression. Induction on it. -/
lemma eval_spec (e : MultirangeExpr kind) :
    ∃ m, e.eval = .ok m ∧ CanonicalMultirange kind m ∧ pointsOf m = e.points := by
  induction e with
  | value m h => exact ⟨m, rfl, h, rfl⟩
  | union a b iha ihb =>
    obtain ⟨m, hm, hmcan, hmpts⟩ := iha
    obtain ⟨n, hn, hncan, hnpts⟩ := ihb
    obtain ⟨r, hr, hcan, hpts⟩ :=
      canonicalizeMultirange_spec (forall_mem_append.mpr ⟨hmcan.members, hncan.members⟩)
    rw [eval, hm, hn, points, ← hmpts, ← hnpts, ← pointsOf_append]
    exact ⟨r, hr, hcan, hpts⟩
  | intersect a b iha ihb =>
    obtain ⟨m, hm, hmcan, hmpts⟩ := iha
    obtain ⟨n, hn, hncan, hnpts⟩ := ihb
    rw [eval, hm, hn, points, ← hmpts, ← hnpts]
    exact multirangeIntersect_spec hmcan hncan

/-- **The laws of sets are laws of multiranges**: an expression never fails, and two return the same
multirange exactly when they stand for the same integers. -/
theorem eval_eq_iff_points_eq (e f : MultirangeExpr kind) :
    (∃ m, e.eval = .ok m) ∧ (e.eval = f.eval ↔ e.points = f.points) := by
  obtain ⟨m, hm, hmcan, hmpts⟩ := e.eval_spec
  obtain ⟨n, hn, hncan, hnpts⟩ := f.eval_spec
  refine ⟨⟨m, hm⟩, ?_⟩
  rw [hm, hn, ← hmpts, ← hnpts, Except.ok.injEq]
  exact ⟨congrArg pointsOf, hmcan.ext hncan⟩

end MultirangeExpr

/-- An `int4` range with both bounds. -/
def int4Range (l u : ℤ) : Parsed := ofBounds (some l) true (some u) false

/-- A single `int4` range. -/
lemma canonicalMultirange_int4Range {l u : ℤ} (h : -2147483648 ≤ l ∧ l < u ∧ u ≤ 2147483647) :
    CanonicalMultirange .int4 [int4Range l u] := by
  refine ⟨fun p hp => ?_, pairwise_singleton _ _⟩
  obtain rfl := mem_singleton.mp hp
  have hlower : LowerForm .int4 (some l) true := ⟨⟨h.1, by omega⟩, .inl rfl⟩
  have hupper : UpperForm .int4 (some u) false := ⟨⟨by omega, h.2.2⟩, .inl rfl⟩
  exact ⟨canonical_ofBounds hlower hupper h.2.1, rfl⟩

/-- Two `int4` ranges with a gap between them. -/
lemma canonicalMultirange_int4Range_pair {l u m n : ℤ} (h : -2147483648 ≤ l ∧ l < u ∧ u < m)
    (h' : m < n ∧ n ≤ 2147483647) :
    CanonicalMultirange .int4 [int4Range l u, int4Range m n] := by
  have hfirst :=
    (canonicalMultirange_int4Range (l := l) (u := u) (by omega)).members _ mem_cons_self
  have hlast := (canonicalMultirange_int4Range (l := m) (u := n) (by omega)).members _ mem_cons_self
  refine ⟨forall_mem_cons.mpr ⟨hfirst, forall_mem_cons.mpr ⟨hlast, nofun⟩⟩, pairwise_pair.mpr ?_⟩
  refine (apart_iff hfirst hlast).mpr ?_
  simpa [Interval.Gap, toInterval, int4Range, ofBounds, start, stop] using h.2.2

/-- **A removal that reaches past the member fails**: the numbers from 3 to 6 cannot be removed from
those from 5 to 9. -/
theorem multirange_difference_fails :
    CanonicalMultirange .int4 [int4Range 5 10] ∧ CanonicalMultirange .int4 [int4Range 3 7] ∧
      multirangeDifference .int4 [int4Range 5 10] [int4Range 3 7] = .error reversedBounds :=
  ⟨canonicalMultirange_int4Range (by decide), canonicalMultirange_int4Range (by decide), rfl⟩

/-- The numbers from 1 to 9 and 20 to 29, and those from 3 to 4 and 22 to 24. -/
theorem multirange_algebra_two_members :
    MultirangeAlgebra .int4 [int4Range 1 10, int4Range 20 30] [int4Range 3 5, int4Range 22 25] := by
  refine (multirange_algebra_iff (canonicalMultirange_int4Range_pair (by decide) (by decide))
    (canonicalMultirange_int4Range_pair (by decide) (by decide))).2.mpr ?_
  simp +decide [Protrudes, int4Range, ofBounds]

end Pos3ql.Parsed
