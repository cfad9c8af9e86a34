import Pos3ql.Foundation.Intervals
import Pos3ql.SqlError

/-!
# Discrete ranges

A range value has optional bounds, each inclusive or exclusive, or is empty. The kinds over integers
and dates are brought to the form with an inclusive lower and an exclusive upper bound; only a bound
at a date's infinity, which cannot be incremented, keeps its own inclusivity.

* `RangeKind`, `Parsed`: a range with its bounds; `Parsed.points`: the integers it denotes.
* `canonical`, `containsElem`, `containsRange`, `overlaps`, `adjacent`, `intersect`, `union`,
  `merge`, `difference`: as in the source.
* `Canonical`: the form that `canonical` returns; **`canonical_sound`**, `canonical_self`.
* `toInterval`: the interval of integers of a range; `strictlyLeft_iff`, `lowerLe_iff`,
  `upperGe_iff`, `boundAdjacent_iff`, `cmpBound_lower`, `cmpBound_upper` read the comparisons of
  bounds in it.
* **`range_algebra`**: the operations are those of sets of integers.

Bounds are texts in the source and the numbers they denote here; a date is its day number, with the
two infinities at the ends of the 32-bit numbers. The kinds over numerics and timestamps, which are
not discrete, are left out. A point is any integer: a range below the least value of its type is not
the empty range, although no value of the type is in it.

Source: `sql/range.rs`.
-/

namespace Pos3ql

open Foundation Interval

/-- The discrete kinds. Source: `RangeKind`. -/
inductive RangeKind
  | int4
  | int8
  | date
  deriving DecidableEq, Repr

/-- Source: `DATE_INFINITY`. -/
abbrev dateInfinity : ℤ := 2147483647

/-- Source: `DATE_NEG_INFINITY`. -/
abbrev dateNegInfinity : ℤ := -2147483648

/-- The first day that has a text, of the year zero. Source: `parse_date`. -/
abbrev firstDate : ℤ := -730485

/-- The values of the element type. Source: `parse_int_bounded`, `parse_date`. -/
def RangeKind.Element (kind : RangeKind) (x : ℤ) : Prop :=
  match kind with
  | .int4 => -2147483648 ≤ x ∧ x ≤ 2147483647
  | .int8 => -9223372036854775808 ≤ x ∧ x ≤ 9223372036854775807
  | .date => x = dateNegInfinity ∨ firstDate ≤ x ∧ x ≤ dateInfinity

/-- Source: `Parsed`. -/
structure Parsed where
  empty : Bool
  lower : Option ℤ
  upper : Option ℤ
  lowerInc : Bool
  upperInc : Bool
  deriving DecidableEq, Repr

namespace Parsed

/-- The text `empty`. Source: `parse`. -/
def emptyRange : Parsed := ⟨true, none, none, false, false⟩

/-- Source: `mk`. -/
def ofBounds (lower : Option ℤ) (lowerInc : Bool) (upper : Option ℤ) (upperInc : Bool) : Parsed :=
  ⟨false, lower, upper, lowerInc, upperInc⟩

/-- **The integers of a range.** -/
def points (p : Parsed) : Set ℤ :=
  {x | p.empty = false ∧ (∀ v, p.lower = some v → if p.lowerInc then v ≤ x else v < x) ∧
    ∀ v, p.upper = some v → if p.upperInc then x ≤ v else x < v}

/-! ## Canonical form -/

/-- Source: `date_infinite` in `canonical`. -/
def dateInfinite (kind : RangeKind) (v : ℤ) : Bool :=
  kind == .date && (v == dateInfinity || v == dateNegInfinity)

/-- Source: `int_overflow`. -/
def intOverflow (target : String) : SqlError := ⟨.numericOutOfRange, target ++ " out of range"⟩

/-- Source: `incr_into`. -/
def incr (kind : RangeKind) (v : ℤ) : Except SqlError ℤ :=
  match kind with
  | .int4 => if v + 1 ≤ 2147483647 then .ok (v + 1) else .error (intOverflow "integer")
  | .int8 => if v + 1 ≤ 9223372036854775807 then .ok (v + 1) else .error (intOverflow "bigint")
  | .date => .ok (v + 1)

/-- Source: the error of `canonical`. -/
def reversedBounds : SqlError :=
  ⟨.dataException, "range lower bound must be less than or equal to range upper bound"⟩

/-- The lower bound in canonical form. Source: `canonical`. -/
def canonicalLower (kind : RangeKind) : Option ℤ → Bool → Except SqlError (Option ℤ × Bool)
  | none, _ => .ok (none, false)
  | some v, true => .ok (some v, true)
  | some v, false =>
    if dateInfinite kind v then .ok (some v, false)
    else (incr kind v).map fun next => (some next, true)

/-- The upper bound in canonical form. Source: `canonical`. -/
def canonicalUpper (kind : RangeKind) : Option ℤ → Bool → Except SqlError (Option ℤ × Bool)
  | none, _ => .ok (none, false)
  | some v, false => .ok (some v, false)
  | some v, true =>
    if dateInfinite kind v then .ok (some v, true)
    else (incr kind v).map fun next => (some next, false)

/-- The bounds leave nothing between them. Source: the last test of `canonical`. -/
def noRoom (lower : Option ℤ) (lowerInc : Bool) (upper : Option ℤ) (upperInc : Bool) : Bool :=
  match lower, upper with
  | some l, some h =>
    match compare l h with
    | .gt => true
    | .eq => !(lowerInc && upperInc)
    | .lt => false
  | _, _ => false

/-- Source: `canonical`. -/
def canonical (kind : RangeKind) (p : Parsed) : Except SqlError Parsed :=
  if p.empty then .ok emptyRange
  else
    let reversed : Bool := match p.lower, p.upper with
      | some l, some h => compare l h == .gt
      | _, _ => false
    if reversed then .error reversedBounds
    else do
      let (lower, lowerInc) ← canonicalLower kind p.lower p.lowerInc
      let (upper, upperInc) ← canonicalUpper kind p.upper p.upperInc
      if noRoom lower lowerInc upper upperInc then .ok emptyRange
      else .ok (ofBounds lower lowerInc upper upperInc)

/-! ## Operators -/

/-- Source: `contains_elem`. -/
def containsElem (p : Parsed) (element : ℤ) : Bool :=
  if p.empty then false
  else
    let low := match p.lower with
      | none => true
      | some v => match compare element v with
        | .lt => false
        | .eq => p.lowerInc
        | .gt => true
    let high := match p.upper with
      | none => true
      | some v => match compare element v with
        | .gt => false
        | .eq => p.upperInc
        | .lt => true
    low && high

/-- Source: `strictly_left`. -/
def strictlyLeft (a b : Parsed) : Bool :=
  match a.upper, b.lower with
  | some au, some bl => match compare au bl with
    | .lt => true
    | .eq => !(a.upperInc && b.lowerInc)
    | .gt => false
  | _, _ => false

/-- Source: `lower_le`. -/
def lowerLe (outer inner : Parsed) : Bool :=
  match outer.lower, inner.lower with
  | none, _ => true
  | some _, none => false
  | some ol, some il => match compare ol il with
    | .lt => true
    | .eq => outer.lowerInc || !inner.lowerInc
    | .gt => false

/-- Source: `upper_ge`. -/
def upperGe (outer inner : Parsed) : Bool :=
  match outer.upper, inner.upper with
  | none, _ => true
  | some _, none => false
  | some ou, some iu => match compare ou iu with
    | .gt => true
    | .eq => outer.upperInc || !inner.upperInc
    | .lt => false

/-- Source: `contains_range`. -/
def containsRange (outer inner : Parsed) : Bool :=
  if inner.empty then true
  else if outer.empty then false
  else lowerLe outer inner && upperGe outer inner

/-- Source: `overlaps`. -/
def overlaps (a b : Parsed) : Bool :=
  if a.empty || b.empty then false else !(strictlyLeft a b || strictlyLeft b a)

/-- Source: `cmp_bound`. -/
def cmpBound (aValue : Option ℤ) (aInclusive : Bool) (bValue : Option ℤ) (bInclusive : Bool)
    (lower : Bool) : Ordering :=
  match aValue, bValue with
  | none, none => .eq
  | none, some _ => if lower then .lt else .gt
  | some _, none => if lower then .gt else .lt
  | some x, some y => match compare x y with
    | .eq => match aInclusive, bInclusive with
      | true, false => if lower then .lt else .gt
      | false, true => if lower then .gt else .lt
      | _, _ => .eq
    | other => other

/-- Source: `bound_adjacent`. -/
def boundAdjacent (uval : Option ℤ) (uinc : Bool) (lval : Option ℤ) (linc : Bool) : Bool :=
  match uval, lval with
  | some u, some l => compare u l == .eq && uinc != linc
  | _, _ => false

/-- Source: `adjacent`. -/
def adjacent (a b : Parsed) : Bool :=
  if a.empty || b.empty then false
  else boundAdjacent a.upper a.upperInc b.lower b.lowerInc ||
    boundAdjacent b.upper b.upperInc a.lower a.lowerInc

/-- Source: `pick_lower`. -/
def pickLower (a b : Parsed) (restrictive : Bool) : Option ℤ × Bool :=
  let c := cmpBound a.lower a.lowerInc b.lower b.lowerInc true
  let takeA := if restrictive then c == .gt else c != .gt
  if takeA then (a.lower, a.lowerInc) else (b.lower, b.lowerInc)

/-- Source: `pick_upper`. -/
def pickUpper (a b : Parsed) (restrictive : Bool) : Option ℤ × Bool :=
  let c := cmpBound a.upper a.upperInc b.upper b.upperInc false
  let takeA := if restrictive then c == .lt else c != .lt
  if takeA then (a.upper, a.upperInc) else (b.upper, b.upperInc)

/-- The range between chosen bounds of two ranges. Source: the last lines of `intersect` and
`merge`. -/
def combine (kind : RangeKind) (a b : Parsed) (restrictive : Bool) : Except SqlError Parsed :=
  let (lower, loInc) := pickLower a b restrictive
  let (upper, hiInc) := pickUpper a b restrictive
  canonical kind (ofBounds lower loInc upper hiInc)

/-- Source: `intersect`. -/
def intersect (kind : RangeKind) (a b : Parsed) : Except SqlError Parsed :=
  if a.empty || b.empty || !overlaps a b then .ok emptyRange else combine kind a b true

/-- Source: `merge`. -/
def merge (kind : RangeKind) (a b : Parsed) : Except SqlError Parsed :=
  if a.empty then canonical kind b
  else if b.empty then canonical kind a
  else combine kind a b false

/-- Source: the error of `union`. -/
def unionNotContiguous : SqlError :=
  ⟨.dataException, "result of range union would not be contiguous"⟩

/-- Source: `union`. -/
def union (kind : RangeKind) (a b : Parsed) : Except SqlError Parsed :=
  if a.empty then canonical kind b
  else if b.empty then canonical kind a
  else if !overlaps a b && !adjacent a b then .error unionNotContiguous
  else combine kind a b false

/-- Source: the error of `difference`. -/
def differenceNotContiguous : SqlError :=
  ⟨.dataException, "result of range difference would not be contiguous"⟩

/-- Source: `difference`. -/
def difference (kind : RangeKind) (a b : Parsed) : Except SqlError Parsed :=
  if a.empty || b.empty || !overlaps a b then canonical kind a
  else
    let left := cmpBound b.lower b.lowerInc a.lower a.lowerInc true != .gt
    let right := cmpBound b.upper b.upperInc a.upper a.upperInc false != .lt
    match left, right with
    | true, true => .ok emptyRange
    | true, false => canonical kind (ofBounds b.upper (!b.upperInc) a.upper a.upperInc)
    | false, true => canonical kind (ofBounds a.lower a.lowerInc b.lower (!b.lowerInc))
    | false, false => .error differenceNotContiguous

/-! ## The interval of a range -/

/-- The first integer of a bounded range. -/
def start (v : ℤ) (inc : Bool) : ℤ := if inc then v else v + 1

/-- The first integer above a bounded range. -/
def stop (v : ℤ) (inc : Bool) : ℤ := if inc then v + 1 else v

/-- **The interval of integers of a range that is not empty.** -/
def toInterval (p : Parsed) : Interval :=
  ⟨p.lower.map (start · p.lowerInc), p.upper.map (stop · p.upperInc)⟩

/-- A lower bound in canonical form. -/
def LowerForm (kind : RangeKind) : Option ℤ → Bool → Prop
  | none, inc => inc = false
  | some v, inc => kind.Element v ∧ (inc = true ∨ dateInfinite kind v = true)

/-- An upper bound in canonical form. -/
def UpperForm (kind : RangeKind) : Option ℤ → Bool → Prop
  | none, inc => inc = false
  | some v, inc => kind.Element v ∧ (inc = false ∨ dateInfinite kind v = true)

/-- **The form that a stored range has.** -/
structure Canonical (kind : RangeKind) (p : Parsed) : Prop where
  emptyForm : p.empty = true → p = emptyRange
  lower : LowerForm kind p.lower p.lowerInc
  upper : UpperForm kind p.upper p.upperInc
  room : p.empty = false → noRoom p.lower p.lowerInc p.upper p.upperInc = false

section Forms

variable {kind : RangeKind} {p a b : Parsed} {v w : ℤ} {i j : Bool}

lemma mem_points_iff (hp : p.empty = false) (x : ℤ) : x ∈ p.points ↔ x ∈ p.toInterval.points := by
  obtain ⟨empty, lower, upper, lowerInc, upperInc⟩ := p
  obtain rfl := hp
  cases lower <;> cases upper <;> cases lowerInc <;> cases upperInc <;>
    simp [points, Interval.points, toInterval, start, stop, InLo, InHi]

lemma points_eq (hp : p.empty = false) : p.points = p.toInterval.points :=
  Set.ext (mem_points_iff hp)

lemma points_empty (hp : p.empty) : p.points = ∅ := by
  ext x
  simp [points, hp]

lemma dateInfinite_iff :
    dateInfinite kind v ↔ kind = .date ∧ (v = dateInfinity ∨ v = dateNegInfinity) := by
  simp [dateInfinite]

/-- A bound that keeps its own inclusivity has no neighbour among the values. -/
lemma start_lt_start (hv : LowerForm kind (some v) i) (hw : LowerForm kind (some w) j) (h : v < w) :
    start v i < start w j := by
  obtain ⟨hv, hi⟩ := hv
  obtain ⟨hw, hj⟩ := hw
  rw [dateInfinite_iff] at hi hj
  cases kind <;> cases i <;> cases j <;> simp [RangeKind.Element, start,
    dateNegInfinity, firstDate] at * <;> omega

lemma UpperForm.flip (h : UpperForm kind (some v) i) :
    LowerForm kind (some v) (!i) ∧
      start v (!i) = stop v i := by
  obtain ⟨hv, hi⟩ := h
  refine ⟨⟨hv, hi.imp (fun h => by rw [h]; rfl) id⟩, ?_⟩
  cases i <;> rfl

lemma LowerForm.flip (h : LowerForm kind (some v) i) :
    UpperForm kind (some v) (!i) ∧
      stop v (!i) = start v i := by
  obtain ⟨hv, hi⟩ := h
  refine ⟨⟨hv, hi.imp (fun h => by rw [h]; rfl) id⟩, ?_⟩
  cases i <;> rfl

/-! ## Comparisons of bounds -/

/-- **Bounds in canonical form compare as the first integers do**, with the inclusivity deciding
between equal values. Every comparison of bounds is read with it, an upper bound taken as a lower
one. -/
theorem cmpBound_start (hv : LowerForm kind (some v) i) (hw : LowerForm kind (some w) j) :
    cmpBound (some v) i (some w) j true = compare (start v i) (start w j) := by
  rcases lt_trichotomy v w with h | rfl | h
  · simp only [cmpBound, compare_lt_iff_lt.mpr h, compare_lt_iff_lt.mpr (start_lt_start hv hw h)]
  · simp only [cmpBound, compare_eq_iff_eq.mpr rfl]
    cases i <;> cases j
    · exact (compare_eq_iff_eq.mpr rfl).symm
    · exact (compare_gt_iff_gt.mpr (lt_add_one v)).symm
    · exact (compare_lt_iff_lt.mpr (lt_add_one v)).symm
    · exact (compare_eq_iff_eq.mpr rfl).symm
  · simp only [cmpBound, compare_gt_iff_gt.mpr h, compare_gt_iff_gt.mpr (start_lt_start hw hv h)]

section

variable (ha : UpperForm kind a.upper a.upperInc)
include ha

lemma strictlyLeft_iff (hb : LowerForm kind b.lower b.lowerInc) :
    strictlyLeft a b ↔ a.toInterval.Before b.toInterval := by
  obtain ⟨aempty, alower, aupper, ali, aui⟩ := a
  obtain ⟨bempty, blower, bupper, bli, bui⟩ := b
  rcases aupper with _ | v <;> rcases blower with _ | w
  case some.some =>
    have hcmp : strictlyLeft ⟨aempty, alower, some v, ali, aui⟩ ⟨bempty, some w, bupper, bli, bui⟩ =
        (cmpBound (some v) (!aui) (some w) bli true != .gt) := by
      simp only [strictlyLeft, cmpBound]
      cases compare v w <;> cases aui <;> cases bli <;> rfl
    rw [hcmp, bne_iff_ne, Ne, cmpBound_start ha.flip.1 hb, compare_gt_iff_gt, ha.flip.2, not_lt]
    exact Iff.rfl
  all_goals simp [strictlyLeft, Before, toInterval]

omit ha in
/-- The order of lower bounds is that of the first integers. -/
lemma cmpBound_lower (ha : LowerForm kind a.lower a.lowerInc)
    (hb : LowerForm kind b.lower b.lowerInc) :
    cmpBound a.lower a.lowerInc b.lower b.lowerInc true = .gt ↔
      ¬ loLe a.toInterval.lo b.toInterval.lo := by
  obtain ⟨aempty, alower, aupper, ali, aui⟩ := a
  obtain ⟨bempty, blower, bupper, bli, bui⟩ := b
  rcases alower with _ | v <;> rcases blower with _ | w
  case some.some =>
    rw [cmpBound_start ha hb, compare_gt_iff_gt, ← not_le]
    exact Iff.rfl
  all_goals simp [cmpBound, loLe, toInterval]

/-- The order of upper bounds is that of the first integers above. -/
lemma cmpBound_upper (hb : UpperForm kind b.upper b.upperInc) :
    cmpBound a.upper a.upperInc b.upper b.upperInc false = .lt ↔
      ¬ hiLe b.toInterval.hi a.toInterval.hi := by
  obtain ⟨aempty, alower, aupper, ali, aui⟩ := a
  obtain ⟨bempty, blower, bupper, bli, bui⟩ := b
  rcases aupper with _ | v <;> rcases bupper with _ | w
  case some.some =>
    have hflip : cmpBound (some v) aui (some w) bui false =
        cmpBound (some v) (!aui) (some w) (!bui) true := by
      cases compare v w <;> cases aui <;> cases bui <;> rfl
    rw [hflip, cmpBound_start ha.flip.1 hb.flip.1, compare_lt_iff_lt, ha.flip.2, hb.flip.2,
      ← not_le]
    exact Iff.rfl
  all_goals simp [cmpBound, hiLe, toInterval]

omit ha in
lemma lowerLe_iff (ha : LowerForm kind a.lower a.lowerInc)
    (hb : LowerForm kind b.lower b.lowerInc) :
    lowerLe a b ↔ loLe a.toInterval.lo b.toInterval.lo := by
  have hcmp : lowerLe a b = (cmpBound a.lower a.lowerInc b.lower b.lowerInc true != .gt) := by
    unfold lowerLe cmpBound
    rcases a.lower with _ | v <;> rcases b.lower with _ | w <;> try rfl
    dsimp only
    cases compare v w <;> cases a.lowerInc <;> cases b.lowerInc <;> rfl
  rw [hcmp, bne_iff_ne, Ne, cmpBound_lower ha hb, not_not]

lemma upperGe_iff (hb : UpperForm kind b.upper b.upperInc) :
    upperGe a b ↔ hiLe b.toInterval.hi a.toInterval.hi := by
  have hcmp : upperGe a b = (cmpBound a.upper a.upperInc b.upper b.upperInc false != .lt) := by
    unfold upperGe cmpBound
    rcases a.upper with _ | v <;> rcases b.upper with _ | w <;> try rfl
    dsimp only
    cases compare v w <;> cases a.upperInc <;> cases b.upperInc <;> rfl
  rw [hcmp, bne_iff_ne, Ne, cmpBound_upper ha hb, not_not]

lemma boundAdjacent_iff (hb : LowerForm kind b.lower b.lowerInc) :
    boundAdjacent a.upper a.upperInc b.lower b.lowerInc ↔ a.toInterval.Touches b.toInterval := by
  obtain ⟨aempty, alower, aupper, ali, aui⟩ := a
  obtain ⟨bempty, blower, bupper, bli, bui⟩ := b
  rcases aupper with _ | v <;> rcases blower with _ | w
  case some.some =>
    have hcmp : boundAdjacent (some v) aui (some w) bli =
        (cmpBound (some v) (!aui) (some w) bli true == .eq) := by
      simp only [boundAdjacent, cmpBound]
      cases compare v w <;> cases aui <;> cases bli <;> rfl
    rw [hcmp, beq_iff_eq, cmpBound_start ha.flip.1 hb, compare_eq_iff_eq, ha.flip.2]
    exact Iff.rfl
  all_goals simp [boundAdjacent, Touches, toInterval]

end

variable {lower upper : Option ℤ} {lowerInc upperInc : Bool}

/-- Bounds with room between them make a proper interval. -/
lemma noRoom_iff (hl : LowerForm kind lower lowerInc) (hu : UpperForm kind upper upperInc) :
    noRoom lower lowerInc upper upperInc = false ↔
      (ofBounds lower lowerInc upper upperInc).toInterval.Proper := by
  rcases lower with _ | l <;> rcases upper with _ | u
  case some.some =>
    have hcmp : noRoom (some l) lowerInc (some u) upperInc =
        (cmpBound (some l) lowerInc (some u) (!upperInc) true != .lt) := by
      simp only [noRoom, cmpBound]
      cases compare l u <;> cases lowerInc <;> cases upperInc <;> rfl
    rw [hcmp, bne_eq_false_iff_eq, cmpBound_start hl hu.flip.1, compare_lt_iff_lt, hu.flip.2]
    exact Iff.rfl
  all_goals simp [noRoom, Proper, toInterval, ofBounds]

lemma Canonical.proper (h : Canonical kind p) (hp : p.empty = false) : p.toInterval.Proper := by
  have hroom := (noRoom_iff h.lower h.upper).mp (h.room hp)
  exact hroom

/-- Bounds in canonical form with room between them make a canonical range. -/
lemma canonical_ofBounds (hl : LowerForm kind lower lowerInc) (hu : UpperForm kind upper upperInc)
    (hprop : (ofBounds lower lowerInc upper upperInc).toInterval.Proper) :
    Canonical kind (ofBounds lower lowerInc upper upperInc) where
  emptyForm h := by cases h
  lower := hl
  upper := hu
  room _ := (noRoom_iff hl hu).mpr hprop

lemma canonical_emptyRange : Canonical kind emptyRange where
  emptyForm _ := rfl
  lower := rfl
  upper := rfl
  room h := by cases h

/-! ## Canonicalization -/

lemma canonicalLower_self {inc : Bool} (h : LowerForm kind lower inc) :
    canonicalLower kind lower inc = .ok (lower, inc) := by
  cases lower with
  | none => rw [show inc = false from h]; rfl
  | some v =>
    cases inc with
    | true => rfl
    | false =>
      have hinf := h.2.resolve_left Bool.false_ne_true
      simp [canonicalLower, hinf]

lemma canonicalUpper_self {inc : Bool} (h : UpperForm kind upper inc) :
    canonicalUpper kind upper inc = .ok (upper, inc) := by
  cases upper with
  | none => rw [show inc = false from h]; rfl
  | some v =>
    cases inc with
    | false => rfl
    | true =>
      have hinf := h.2.resolve_left (by decide)
      simp [canonicalUpper, hinf]

/-- The lower bound is above the upper one. Source: the first test of `canonical`. -/
def Reversed (p : Parsed) : Prop := ∃ l u, p.lower = some l ∧ p.upper = some u ∧ u < l

lemma canonical_steps (kind : RangeKind) (hp : p.empty = false) (hordered : ¬ p.Reversed) :
    canonical kind p = (canonicalLower kind p.lower p.lowerInc).bind fun l =>
      (canonicalUpper kind p.upper p.upperInc).bind fun u =>
        if noRoom l.1 l.2 u.1 u.2 then .ok emptyRange else .ok (ofBounds l.1 l.2 u.1 u.2) := by
  have hfirst : (match p.lower, p.upper with
      | some l, some h => compare l h == .gt
      | _, _ => false) = false := by
    split
    · rename_i l u hl hu
      rw [beq_eq_false_iff_ne]
      intro hgt
      exact hordered ⟨l, u, hl, hu, compare_gt_iff_gt.mp hgt⟩
    · rfl
  unfold canonical
  rw [hp]
  simp only [hfirst]
  rfl

lemma canonical_reversed (kind : RangeKind) (hp : p.empty = false) (h : p.Reversed) :
    canonical kind p = .error reversedBounds := by
  obtain ⟨l, u, hl, hu, hlt⟩ := h
  unfold canonical
  rw [hp]
  simp [hl, hu, compare_gt_iff_gt.mpr hlt]

/-- **A canonical range is left as it is.** -/
theorem canonical_self (h : Canonical kind p) : canonical kind p = .ok p := by
  by_cases hp : p.empty = true
  · rw [h.emptyForm hp]
    rfl
  have hp' : p.empty = false := by simpa using hp
  have hroom := h.room hp'
  have hordered : ¬ p.Reversed := by
    rintro ⟨l, u, hl, hu, hlt⟩
    rw [hl, hu] at hroom
    simp [noRoom, compare_gt_iff_gt.mpr hlt] at hroom
  rw [canonical_steps kind hp' hordered, canonicalLower_self h.lower, canonicalUpper_self h.upper]
  change (if noRoom p.lower p.lowerInc p.upper p.upperInc then Except.ok emptyRange
    else .ok (ofBounds p.lower p.lowerInc p.upper p.upperInc)) = _
  rw [hroom, if_neg Bool.false_ne_true]
  unfold ofBounds
  rw [← hp']

/-- A bound of an integer range that cannot be incremented. -/
def Greatest (kind : RangeKind) (v : ℤ) : Prop :=
  kind = .int4 ∧ v = 2147483647 ∨ kind = .int8 ∧ v = 9223372036854775807

lemma incr_spec (hv : kind.Element v) (hinf : dateInfinite kind v = false) :
    (Greatest kind v ∧ ∃ target, incr kind v = .error (intOverflow target)) ∨
      incr kind v = .ok (v + 1) ∧ kind.Element (v + 1) := by
  cases kind with
  | int4 =>
    simp only [RangeKind.Element] at hv ⊢
    by_cases hmax : v + 1 ≤ 2147483647
    · exact .inr ⟨by simp only [incr, hmax, if_true], by omega⟩
    · exact .inl ⟨.inl ⟨rfl, by omega⟩, "integer", by simp only [incr, hmax, if_false]⟩
  | int8 =>
    simp only [RangeKind.Element] at hv ⊢
    by_cases hmax : v + 1 ≤ 9223372036854775807
    · exact .inr ⟨by simp only [incr, hmax, if_true], by omega⟩
    · exact .inl ⟨.inr ⟨rfl, by omega⟩, "bigint", by simp only [incr, hmax, if_false]⟩
  | date =>
    refine .inr ⟨rfl, ?_⟩
    have hne : ¬ (v = dateInfinity ∨ v = dateNegInfinity) := fun h => by
      rw [dateInfinite_iff.mpr ⟨rfl, h⟩] at hinf
      cases hinf
    simp only [RangeKind.Element, firstDate] at hv hne ⊢
    omega

/-- The lower bound of a range is brought to its form, or is the greatest value. -/
lemma canonicalLower_spec (inc : Bool) (h : ∀ v, lower = some v → kind.Element v) :
    (∃ lower' inc', canonicalLower kind lower inc = .ok (lower', inc') ∧
      LowerForm kind lower' inc' ∧ lower'.map (start · inc') = lower.map (start · inc)) ∨
      (∃ v, lower = some v ∧ inc = false ∧ Greatest kind v) ∧
        ∃ target, canonicalLower kind lower inc = .error (intOverflow target) := by
  cases lower with
  | none => exact .inl ⟨none, false, rfl, rfl, rfl⟩
  | some v =>
    have hv := h v rfl
    cases inc with
    | true => exact .inl ⟨some v, true, rfl, ⟨hv, .inl rfl⟩, rfl⟩
    | false =>
      by_cases hinf : dateInfinite kind v = true
      · exact .inl ⟨some v, false, by simp [canonicalLower, hinf], ⟨hv, .inr hinf⟩, rfl⟩
      have hinf' : dateInfinite kind v = false := by simpa using hinf
      rcases incr_spec hv hinf' with ⟨hmax, target, herror⟩ | ⟨hok, hnext⟩
      · refine .inr ⟨⟨v, rfl, rfl, hmax⟩, target, ?_⟩
        simp [canonicalLower, hinf', herror, Except.map]
      · refine .inl ⟨some (v + 1), true, ?_, ⟨hnext, .inl rfl⟩, rfl⟩
        simp [canonicalLower, hinf', hok, Except.map]

lemma canonicalUpper_spec (inc : Bool) (h : ∀ v, upper = some v → kind.Element v) :
    (∃ upper' inc', canonicalUpper kind upper inc = .ok (upper', inc') ∧
      UpperForm kind upper' inc' ∧ upper'.map (stop · inc') = upper.map (stop · inc)) ∨
      (∃ v, upper = some v ∧ inc ∧ Greatest kind v) ∧
        ∃ target, canonicalUpper kind upper inc = .error (intOverflow target) := by
  cases upper with
  | none => exact .inl ⟨none, false, rfl, rfl, rfl⟩
  | some v =>
    have hv := h v rfl
    cases inc with
    | false => exact .inl ⟨some v, false, rfl, ⟨hv, .inl rfl⟩, rfl⟩
    | true =>
      by_cases hinf : dateInfinite kind v = true
      · exact .inl ⟨some v, true, by simp [canonicalUpper, hinf], ⟨hv, .inr hinf⟩, rfl⟩
      have hinf' : dateInfinite kind v = false := by simpa using hinf
      rcases incr_spec hv hinf' with ⟨hmax, target, herror⟩ | ⟨hok, hnext⟩
      · refine .inr ⟨⟨v, rfl, rfl, hmax⟩, target, ?_⟩
        simp [canonicalUpper, hinf', herror, Except.map]
      · refine .inl ⟨some (v + 1), false, ?_, ⟨hnext, .inl rfl⟩, rfl⟩
        simp [canonicalUpper, hinf', hok, Except.map]

/-- The bounds are values of the element type. -/
structure Valid (kind : RangeKind) (p : Parsed) : Prop where
  lower : ∀ v, p.lower = some v → kind.Element v
  upper : ∀ v, p.upper = some v → kind.Element v

/-- A bound would have to be incremented past the greatest value of the type. -/
def PastGreatest (kind : RangeKind) (p : Parsed) : Prop :=
  (∃ v, p.lower = some v ∧ p.lowerInc = false ∧ Greatest kind v) ∨
    ∃ v, p.upper = some v ∧ p.upperInc = true ∧ Greatest kind v

/-- **What canonicalization does**: a canonical range of the same points, which it leaves as it is,
or an error for reversed bounds or a bound at the greatest value. -/
def CanonicalizesSoundly (kind : RangeKind) (p : Parsed) : Prop :=
  (∃ q, canonical kind p = .ok q ∧ Canonical kind q ∧ q.points = p.points ∧
    canonical kind q = .ok q) ∨
    p.empty = false ∧ (p.Reversed ∧ canonical kind p = .error reversedBounds ∨
      PastGreatest kind p ∧ ∃ target, canonical kind p = .error (intOverflow target))

/-- **Canonicalization is sound.** -/
theorem canonical_sound (h : Valid kind p) : CanonicalizesSoundly kind p := by
  by_cases hp : p.empty = true
  · refine .inl ⟨emptyRange, by unfold canonical; rw [if_pos hp], canonical_emptyRange, ?_, rfl⟩
    rw [points_empty hp, points_empty rfl]
  have hp' : p.empty = false := by simpa using hp
  by_cases hreversed : p.Reversed
  · exact .inr ⟨hp', .inl ⟨hreversed, canonical_reversed kind hp' hreversed⟩⟩
  rcases canonicalLower_spec p.lowerInc h.lower with
      ⟨lower, lowerInc, hl, hlform, hlkeep⟩ | ⟨hmax, target, herror⟩
  · rcases canonicalUpper_spec p.upperInc h.upper with
      ⟨upper, upperInc, hu, huform, hukeep⟩ | ⟨hmax, target, herror⟩
    · left
      have hint : (ofBounds lower lowerInc upper upperInc).toInterval = p.toInterval := by
        unfold toInterval ofBounds
        rw [hlkeep, hukeep]
      rw [canonical_steps kind hp' hreversed, hl, hu]
      change ∃ q, (if noRoom lower lowerInc upper upperInc then Except.ok emptyRange
        else .ok (ofBounds lower lowerInc upper upperInc)) = _ ∧ _
      by_cases hroom : noRoom lower lowerInc upper upperInc = true
      · rw [if_pos hroom]
        refine ⟨emptyRange, rfl, canonical_emptyRange, ?_, rfl⟩
        rw [points_empty rfl, points_eq hp', ← hint, eq_comm, ← Set.not_nonempty_iff_eq_empty,
          ← proper_iff, ← noRoom_iff hlform huform, hroom]
        decide
      have hroom' : noRoom lower lowerInc upper upperInc = false := by simpa using hroom
      rw [if_neg hroom]
      have hcan := canonical_ofBounds hlform huform ((noRoom_iff hlform huform).mp hroom')
      refine ⟨_, rfl, hcan, ?_, canonical_self hcan⟩
      rw [points_eq rfl, points_eq hp', hint]
    · refine .inr ⟨hp', .inr ⟨.inr hmax, target, ?_⟩⟩
      rw [canonical_steps kind hp' hreversed, hl, herror]
      rfl
  · refine .inr ⟨hp', .inr ⟨.inl hmax, target, ?_⟩⟩
    rw [canonical_steps kind hp' hreversed, herror]
    rfl

/-! ## The algebra of ranges -/

lemma overlaps_iff (ha : Canonical kind a) (hb : Canonical kind b) (hae : a.empty = false)
    (hbe : b.empty = false) :
    overlaps a b ↔
      ¬ a.toInterval.Before b.toInterval ∧ ¬ b.toInterval.Before a.toInterval := by
  unfold overlaps
  rw [hae, hbe, Bool.or_self, if_neg Bool.false_ne_true, Bool.not_eq_true', Bool.or_eq_false_iff,
    ← strictlyLeft_iff ha.upper hb.lower, ← strictlyLeft_iff hb.upper ha.lower, Bool.not_eq_true,
    Bool.not_eq_true]

lemma adjacent_iff (ha : Canonical kind a) (hb : Canonical kind b) (hae : a.empty = false)
    (hbe : b.empty = false) :
    adjacent a b ↔
      a.toInterval.Touches b.toInterval ∨ b.toInterval.Touches a.toInterval := by
  unfold adjacent
  rw [hae, hbe, Bool.or_self, if_neg Bool.false_ne_true, Bool.or_eq_true,
    boundAdjacent_iff ha.upper hb.lower, boundAdjacent_iff hb.upper ha.lower]

lemma pickLower_spec (ha : LowerForm kind a.lower a.lowerInc)
    (hb : LowerForm kind b.lower b.lowerInc) (restrictive : Bool) :
    LowerForm kind (pickLower a b restrictive).1 (pickLower a b restrictive).2 ∧
      (pickLower a b restrictive).1.map (start · (pickLower a b restrictive).2) =
        if restrictive then maxLo a.toInterval.lo b.toInterval.lo
        else minLo a.toInterval.lo b.toInterval.lo := by
  have hcmp := cmpBound_lower ha hb
  unfold maxLo minLo
  by_cases hle : loLe a.toInterval.lo b.toInterval.lo
  · have hne : cmpBound a.lower a.lowerInc b.lower b.lowerInc true ≠ .gt := fun h => hcmp.mp h hle
    rw [if_pos hle, if_pos hle]
    cases restrictive <;> simp [pickLower, hne, ha, hb, toInterval]
  · have heq := hcmp.mpr hle
    rw [if_neg hle, if_neg hle]
    cases restrictive <;> simp [pickLower, heq, ha, hb, toInterval]

lemma pickUpper_spec (ha : UpperForm kind a.upper a.upperInc)
    (hb : UpperForm kind b.upper b.upperInc) (restrictive : Bool) :
    UpperForm kind (pickUpper a b restrictive).1 (pickUpper a b restrictive).2 ∧
      (pickUpper a b restrictive).1.map (stop · (pickUpper a b restrictive).2) =
        if restrictive then minHi b.toInterval.hi a.toInterval.hi
        else maxHi b.toInterval.hi a.toInterval.hi := by
  have hcmp := cmpBound_upper ha hb
  unfold minHi maxHi
  by_cases hle : hiLe b.toInterval.hi a.toInterval.hi
  · have hne : cmpBound a.upper a.upperInc b.upper b.upperInc false ≠ .lt := fun h => hcmp.mp h hle
    rw [if_pos hle, if_pos hle]
    cases restrictive <;> simp [pickUpper, hne, ha, hb, toInterval]
  · have heq := hcmp.mpr hle
    rw [if_neg hle, if_neg hle]
    cases restrictive <;> simp [pickUpper, heq, ha, hb, toInterval]

lemma canonical_between {I : Interval} (hl : LowerForm kind lower lowerInc)
    (hu : UpperForm kind upper upperInc) (hlo : lower.map (start · lowerInc) = I.lo)
    (hhi : upper.map (stop · upperInc) = I.hi) (hprop : I.Proper) :
    ∃ q, canonical kind (ofBounds lower lowerInc upper upperInc) = .ok q ∧ Canonical kind q ∧
      q.empty = false ∧ q.toInterval = I := by
  have hint : (ofBounds lower lowerInc upper upperInc).toInterval = I := Interval.ext hlo hhi
  have hcan := canonical_ofBounds hl hu (hint ▸ hprop)
  exact ⟨_, canonical_self hcan, hcan, rfl, hint⟩

/-- **The more restrictive bounds make the intersection.** -/
theorem combine_inter (ha : Canonical kind a) (hb : Canonical kind b)
    (hprop : (a.toInterval.inter b.toInterval).Proper) :
    ∃ q, combine kind a b true = .ok q ∧
      Canonical kind q ∧ q.empty = false ∧ q.toInterval = a.toInterval.inter b.toInterval := by
  obtain ⟨hl, hlo⟩ := pickLower_spec ha.lower hb.lower true
  obtain ⟨hu, hhi⟩ := pickUpper_spec ha.upper hb.upper true
  exact canonical_between hl hu hlo (hhi.trans (minHi_comm _ _)) hprop

/-- **The less restrictive bounds make the hull.** -/
theorem combine_hull (ha : Canonical kind a) (hb : Canonical kind b) (hae : a.empty = false) :
    ∃ q, combine kind a b false = .ok q ∧ Canonical kind q ∧ q.empty = false ∧
      q.toInterval = a.toInterval.hull b.toInterval := by
  obtain ⟨hl, hlo⟩ := pickLower_spec ha.lower hb.lower false
  obtain ⟨hu, hhi⟩ := pickUpper_spec ha.upper hb.upper false
  exact canonical_between hl hu hlo (hhi.trans (maxHi_comm _ _)) (hull_proper (ha.proper hae))

/-- **The operations are those of sets of integers.** -/
structure SetAlgebra (kind : RangeKind) (a b : Parsed) : Prop where
  element : ∀ x, containsElem a x = true ↔ x ∈ a.points
  contains : containsRange a b = true ↔ b.points ⊆ a.points
  overlap : overlaps a b = true ↔ (a.points ∩ b.points).Nonempty
  adjacency : adjacent a b = true ↔ Meets a.points b.points ∨ Meets b.points a.points
  intersection : ∃ q, intersect kind a b = .ok q ∧ Canonical kind q ∧ q.points = a.points ∩ b.points
  unionContiguous : (a.points ∪ b.points).OrdConnected →
    ∃ q, union kind a b = .ok q ∧ Canonical kind q ∧ q.points = a.points ∪ b.points
  unionApart : ¬ (a.points ∪ b.points).OrdConnected → union kind a b = .error unionNotContiguous
  differenceContiguous : (a.points \ b.points).OrdConnected →
    ∃ q, difference kind a b = .ok q ∧ Canonical kind q ∧ q.points = a.points \ b.points
  differenceApart : ¬ (a.points \ b.points).OrdConnected →
    difference kind a b = .error differenceNotContiguous

lemma containsElem_iff (p : Parsed) (x : ℤ) : containsElem p x ↔ x ∈ p.points := by
  obtain ⟨empty, lower, upper, lowerInc, upperInc⟩ := p
  cases empty with
  | true => simp [containsElem, points]
  | false =>
    unfold containsElem points
    simp only [Bool.false_eq_true, if_false, Bool.and_eq_true, true_and]
    refine and_congr ?_ ?_
    · cases lower with
      | none => simp
      | some v =>
        rcases lt_trichotomy x v with h | rfl | h
        · cases lowerInc <;> simp [compare_lt_iff_lt.mpr h] <;> omega
        · cases lowerInc <;> simp
        · cases lowerInc <;> simp [compare_gt_iff_gt.mpr h] <;> omega
    cases upper with
    | none => simp
    | some v =>
      rcases lt_trichotomy x v with h | rfl | h
      · cases upperInc <;> simp [compare_lt_iff_lt.mpr h] <;> omega
      · cases upperInc <;> simp
      · cases upperInc <;> simp [compare_gt_iff_gt.mpr h] <;> omega

lemma not_meets_empty {S T : Set ℤ} (h : S = ∅ ∨ T = ∅) : ¬ (Meets S T ∨ Meets T S) := by
  rintro (⟨m, hS, hT, -⟩ | ⟨m, hT, hS, -⟩) <;> rcases h with rfl | rfl
  · exact hS
  · exact hT
  · exact hS
  · exact hT

lemma setAlgebra_of_empty_left (hb : Canonical kind b) : SetAlgebra kind emptyRange b := by
  have hempty : emptyRange.points = ∅ := points_empty rfl
  refine ⟨containsElem_iff _, ?_, ?_, ?_, ?_, ?_, ?_, ?_, ?_⟩
  · rw [hempty, Set.subset_empty_iff]
    by_cases hbe : b.empty = true
    · simp [containsRange, hbe, points_empty hbe]
    have hbe' : b.empty = false := by simpa using hbe
    have hne : b.points ≠ ∅ := by
      rw [points_eq hbe', ← Set.nonempty_iff_ne_empty]
      exact proper_iff.mp (hb.proper hbe')
    simp [containsRange, hbe', hne, emptyRange]
  · simp [overlaps, emptyRange, points_empty]
  · refine iff_of_false ?_ (not_meets_empty (.inl hempty))
    simp [adjacent, emptyRange]
  · exact ⟨emptyRange, rfl, canonical_emptyRange, by rw [hempty, Set.empty_inter]⟩
  · intro _
    exact ⟨b, canonical_self hb, hb, by rw [hempty, Set.empty_union]⟩
  · intro hnot
    refine absurd ?_ hnot
    rw [hempty, Set.empty_union]
    by_cases hbe : b.empty = true
    · rw [points_empty hbe]
      exact Set.ordConnected_empty
    · rw [points_eq (by simpa using hbe)]
      exact ordConnected_points _
  · intro _
    exact ⟨emptyRange, rfl, canonical_emptyRange, by rw [hempty, Set.empty_sdiff]⟩
  · intro hnot
    refine absurd ?_ hnot
    rw [hempty, Set.empty_sdiff]
    exact Set.ordConnected_empty

lemma setAlgebra_of_empty_right (ha : Canonical kind a) (hae : a.empty = false) :
    SetAlgebra kind a emptyRange := by
  have hempty : emptyRange.points = ∅ := points_empty rfl
  have hconnected : a.points.OrdConnected := by
    rw [points_eq hae]
    exact ordConnected_points _
  refine ⟨containsElem_iff _, ?_, ?_, ?_, ?_, ?_, ?_, ?_, ?_⟩
  · rw [hempty]
    exact iff_of_true rfl (Set.empty_subset _)
  · rw [hempty, Set.inter_empty]
    simp [overlaps, emptyRange]
  · refine iff_of_false ?_ (not_meets_empty (.inr hempty))
    simp [adjacent, emptyRange]
  · refine ⟨emptyRange, ?_, canonical_emptyRange, by rw [hempty, Set.inter_empty]⟩
    simp [intersect, emptyRange]
  · intro _
    refine ⟨a, ?_, ha, by rw [hempty, Set.union_empty]⟩
    unfold union
    rw [hae]
    exact canonical_self ha
  · intro hnot
    refine absurd ?_ hnot
    rwa [hempty, Set.union_empty]
  · intro _
    refine ⟨a, ?_, ha, by rw [hempty, Set.sdiff_empty]⟩
    unfold difference
    rw [if_pos (by simp [emptyRange])]
    exact canonical_self ha
  · intro hnot
    refine absurd ?_ hnot
    rwa [hempty, Set.sdiff_empty]

/-- **What a difference of two ranges that are not empty is**: nothing, a range, or two parts. -/
theorem difference_cases (ha : Canonical kind a) (hb : Canonical kind b) (hae : a.empty = false)
    (hbe : b.empty = false) :
    difference kind a b = .ok emptyRange ∧ a.toInterval.points \ b.toInterval.points = ∅ ∨
      (∃ q, difference kind a b = .ok q ∧ Canonical kind q ∧
        q.points = a.toInterval.points \ b.toInterval.points) ∨
      difference kind a b = .error differenceNotContiguous ∧
        ¬ (a.toInterval.points \ b.toInterval.points).OrdConnected := by
  have hpa := ha.proper hae
  have hpb := hb.proper hbe
  have hover := overlaps_iff ha hb hae hbe
  by_cases hmeet : overlaps a b = true
  · obtain ⟨hab, hba⟩ := hover.mp hmeet
    have hleft : (cmpBound b.lower b.lowerInc a.lower a.lowerInc true != .gt) ↔
        loLe b.toInterval.lo a.toInterval.lo := by
      rw [bne_iff_ne, Ne, cmpBound_lower hb.lower ha.lower, not_not]
    have hright : (cmpBound b.upper b.upperInc a.upper a.upperInc false != .lt) ↔
        hiLe a.toInterval.hi b.toInterval.hi := by
      rw [bne_iff_ne, Ne, cmpBound_upper hb.upper ha.upper, not_not]
    unfold difference
    simp only [hae, hbe, hmeet, Bool.or_self, Bool.not_true, Bool.false_eq_true, if_false]
    by_cases hlo : loLe b.toInterval.lo a.toInterval.lo
    · by_cases hhi : hiLe a.toInterval.hi b.toInterval.hi
      · rw [hleft.mpr hlo, hright.mpr hhi]
        exact .inl ⟨rfl, Set.sdiff_eq_empty.mpr ((subset_iff hpa).mpr ⟨hlo, hhi⟩)⟩
      -- what is above the second range is left
      rw [hleft.mpr hlo, Bool.eq_false_iff.mpr (hright.not.mpr hhi)]
      right
      left
      cases hbu : b.upper with
      | none =>
        refine absurd ?_ hhi
        have hnone : b.toInterval.hi = none := by simp [toInterval, hbu]
        rw [hnone]
        cases a.toInterval.hi <;> trivial
      | some v =>
        have hform := hb.upper
        rw [hbu] at hform
        have hstop : b.toInterval.hi = some (stop v b.upperInc) := by simp [toInterval, hbu]
        obtain ⟨hlower, hstart⟩ := hform.flip
        have hprop : Proper ⟨some (stop v b.upperInc), a.toInterval.hi⟩ := by
          rw [hstop] at hhi
          revert hhi
          cases a.toInterval.hi <;> simp [Proper, hiLe]
        obtain ⟨q, hq, hcan, hqe, hint⟩ := canonical_between hlower ha.upper
          (I := ⟨some (stop v b.upperInc), a.toInterval.hi⟩) (by simp [hstart]) rfl hprop
        refine ⟨q, hq, hcan, ?_⟩
        rw [points_eq hqe, hint, points_diff_above hstop hlo hba]
    by_cases hhi : hiLe a.toInterval.hi b.toInterval.hi
    · -- what is below the second range is left
      rw [Bool.eq_false_iff.mpr (hleft.not.mpr hlo), hright.mpr hhi]
      right
      left
      cases hbl : b.lower with
      | none =>
        refine absurd ?_ hlo
        have hnone : b.toInterval.lo = none := by simp [toInterval, hbl]
        rw [hnone]
        trivial
      | some m =>
        have hform := hb.lower
        rw [hbl] at hform
        have hstart : b.toInterval.lo = some (start m b.lowerInc) := by simp [toInterval, hbl]
        obtain ⟨hupper, hstop⟩ := hform.flip
        have hprop : Proper ⟨a.toInterval.lo, some (start m b.lowerInc)⟩ := by
          rw [hstart] at hlo
          revert hlo
          cases a.toInterval.lo <;> simp [Proper, loLe]
        obtain ⟨q, hq, hcan, hqe, hint⟩ := canonical_between ha.lower hupper
          (I := ⟨a.toInterval.lo, some (start m b.lowerInc)⟩) rfl (by simp [hstop]) hprop
        refine ⟨q, hq, hcan, ?_⟩
        rw [points_eq hqe, hint, points_diff_below hstart hhi hab]
    · rw [Bool.eq_false_iff.mpr (hleft.not.mpr hlo), Bool.eq_false_iff.mpr (hright.not.mpr hhi)]
      exact .inr (.inr ⟨rfl, diff_not_ordConnected hpa hpb hlo hhi⟩)
  · refine .inr (.inl ⟨a, ?_, ha, ?_⟩)
    · unfold difference
      rw [if_pos (by simp [hmeet])]
      exact canonical_self ha
    · rw [points_eq hae, eq_comm, sdiff_eq_left, Set.disjoint_iff_inter_eq_empty,
        ← Set.not_nonempty_iff_eq_empty, inter_nonempty_iff hpa hpb, ← hover]
      exact hmeet

/-- **The algebra of two ranges that are not empty.** -/
theorem setAlgebra_of_nonempty (ha : Canonical kind a) (hb : Canonical kind b)
    (hae : a.empty = false) (hbe : b.empty = false) :
    SetAlgebra kind a b := by
  have hpa := ha.proper hae
  have hpb := hb.proper hbe
  have hover := overlaps_iff ha hb hae hbe
  have hadj := adjacent_iff ha hb hae hbe
  refine ⟨containsElem_iff _, ?_, ?_, ?_, ?_, ?_, ?_, ?_, ?_⟩
  all_goals simp only [points_eq hae, points_eq hbe]
  · rw [subset_iff hpb, ← lowerLe_iff ha.lower hb.lower, ← upperGe_iff ha.upper hb.upper]
    simp [containsRange, hae, hbe]
  · rw [hover, inter_nonempty_iff hpa hpb]
  · rw [hadj, touches_iff hpa hpb, touches_iff hpb hpa]
  · by_cases hmeet : overlaps a b = true
    · obtain ⟨hab, hba⟩ := hover.mp hmeet
      obtain ⟨q, hq, hcan, hqe, hint⟩ := combine_inter ha hb (inter_proper hpa hpb hab hba)
      refine ⟨q, ?_, hcan, ?_⟩
      · unfold intersect
        rw [hae, hbe, hmeet]
        exact hq
      · rw [points_eq hqe, hint, points_inter]
    · refine ⟨emptyRange, ?_, canonical_emptyRange, ?_⟩
      · unfold intersect
        rw [if_pos (by simp [hmeet])]
      · rw [points_empty rfl, eq_comm, ← Set.not_nonempty_iff_eq_empty, inter_nonempty_iff hpa hpb,
          ← hover]
        exact hmeet
  · intro hconnected
    obtain ⟨hab, hba⟩ := (union_ordConnected_iff hpa hpb).mp hconnected
    obtain ⟨q, hq, hcan, hqe, hint⟩ := combine_hull ha hb hae
    refine ⟨q, ?_, hcan, ?_⟩
    · have hjoined : overlaps a b ∨ adjacent a b := by
        rw [hover, hadj]
        by_contra hnot
        obtain ⟨hfar, hapart⟩ := not_or.mp hnot
        obtain ⟨hnab, hnba⟩ := not_or.mp hapart
        refine hfar ⟨fun h => ?_, fun h => ?_⟩
        · exact (before_iff.mp h).elim hab hnab
        · exact (before_iff.mp h).elim hba hnba
      unfold union
      rw [hae, hbe]
      rcases hjoined with h | h <;> simpa [h] using hq
    · rw [points_eq hqe, hint, points_hull hpa hpb hab hba]
  · intro hnot
    rw [union_ordConnected_iff hpa hpb, not_and_or, not_not, not_not] at hnot
    have hapart : overlaps a b = false ∧ adjacent a b = false := by
      rw [← Bool.not_eq_true, ← Bool.not_eq_true, hover, hadj]
      rcases hnot with hgap | hgap
      · exact ⟨fun h => h.1 (before_iff.mpr (.inl hgap)), hgap.not_touches hpa hpb⟩
      · exact ⟨fun h => h.2 (before_iff.mpr (.inl hgap)), fun h => hgap.not_touches hpb hpa h.symm⟩
    simp [union, hae, hbe, hapart]
  · intro hconnected
    rcases difference_cases ha hb hae hbe with ⟨hq, hpts⟩ | ⟨q, hq, hcan, hpts⟩ | ⟨-, hnot⟩
    · exact ⟨emptyRange, hq, canonical_emptyRange, by rw [points_empty rfl, hpts]⟩
    · exact ⟨q, hq, hcan, hpts⟩
    · exact absurd hconnected hnot
  · intro hnot
    rcases difference_cases ha hb hae hbe with ⟨-, hpts⟩ | ⟨q, -, hcan, hpts⟩ | ⟨herror, -⟩
    · rw [hpts] at hnot
      exact absurd Set.ordConnected_empty hnot
    · rw [← hpts] at hnot
      refine absurd ?_ hnot
      by_cases hqe : q.empty = true
      · rw [points_empty hqe]
        exact Set.ordConnected_empty
      · rw [points_eq (by simpa using hqe)]
        exact ordConnected_points _
    · exact herror

end Forms

/-- **Discrete ranges are sets of integers.** Canonicalization keeps the points and is idempotent,
refusing only reversed bounds and bounds that cannot be incremented, and on canonical ranges
containment, overlap, adjacency, intersection, union and difference are those of the sets, with an
error exactly where a union or difference is not contiguous. -/
theorem range_algebra (kind : RangeKind) :
    (∀ p, Valid kind p → CanonicalizesSoundly kind p) ∧
      ∀ a b, Canonical kind a → Canonical kind b → SetAlgebra kind a b := by
  refine ⟨fun p => canonical_sound, fun a b ha hb => ?_⟩
  by_cases hae : a.empty = true
  · rw [ha.emptyForm hae]
    exact setAlgebra_of_empty_left hb
  have hae' : a.empty = false := by simpa using hae
  by_cases hbe : b.empty = true
  · rw [hb.emptyForm hbe]
    exact setAlgebra_of_empty_right ha hae'
  · exact setAlgebra_of_nonempty ha hb hae' (by simpa using hbe)

/-- The range of all integers below the least `int4`. -/
def belowAll : Parsed := ofBounds none false (some (-2147483648)) false

/-- **Over the values of the type alone the statement fails**: the range below the least value has
no value of the type in it but is not empty and overlaps itself, and the range up to the greatest
value is refused. -/
theorem range_algebra_over_values_fails :
    Canonical .int4 belowAll ∧ (∀ x, RangeKind.int4.Element x → x ∉ belowAll.points) ∧
      overlaps belowAll belowAll = true ∧
      Valid .int4 (ofBounds (some 0) true (some 2147483647) true) ∧
      canonical .int4 (ofBounds (some 0) true (some 2147483647) true) =
        .error (intOverflow "integer") := by
  refine ⟨⟨fun h => (by cases h), rfl, ⟨by simp [RangeKind.Element], .inl rfl⟩, fun _ => rfl⟩,
    fun x hx hmem => ?_, rfl, ⟨fun v hv => ?_, fun v hv => ?_⟩, rfl⟩
  · have hlt := hmem.2.2 (-2147483648) rfl
    simp only [RangeKind.Element] at hx
    simp only [belowAll, ofBounds, Bool.false_eq_true, if_false] at hlt
    omega
  · cases hv
    simp [RangeKind.Element]
  · cases hv
    simp [RangeKind.Element]

/-- The ranges from one to five and from three to eight. -/
theorem range_algebra_one_five :
    SetAlgebra .int4 (ofBounds (some 1) true (some 5) false)
      (ofBounds (some 3) true (some 8) false) := by
  refine (range_algebra .int4).2 _ _ ?_ ?_
  · exact ⟨fun h => (by cases h), ⟨by simp [RangeKind.Element], .inl rfl⟩,
      ⟨by simp [RangeKind.Element], .inl rfl⟩, fun _ => rfl⟩
  · exact ⟨fun h => (by cases h), ⟨by simp [RangeKind.Element], .inl rfl⟩,
      ⟨by simp [RangeKind.Element], .inl rfl⟩, fun _ => rfl⟩

end Parsed

end Pos3ql
