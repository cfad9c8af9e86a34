import Mathlib

/-!
# Intervals of integers

An interval has an optional lower bound, which it contains, and an optional upper bound, which it
does not.

* `Interval.points`; `Interval.Proper`: there is a point.
* `loLe`, `hiLe`: the order of bounds; **`subset_iff`**.
* `Before`, `Gap`, `Touches`: how one interval lies below another; **`inter_nonempty_iff`**,
  **`touches_iff`**.
* `inter`, `hull`: **`points_inter`**, **`union_ordConnected_iff`**, **`points_hull`**.
* **`diff_not_ordConnected`**: when a difference is no interval; `mem_diff_iff`: what it is then.
* `Separated`: a list of intervals in order with gaps between them; **`Separated.ext`**: it is
  determined by its points.
-/

namespace Pos3ql.Foundation

open List

/-- The number is not below the lower bound. -/
def InLo : Option ℤ → ℤ → Prop
  | none, _ => True
  | some l, x => l ≤ x

/-- The number is below the upper bound. -/
def InHi : Option ℤ → ℤ → Prop
  | none, _ => True
  | some u, x => x < u

@[ext] structure Interval where
  lo : Option ℤ
  hi : Option ℤ
  deriving DecidableEq, Repr

namespace Interval

/-- The integers of the interval. -/
def points (I : Interval) : Set ℤ := {x | InLo I.lo x ∧ InHi I.hi x}

/-- The bounds leave room for a point. -/
def Proper (I : Interval) : Prop :=
  match I.lo, I.hi with
  | some l, some u => l < u
  | _, _ => True

/-- The first lower bound is not above the second. -/
def loLe : Option ℤ → Option ℤ → Prop
  | none, _ => True
  | some _, none => False
  | some a, some b => a ≤ b

/-- The first upper bound is not above the second. -/
def hiLe : Option ℤ → Option ℤ → Prop
  | _, none => True
  | none, some _ => False
  | some a, some b => a ≤ b

/-- The first interval ends before the second starts. -/
def Before (I J : Interval) : Prop :=
  match I.hi, J.lo with
  | some u, some l => u ≤ l
  | _, _ => False

/-- There is a point between the end of the first and the start of the second. -/
def Gap (I J : Interval) : Prop :=
  match I.hi, J.lo with
  | some u, some l => u < l
  | _, _ => False

/-- The second starts where the first ends. -/
def Touches (I J : Interval) : Prop :=
  match I.hi, J.lo with
  | some u, some l => u = l
  | _, _ => False

instance (a b : Option ℤ) : Decidable (loLe a b) := by
  cases a <;> cases b <;> unfold loLe <;> infer_instance

instance (a b : Option ℤ) : Decidable (hiLe a b) := by
  cases a <;> cases b <;> unfold hiLe <;> infer_instance

/-- The greater of two lower bounds. -/
def maxLo (a b : Option ℤ) : Option ℤ := if loLe a b then b else a

/-- The lesser of two lower bounds. -/
def minLo (a b : Option ℤ) : Option ℤ := if loLe a b then a else b

/-- The lesser of two upper bounds. -/
def minHi (a b : Option ℤ) : Option ℤ := if hiLe a b then a else b

/-- The greater of two upper bounds. -/
def maxHi (a b : Option ℤ) : Option ℤ := if hiLe a b then b else a

/-- What both have. -/
def inter (I J : Interval) : Interval := ⟨maxLo I.lo J.lo, minHi I.hi J.hi⟩

/-- The least interval around both. -/
def hull (I J : Interval) : Interval := ⟨minLo I.lo J.lo, maxHi I.hi J.hi⟩

section Bounds

variable {a b : Option ℤ} {x : ℤ}

/-- Above a higher start. -/
lemma loLe_of_inLo (h : loLe a b) (hx : InLo b x) : InLo a x := by
  cases a <;> cases b <;> simp only [loLe, InLo] at *
  omega

/-- Below a lower end. -/
lemma hiLe_of_inHi (h : hiLe a b) (hx : InHi a x) : InHi b x := by
  cases a <;> cases b <;> simp only [hiLe, InHi] at *
  omega

/-- Starts are comparable. -/
lemma loLe_total (a b : Option ℤ) : loLe a b ∨ loLe b a := by
  cases a <;> cases b <;> simp only [loLe, true_or, or_true]
  omega

/-- Ends are comparable. -/
lemma hiLe_total (a b : Option ℤ) : hiLe a b ∨ hiLe b a := by
  cases a <;> cases b <;> simp only [hiLe, true_or, or_true]
  omega

lemma loLe_trans {c : Option ℤ} (hab : loLe a b) (hbc : loLe b c) : loLe a c := by
  cases a <;> cases b <;> cases c <;> simp only [loLe] at *
  exact hab.trans hbc

/-- Starts are ordered. -/
lemma loLe_antisymm (hab : loLe a b) (hba : loLe b a) : a = b := by
  cases a <;> cases b <;> simp only [loLe] at *
  rw [le_antisymm hab hba]

/-- Ends are ordered. -/
lemma hiLe_antisymm (hab : hiLe a b) (hba : hiLe b a) : a = b := by
  cases a <;> cases b <;> simp only [hiLe] at *
  rw [le_antisymm hab hba]

lemma minHi_comm (a b : Option ℤ) : minHi a b = minHi b a := by
  unfold minHi
  by_cases hab : hiLe a b
  · by_cases hba : hiLe b a
    · rw [if_pos hab, if_pos hba, hiLe_antisymm hab hba]
    · rw [if_pos hab, if_neg hba]
  · rw [if_neg hab, if_pos ((hiLe_total a b).resolve_left hab)]

lemma maxHi_comm (a b : Option ℤ) : maxHi a b = maxHi b a := by
  unfold maxHi
  by_cases hab : hiLe a b
  · by_cases hba : hiLe b a
    · rw [if_pos hab, if_pos hba, hiLe_antisymm hab hba]
    · rw [if_pos hab, if_neg hba]
  · rw [if_neg hab, if_pos ((hiLe_total a b).resolve_left hab)]

/-- Above both starts. -/
lemma inLo_maxLo : InLo (maxLo a b) x ↔ InLo a x ∧ InLo b x := by
  unfold maxLo
  split
  · rename_i h
    exact ⟨fun hx => ⟨loLe_of_inLo h hx, hx⟩, And.right⟩
  · rename_i h
    exact ⟨fun hx => ⟨hx, loLe_of_inLo ((loLe_total a b).resolve_left h) hx⟩, And.left⟩

/-- Below both ends. -/
lemma inHi_minHi : InHi (minHi a b) x ↔ InHi a x ∧ InHi b x := by
  unfold minHi
  split
  · rename_i h
    exact ⟨fun hx => ⟨hx, hiLe_of_inHi h hx⟩, And.left⟩
  · rename_i h
    exact ⟨fun hx => ⟨hiLe_of_inHi ((hiLe_total a b).resolve_left h) hx, hx⟩, And.right⟩

/-- Above one of the starts. -/
lemma inLo_minLo : InLo (minLo a b) x ↔ InLo a x ∨ InLo b x := by
  unfold minLo
  split
  · rename_i h
    exact ⟨.inl, fun hx => hx.elim id (loLe_of_inLo h)⟩
  · rename_i h
    exact ⟨.inr, fun hx => hx.elim (loLe_of_inLo ((loLe_total a b).resolve_left h)) id⟩

/-- Below one of the ends. -/
lemma inHi_maxHi : InHi (maxHi a b) x ↔ InHi a x ∨ InHi b x := by
  unfold maxHi
  split
  · rename_i h
    exact ⟨.inr, fun hx => hx.elim (hiLe_of_inHi h) id⟩
  · rename_i h
    exact ⟨.inl, fun hx => hx.elim id (hiLe_of_inHi ((hiLe_total a b).resolve_left h))⟩

end Bounds

section Points

variable {I J : Interval}

/-- A point as low as can be. -/
lemma exists_low (h : I.Proper) (b : ℤ) : ∃ x ∈ I.points, I.lo = none ∧ x ≤ b ∨ I.lo = some x := by
  obtain ⟨lo, hi⟩ := I
  cases lo with
  | none =>
    cases hi with
    | none => exact ⟨b, ⟨trivial, trivial⟩, .inl ⟨rfl, le_rfl⟩⟩
    | some u => exact ⟨min b (u - 1), ⟨trivial, by simp only [InHi]; omega⟩, .inl ⟨rfl, by omega⟩⟩
  | some l =>
    refine ⟨l, ⟨le_refl l, ?_⟩, .inr rfl⟩
    cases hi with
    | none => trivial
    | some u => exact h

/-- A point as high as can be. -/
lemma exists_high (h : I.Proper) (b : ℤ) :
    ∃ x ∈ I.points, I.hi = none ∧ b ≤ x ∨ I.hi = some (x + 1) := by
  obtain ⟨lo, hi⟩ := I
  cases hi with
  | none =>
    cases lo with
    | none => exact ⟨b, ⟨trivial, trivial⟩, .inl ⟨rfl, le_rfl⟩⟩
    | some l => exact ⟨max b l, ⟨by simp only [InLo]; omega, trivial⟩, .inl ⟨rfl, by omega⟩⟩
  | some u =>
    refine ⟨u - 1, ⟨?_, by simp only [InHi]; omega⟩, .inr (by rw [sub_add_cancel])⟩
    cases lo with
    | none => trivial
    | some l =>
      simp only [Proper] at h
      simp only [InLo]
      omega

/-- The start is a point. -/
lemma low_mem (h : I.Proper) {m : ℤ} (hlo : I.lo = some m) : m ∈ I.points := by
  obtain ⟨x, hx, ⟨hnone, -⟩ | hsome⟩ := exists_low h 0
  · cases hlo.symm.trans hnone
  · cases hlo.symm.trans hsome
    exact hx

/-- The last number is a point. -/
lemma high_mem (h : I.Proper) {u : ℤ} (hhi : I.hi = some u) : u - 1 ∈ I.points := by
  obtain ⟨x, hx, ⟨hnone, -⟩ | hsome⟩ := exists_high h 0
  · cases hhi.symm.trans hnone
  · cases hhi.symm.trans hsome
    rwa [add_sub_cancel_right]

lemma gap_iff : Gap I J ↔ ∃ u m, I.hi = some u ∧ J.lo = some m ∧ u < m := by
  unfold Gap
  cases I.hi <;> cases J.lo <;> simp

lemma touches_iff_some : Touches I J ↔ ∃ u, I.hi = some u ∧ J.lo = some u := by
  unfold Touches
  cases I.hi <;> cases J.lo <;> simp [eq_comm]

/-- Proper: there are points. -/
lemma proper_iff : I.Proper ↔ I.points.Nonempty := by
  constructor
  · intro h
    obtain ⟨x, hx, -⟩ := exists_low h 0
    exact ⟨x, hx⟩
  rintro ⟨x, hlo, hhi⟩
  obtain ⟨lo, hi⟩ := I
  cases lo <;> cases hi <;> simp only [Proper, InLo, InHi] at *
  omega

/-- **Inclusion is the order of the bounds.** -/
theorem subset_iff (h : I.Proper) : I.points ⊆ J.points ↔ loLe J.lo I.lo ∧ hiLe I.hi J.hi := by
  constructor
  · intro hsub
    constructor
    · cases hJ : J.lo with
      | none => trivial
      | some m =>
        obtain ⟨x, hx, hlow⟩ := exists_low h (m - 1)
        have hin := (hsub hx).1
        rw [hJ] at hin
        rcases hlow with ⟨-, hle⟩ | hlow
        · simp only [InLo] at hin
          omega
        · rw [hlow]
          exact hin
    cases hJ : J.hi with
    | none => cases I.hi <;> trivial
    | some v =>
      obtain ⟨x, hx, hhigh⟩ := exists_high h v
      have hin := (hsub hx).2
      rw [hJ] at hin
      simp only [InHi] at hin
      rcases hhigh with ⟨-, hle⟩ | hhigh
      · omega
      · rw [hhigh]
        simp only [hiLe]
        omega
  · rintro ⟨hlo, hhi⟩ x ⟨hxlo, hxhi⟩
    exact ⟨loLe_of_inLo hlo hxlo, hiLe_of_inHi hhi hxhi⟩

/-- **The points of an intersection.** -/
theorem points_inter (I J : Interval) : (inter I J).points = I.points ∩ J.points := by
  ext x
  simp only [points, inter, Set.mem_ofPred_eq, Set.mem_inter_iff, inLo_maxLo, inHi_minHi]
  tauto

/-- A shared point: not before. -/
lemma not_before_of_mem {x : ℤ} (hI : x ∈ I.points) (hJ : x ∈ J.points) : ¬ Before I J := by
  obtain ⟨lo, hi⟩ := I
  obtain ⟨lo', hi'⟩ := J
  have hhi := hI.2
  have hlo := hJ.1
  cases hi <;> cases lo' <;> simp only [Before, InHi, InLo, not_false_eq_true] at *
  omega

/-- Up to where another begins. -/
lemma proper_of_not_before (h : ¬ Before I J) : Proper ⟨J.lo, I.hi⟩ := by
  obtain ⟨lo, hi⟩ := I
  obtain ⟨lo', hi'⟩ := J
  cases hi <;> cases lo' <;> simp only [Before, Proper] at *
  omega

/-- Overlapping intervals meet. -/
lemma inter_proper (hI : I.Proper) (hJ : J.Proper) (hIJ : ¬ Before I J) (hJI : ¬ Before J I) :
    (inter I J).Proper := by
  unfold inter maxLo minHi
  split
  · split
    · exact proper_of_not_before hIJ
    · exact hJ
  · split
    · exact hI
    · exact proper_of_not_before hJI

/-- **Two intervals meet unless one is before the other.** -/
theorem inter_nonempty_iff (hI : I.Proper) (hJ : J.Proper) :
    (I.points ∩ J.points).Nonempty ↔ ¬ Before I J ∧ ¬ Before J I := by
  constructor
  · rintro ⟨x, hxI, hxJ⟩
    exact ⟨not_before_of_mem hxI hxJ, not_before_of_mem hxJ hxI⟩
  · rintro ⟨hIJ, hJI⟩
    rw [← points_inter]
    exact proper_iff.mp (inter_proper hI hJ hIJ hJI)

/-- An interval has no holes. -/
lemma ordConnected_points (I : Interval) : I.points.OrdConnected := by
  refine ⟨fun x hx y hy z hz => ⟨?_, ?_⟩⟩
  · have hlo := hx.1
    revert hlo
    cases I.lo <;> simp only [InLo, imp_self]
    exact fun h => h.trans hz.1
  have hhi := hy.2
  revert hhi
  cases I.hi <;> simp only [InHi, imp_self]
  exact fun h => hz.2.trans_lt h

/-- A set with a hole. -/
lemma not_ordConnected_of_gap {S : Set ℤ} {x m y : ℤ} (hx : x ∈ S) (hy : y ∈ S) (hm : m ∉ S)
    (hxm : x ≤ m) (hmy : m ≤ y) : ¬ S.OrdConnected := fun h => hm (h.out hx hy ⟨hxm, hmy⟩)

/-- A gap is a hole of the union. -/
lemma not_ordConnected_union (hI : I.Proper) (hJ : J.Proper) (h : Gap I J) :
    ¬ (I.points ∪ J.points).OrdConnected := by
  obtain ⟨u, m, hhi, hlo, hum⟩ := gap_iff.mp h
  refine not_ordConnected_of_gap (m := u) (.inl (high_mem hI hhi)) (.inr (low_mem hJ hlo)) ?_
    (by omega) hum.le
  rintro (⟨-, hu⟩ | ⟨hu, -⟩)
  · rw [hhi] at hu
    exact lt_irrefl _ hu
  · rw [hlo] at hu
    exact absurd hum (not_lt.mpr hu)

/-- **The points of the hull**, without a gap. -/
theorem points_hull (hI : I.Proper) (hJ : J.Proper) (hIJ : ¬ Gap I J) (hJI : ¬ Gap J I) :
    (hull I J).points = I.points ∪ J.points := by
  ext x
  simp only [points, hull, Set.mem_ofPred_eq, Set.mem_union, inLo_minLo, inHi_maxHi]
  obtain ⟨lo, hi⟩ := I
  obtain ⟨lo', hi'⟩ := J
  cases lo <;> cases hi <;> cases lo' <;> cases hi' <;>
    simp only [Proper, Gap, InLo, InHi, not_false_eq_true, true_and, and_true, or_true, true_or,
      true_iff] at * <;> omega

/-- **A union is an interval exactly when there is no gap.** -/
theorem union_ordConnected_iff (hI : I.Proper) (hJ : J.Proper) :
    (I.points ∪ J.points).OrdConnected ↔ ¬ Gap I J ∧ ¬ Gap J I := by
  constructor
  · intro h
    refine ⟨fun hgap => not_ordConnected_union hI hJ hgap h, fun hgap => ?_⟩
    rw [Set.union_comm] at h
    exact not_ordConnected_union hJ hI hgap h
  · rintro ⟨hIJ, hJI⟩
    rw [← points_hull hI hJ hIJ hJI]
    exact ordConnected_points _

/-- A hull has points. -/
lemma hull_proper (hI : I.Proper) : (hull I J).Proper := by
  rw [proper_iff] at hI ⊢
  obtain ⟨x, hx⟩ := hI
  exact ⟨x, inLo_minLo.mpr (.inl hx.1), inHi_maxHi.mpr (.inl hx.2)⟩

/-- One set ends where the other starts. -/
def Meets (S T : Set ℤ) : Prop :=
  ∃ m, m - 1 ∈ S ∧ m ∈ T ∧ (∀ x ∈ S, x < m) ∧ ∀ y ∈ T, m ≤ y

/-- **Touching bounds are sets that meet.** -/
theorem touches_iff (hI : I.Proper) (hJ : J.Proper) : Touches I J ↔ Meets I.points J.points := by
  constructor
  · intro h
    obtain ⟨u, hhi, hlo⟩ := touches_iff_some.mp h
    refine ⟨u, high_mem hI hhi, low_mem hJ hlo, fun z hz => ?_, fun z hz => ?_⟩
    · have hzhi := hz.2
      rwa [hhi] at hzhi
    · have hzlo := hz.1
      rwa [hlo] at hzlo
  · rintro ⟨m, hmI, hmJ, hbelow, habove⟩
    obtain ⟨x, hx, hxhi⟩ := exists_high hI m
    obtain ⟨y, hy, hylo⟩ := exists_low hJ (m - 1)
    have hxm := hbelow x hx
    have hym := habove y hy
    have hmhi := hmI.2
    have hmlo := hmJ.1
    unfold Touches
    rcases hxhi with ⟨-, hle⟩ | hsome
    · omega
    rcases hylo with ⟨-, hle⟩ | hlow
    · omega
    rw [hsome, hlow]
    rw [hsome] at hmhi
    rw [hlow] at hmlo
    simp only [InHi, InLo] at *
    omega

/-- Before: with a gap or touching. -/
lemma before_iff : Before I J ↔ Gap I J ∨ Touches I J := by
  unfold Before Gap Touches
  cases I.hi <;> cases J.lo <;> simp only [or_self]
  omega

/-- With a gap there is no touching. -/
lemma Gap.not_touches (h : Gap I J) (hI : I.Proper) (hJ : J.Proper) :
    ¬ (Touches I J ∨ Touches J I) := by
  obtain ⟨lo, hi⟩ := I
  obtain ⟨lo', hi'⟩ := J
  cases lo <;> cases hi <;> cases lo' <;> cases hi' <;>
    simp only [Proper, Gap, Touches, or_false] at * <;> omega

/-- A difference that leaves the upper part. -/
lemma points_diff_above {v : ℤ} (hJ : J.hi = some v) (hlo : loLe J.lo I.lo) (hIJ : ¬ Before J I) :
    I.points \ J.points = points ⟨some v, I.hi⟩ := by
  obtain ⟨lo, hi⟩ := I
  obtain ⟨lo', hi'⟩ := J
  obtain rfl := hJ
  ext x
  cases lo <;> cases hi <;> cases lo' <;>
    simp only [points, Before, loLe, InLo, InHi, Set.mem_sdiff, Set.mem_ofPred_eq, true_and,
      and_true, not_lt, not_and] at * <;> omega

/-- A difference that leaves the lower part. -/
lemma points_diff_below {m : ℤ} (hJ : J.lo = some m) (hhi : hiLe I.hi J.hi) (hIJ : ¬ Before I J) :
    I.points \ J.points = points ⟨I.lo, some m⟩ := by
  obtain ⟨lo, hi⟩ := I
  obtain ⟨lo', hi'⟩ := J
  obtain rfl := hJ
  ext x
  cases lo <;> cases hi <;> cases hi' <;>
    simp only [points, Before, hiLe, InLo, InHi, Set.mem_sdiff, Set.mem_ofPred_eq, true_and,
      and_true] at * <;> omega

/-- **Taking out a middle leaves two parts.** -/
theorem diff_not_ordConnected (hI : I.Proper) (hJ : J.Proper) (hlo : ¬ loLe J.lo I.lo)
    (hhi : ¬ hiLe I.hi J.hi) : ¬ (I.points \ J.points).OrdConnected := by
  -- the second interval has both bounds, and the first has points beyond them
  cases hm : J.lo with
  | none => rw [hm] at hlo; exact absurd trivial hlo
  | some m =>
    cases hv : J.hi with
    | none => rw [hv] at hhi; exact absurd (by cases I.hi <;> trivial) hhi
    | some v =>
      obtain ⟨x, hx, hxlo⟩ := exists_low hI (m - 1)
      obtain ⟨y, hy, hyhi⟩ := exists_high hI v
      have hmv : m < v := by
        unfold Proper at hJ
        rwa [hm, hv] at hJ
      have hxm : x < m := by
        rcases hxlo with ⟨-, hle⟩ | hlow
        · omega
        · rw [hm, hlow] at hlo
          simp only [loLe] at hlo
          omega
      have hyv : v ≤ y := by
        rcases hyhi with ⟨-, hle⟩ | hhigh
        · exact hle
        · rw [hv, hhigh] at hhi
          simp only [hiLe] at hhi
          omega
      refine not_ordConnected_of_gap (m := m) (x := x) (y := y) ⟨hx, ?_⟩ ⟨hy, ?_⟩ ?_ hxm.le
        (by omega)
      · rintro ⟨hin, -⟩
        rw [hm] at hin
        simp only [InLo] at hin
        omega
      · rintro ⟨-, hin⟩
        rw [hv] at hin
        simp only [InHi] at hin
        omega
      rintro ⟨-, hnot⟩
      refine hnot ⟨?_, ?_⟩
      · rw [hm]
        exact le_refl m
      · rw [hv]
        exact hmv

end Points

/-! ## Lists of intervals -/

/-- The integers of any of the intervals. -/
def pointsOf (l : List Interval) : Set ℤ := {x | ∃ I ∈ l, x ∈ I.points}

/-- **Proper intervals in order, with gaps between them.** -/
structure Separated (l : List Interval) : Prop where
  proper : ∀ I ∈ l, I.Proper
  gaps : l.Pairwise Gap

section Lists

variable {I J K : Interval} {l r : List Interval}

lemma pointsOf_nil : pointsOf [] = ∅ := by
  ext x
  simp [pointsOf]

lemma pointsOf_cons (I : Interval) (l : List Interval) :
    pointsOf (I :: l) = I.points ∪ pointsOf l := by
  ext x
  simp [pointsOf]

lemma Separated.tail (h : Separated (I :: l)) : Separated l :=
  ⟨(forall_mem_cons.mp h.proper).2, (pairwise_cons.mp h.gaps).2⟩

/-- A number between the two. -/
lemma Gap.lt {x y : ℤ} (h : Gap I J) (hx : x ∈ I.points) (hy : y ∈ J.points) :
    ∃ u, I.hi = some u ∧ x < u ∧ u < y := by
  obtain ⟨u, m, hhi, hlo, hum⟩ := gap_iff.mp h
  have hxhi := hx.2
  have hylo := hy.1
  rw [hhi] at hxhi
  rw [hlo] at hylo
  exact ⟨u, hhi, hxhi, hum.trans_le hylo⟩

/-- A gap before a later start. -/
lemma Gap.mono (h : Gap I J) (hlo : loLe J.lo K.lo) : Gap I K := by
  obtain ⟨lo, hi⟩ := I
  obtain ⟨lo', hi'⟩ := J
  obtain ⟨lo'', hi''⟩ := K
  cases hi <;> cases lo' <;> cases lo'' <;> simp only [Gap, loLe] at *
  omega

/-- **What is left of an interval** is the part below and the part above what it overlaps. -/
theorem mem_diff_iff (hIJ : ¬ Before I J) (hJI : ¬ Before J I) (x : ℤ) :
    x ∈ I.points \ J.points ↔ (∃ m, J.lo = some m ∧ x ∈ points ⟨I.lo, some m⟩) ∨
      ∃ u, J.hi = some u ∧ x ∈ points ⟨some u, I.hi⟩ := by
  obtain ⟨lo, hi⟩ := I
  obtain ⟨lo', hi'⟩ := J
  cases lo <;> cases hi <;> cases lo' <;> cases hi' <;>
    simp [points, Before, InLo, InHi] at * <;> omega

/-- Starting later: not before. -/
lemma not_before_of_loLe (hI : I.Proper) (h : loLe J.lo I.lo) : ¬ Before I J := by
  obtain ⟨lo, hi⟩ := I
  obtain ⟨lo', hi'⟩ := J
  cases lo <;> cases hi <;> cases lo' <;> simp [Before, Proper, loLe] at *
  omega

/-- What is left above the first one. -/
lemma Gap.above (h : Gap J K) (hK : K.Proper) (hIK : ¬ Before I K) :
    Proper ⟨J.hi, I.hi⟩ ∧ ¬ Before ⟨J.hi, I.hi⟩ K ∧ ¬ Before K ⟨J.hi, I.hi⟩ := by
  obtain ⟨lo, hi⟩ := I
  obtain ⟨lo', hi'⟩ := J
  obtain ⟨lo'', hi''⟩ := K
  cases hi <;> cases hi' <;> cases lo'' <;> cases hi'' <;>
    simp [Before, Gap, Proper] at * <;> omega

lemma Gap.loLe (h : Gap J K) (hJI : ¬ Before J I) : loLe I.lo K.lo := by
  obtain ⟨lo, hi⟩ := I
  obtain ⟨lo', hi'⟩ := J
  obtain ⟨lo'', hi''⟩ := K
  cases lo <;> cases hi' <;> cases lo'' <;> simp [Before, Gap, Interval.loLe] at *
  omega

lemma Gap.hi_loLe (h : Gap I J) : Interval.loLe I.hi J.lo := by
  obtain ⟨lo, hi⟩ := I
  obtain ⟨lo', hi'⟩ := J
  cases hi <;> cases lo' <;> simp only [Gap] at *
  exact h.le

/-- What is left below a removed interval is before what follows the gap. -/
lemma Gap.before_below {m : ℤ} (h : Gap J K) (hJ : J.Proper) (hlo : J.lo = some m) :
    Before ⟨I.lo, some m⟩ K := by
  obtain ⟨lo', hi'⟩ := J
  obtain ⟨lo'', hi''⟩ := K
  obtain rfl := hlo
  cases hi' <;> cases lo'' <;> simp only [Before, Gap, Proper] at *
  omega

lemma Before.hiLe (h : Before I J) (hJ : J.Proper) : hiLe I.hi J.hi := by
  obtain ⟨lo, hi⟩ := I
  obtain ⟨lo', hi'⟩ := J
  cases hi <;> cases lo' <;> cases hi' <;> simp only [Before, Proper, Interval.hiLe] at *
  omega

/-- Before: no shared point. -/
lemma Before.disjoint (h : Before I J) : Disjoint I.points J.points := by
  rw [Set.disjoint_left]
  exact fun x hI hJ => not_before_of_mem hI hJ h

/-- Later intervals lie above. -/
lemma Separated.above (h : Separated (I :: l)) {x y : ℤ} (hx : x ∈ I.points) (hy : y ∈ pointsOf l) :
    ∃ u, I.hi = some u ∧ x < u ∧ u < y := by
  obtain ⟨J, hJ, hyJ⟩ := hy
  exact ((pairwise_cons.mp h.gaps).1 J hJ).lt hx hyJ

/-- An interval that ends no later than the first of a separated list misses the others. -/
lemma Separated.disjoint_rest (h : Separated (J :: l)) (hhi : hiLe I.hi J.hi) :
    Disjoint I.points (pointsOf l) := by
  rw [Set.disjoint_left]
  intro x hx hrest
  obtain ⟨y, hy⟩ := proper_iff.mp (h.proper J mem_cons_self)
  obtain ⟨u, hu, -, hux⟩ := h.above hy hrest
  have hxu := hiLe_of_inHi hhi hx.2
  rw [hu] at hxu
  exact lt_asymm hux hxu

/-- Equal points, equal first start. -/
lemma Separated.lo_le (hl : Separated (I :: l)) (hr : Separated (J :: r))
    (h : pointsOf (I :: l) = pointsOf (J :: r)) : loLe J.lo I.lo := by
  cases hJ : J.lo with
  | none => trivial
  | some m =>
    -- every point is at or above the first start
    have hleast : ∀ x ∈ pointsOf (J :: r), m ≤ x := by
      intro x hx
      rw [pointsOf_cons] at hx
      rcases hx with hx | hx
      · have hlo := hx.1
        rwa [hJ] at hlo
      obtain ⟨u, -, hmu, hux⟩ := hr.above (low_mem (hr.proper J mem_cons_self) hJ) hx
      exact (hmu.trans hux).le
    obtain ⟨x, hx, hlow⟩ := exists_low (hl.proper I mem_cons_self) (m - 1)
    have hmx := hleast x (by rw [← h, pointsOf_cons]; exact .inl hx)
    rcases hlow with ⟨-, hle⟩ | hlow
    · omega
    · rw [hlow]
      exact hmx

/-- Equal points, equal first end. -/
lemma Separated.hi_le (hr : Separated (J :: r))
    (h : pointsOf (I :: l) = pointsOf (J :: r)) (hlo : I.lo = J.lo) : hiLe I.hi J.hi := by
  cases hJ : J.hi with
  | none => cases I.hi <;> trivial
  | some v =>
    have hv := high_mem (hr.proper J mem_cons_self) hJ
    -- the end of the second first interval is no point of either list
    have hnot : v ∉ pointsOf (J :: r) := by
      rw [pointsOf_cons]
      rintro (hin | hin)
      · have hhi := hin.2
        rw [hJ] at hhi
        exact lt_irrefl v hhi
      obtain ⟨u, hu, -, huv⟩ := hr.above hv hin
      cases hJ.symm.trans hu
      exact lt_irrefl _ huv
    rw [← h, pointsOf_cons] at hnot
    by_contra hlt
    refine hnot (.inl ⟨?_, ?_⟩)
    · rw [hlo]
      have hvlo := hv.1
      revert hvlo
      cases J.lo <;> simp only [InLo, imp_self]
      omega
    · revert hlt
      cases I.hi <;> simp only [hiLe, InHi, not_false_eq_true, imp_self]
      omega

/-- **Separated lists with the same points are the same.** Induction on both lists. -/
theorem Separated.ext (hl : Separated l) (hr : Separated r) (h : pointsOf l = pointsOf r) :
    l = r := by
  induction l generalizing r with
  | nil =>
    cases r with
    | nil => rfl
    | cons J r =>
      obtain ⟨x, hx⟩ := proper_iff.mp (hr.proper J mem_cons_self)
      rw [pointsOf_nil, pointsOf_cons] at h
      exact absurd (h ▸ (.inl hx : x ∈ J.points ∪ pointsOf r)) (Set.notMem_empty x)
  | cons I l ih =>
    cases r with
    | nil =>
      obtain ⟨x, hx⟩ := proper_iff.mp (hl.proper I mem_cons_self)
      rw [pointsOf_nil, pointsOf_cons] at h
      exact absurd (h ▸ (.inl hx : x ∈ I.points ∪ pointsOf l)) (Set.notMem_empty x)
    | cons J r =>
      have hlo : I.lo = J.lo := loLe_antisymm (hr.lo_le hl h.symm) (hl.lo_le hr h)
      have hhi : I.hi = J.hi := hiLe_antisymm (hr.hi_le h hlo) (hl.hi_le h.symm hlo.symm)
      obtain rfl := Interval.ext hlo hhi
      -- the rest is what is above the first interval
      have hrest : ∀ {l : List Interval}, Separated (I :: l) →
          pointsOf l = pointsOf (I :: l) \ I.points := by
        intro l hl
        ext x
        rw [pointsOf_cons]
        constructor
        · intro hx
          refine ⟨.inr hx, fun hxI => ?_⟩
          obtain ⟨u, -, hlt, hgt⟩ := hl.above hxI hx
          omega
        · rintro ⟨hx | hx, hnot⟩
          · exact absurd hx hnot
          · exact hx
      rw [ih hl.tail hr.tail (by rw [hrest hl, hrest hr, h])]

end Lists

end Interval

end Pos3ql.Foundation
