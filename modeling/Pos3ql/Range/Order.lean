import Pos3ql.Range.Multirange

/-!
# The order of ranges and multiranges

* `cmpMultiranges`: as in the source; ranges are compared by `cmpRanges`.
* `cmpRanges_eq_iff`, `cmpMultiranges_eq_iff`: canonical values compare equal when their integers
  agree.
* **`range_order`**: both orders are total preorders with the empty value first, in which equal
  values are those of the same integers.

Source: `sql/range.rs`.
-/

namespace Pos3ql.Parsed

open Foundation List Option

/-- Source: `cmp_multiranges`. -/
def cmpMultiranges (a b : List Parsed) : Ordering := List.compareLex cmpRanges a b

section

variable {kind : RangeKind} {p q : Parsed} {a b m : List Parsed}

instance : Std.TransCmp cmpMultiranges := inferInstanceAs (Std.TransCmp (List.compareLex cmpRanges))

lemma map_eq_of_cmpBound {v w : Option ℤ} {i j lower : Bool} (h : cmpBound v i w j lower = .eq)
    (f : ℤ → Bool → ℤ) : v.map (f · i) = w.map (f · j) := by
  rcases v with _ | v <;> rcases w with _ | w
  case some.some =>
    rw [cmpBound_eq_compare] at h
    obtain ⟨rfl, rfl⟩ : v = w ∧ i = j := by
      cases i <;> cases j <;> cases lower <;> simp at h ⊢ <;> omega
    rfl
  all_goals cases lower <;> simp [cmpBound] at h ⊢

/-- Members compare equal only when they are the same. -/
lemma Member.eq_of_cmpRanges (hp : Member kind p) (hq : Member kind q) (h : cmpRanges p q = .eq) :
    p = q := by
  rw [cmpRanges_eq, hp.nonempty, hq.nonempty] at h
  obtain ⟨hlower, hupper⟩ := Ordering.then_eq_eq.mp h
  refine hp.ext hq ?_
  unfold toInterval
  rw [map_eq_of_cmpBound hlower, map_eq_of_cmpBound hupper]

lemma CanonicalMultirange.eq_of_cmpMultiranges (ha : CanonicalMultirange kind a)
    (hb : CanonicalMultirange kind b) (h : cmpMultiranges a b = .eq) : a = b := by
  induction a generalizing b with
  | nil => cases b with
    | nil => rfl
    | cons q b => cases h
  | cons p a ih => cases b with
    | nil => cases h
    | cons q b =>
      obtain ⟨hhead, hrest⟩ := Ordering.then_eq_eq.mp (List.compareLex_cons_cons.symm.trans h)
      rw [(ha.members p mem_cons_self).eq_of_cmpRanges (hb.members q mem_cons_self) hhead,
        ih ha.tail hb.tail hrest]

/-- Canonical multiranges compare equal exactly when they have the same integers. -/
lemma cmpMultiranges_eq_iff (ha : CanonicalMultirange kind a) (hb : CanonicalMultirange kind b) :
    cmpMultiranges a b = .eq ↔ pointsOf a = pointsOf b := by
  constructor
  · intro h
    rw [ha.eq_of_cmpMultiranges hb h]
  · intro h
    rw [ha.ext hb h]
    exact Std.ReflCmp.compare_self

/-- The multirange of one range. -/
def single (p : Parsed) : List Parsed := bif p.empty then [] else [p]

lemma pointsOf_single (p : Parsed) : pointsOf (single p) = p.points := by
  unfold single
  rcases he : p.empty with _ | _
  · simp [pointsOf]
  · rw [points_empty he]
    exact pointsOf_nil

lemma Canonical.single (hp : Canonical kind p) : CanonicalMultirange kind (single p) := by
  unfold Parsed.single
  rcases he : p.empty with _ | _
  · exact ⟨by simpa using ⟨hp, he⟩, pairwise_singleton _ _⟩
  · exact ⟨by simp, .nil⟩

/-- **Canonical ranges compare equal exactly when they have the same integers.** -/
lemma cmpRanges_eq_iff (hp : Canonical kind p) (hq : Canonical kind q) :
    cmpRanges p q = .eq ↔ p.points = q.points := by
  rw [← pointsOf_single p, ← pointsOf_single q, ← cmpMultiranges_eq_iff hp.single hq.single]
  unfold Parsed.single cmpMultiranges
  rcases hpe : p.empty with _ | _ <;> rcases hqe : q.empty with _ | _ <;>
    simp [cmpRanges_eq p, hpe, hqe, List.compareLex]
  cases cmpBounds p q <;> simp

lemma canonical_ok (h : Valid kind p) (hq : canonical kind p = .ok q) :
    Canonical kind q ∧ q.points = p.points := by
  rcases canonical_sound h with ⟨r, hr, hcan, hpts, -⟩ | ⟨-, ⟨-, herr⟩ | ⟨-, _, herr⟩⟩
  · cases hq.symm.trans hr
    exact ⟨hcan, hpts⟩
  · cases hq.symm.trans herr
  · cases hq.symm.trans herr

end

/-- **The order of ranges and multiranges.** Both are total preorders with the empty value first,
and after canonicalization values compare equal exactly when they have the same integers. -/
theorem range_order (kind : RangeKind) :
    Std.TransCmp cmpRanges ∧ Std.TransCmp cmpMultiranges ∧
      (∀ p q : Parsed, p.empty = true → q.empty = false → cmpRanges p q = .lt) ∧
      (∀ p m, cmpMultiranges [] (p :: m) = .lt) ∧
      (∀ p q cp cq, Valid kind p → Valid kind q → canonical kind p = .ok cp →
        canonical kind q = .ok cq → (cmpRanges cp cq = .eq ↔ p.points = q.points)) ∧
      ∀ a b ca cb, (∀ p ∈ a, Member kind p) → (∀ q ∈ b, Member kind q) →
        canonicalizeMultirange kind a = .ok ca → canonicalizeMultirange kind b = .ok cb →
        (cmpMultiranges ca cb = .eq ↔ pointsOf a = pointsOf b) := by
  refine ⟨inferInstance, inferInstance, ?_, fun _ _ => rfl, ?_, ?_⟩
  · intro p q hp hq
    rw [cmpRanges_eq, hp, hq]
    rfl
  · intro p q cp cq hp hq hcp hcq
    obtain ⟨hcanp, hp⟩ := canonical_ok hp hcp
    obtain ⟨hcanq, hq⟩ := canonical_ok hq hcq
    rw [cmpRanges_eq_iff hcanp hcanq, hp, hq]
  · intro a b ca cb ha hb hca hcb
    obtain ⟨m, hm, hcana, ha⟩ := canonicalizeMultirange_spec ha
    obtain ⟨n, hn, hcanb, hb⟩ := canonicalizeMultirange_spec hb
    cases hca.symm.trans hm
    cases hcb.symm.trans hn
    rw [cmpMultiranges_eq_iff hcana hcanb, ha, hb]

/-- **Over the values of the type alone equality fails**: all numbers and those from the least
`int4` on have the same `int4` values, but the first is smaller. -/
theorem range_order_over_values_fails :
    Canonical .int4 (ofBounds none false none false) ∧
      Canonical .int4 (ofBounds (some (-2147483648)) true none false) ∧
      (∀ x, RangeKind.int4.Element x →
        (x ∈ (ofBounds none false none false).points ↔
          x ∈ (ofBounds (some (-2147483648)) true none false).points)) ∧
      cmpRanges (ofBounds none false none false)
        (ofBounds (some (-2147483648)) true none false) = .lt := by
  refine ⟨⟨fun h => (by cases h), rfl, rfl, fun _ => rfl⟩,
    ⟨fun h => (by cases h), ⟨by simp [RangeKind.Element], .inl rfl⟩, rfl, fun _ => rfl⟩, ?_, rfl⟩
  intro x hx
  simp [points, ofBounds, hx.1]

/-- The numbers from one to five and those above zero and below six. -/
theorem range_order_one_five :
    cmpRanges (int4Range 1 6) (int4Range 1 6) = .eq ↔
      (int4Range 1 6).points = (ofBounds (some 0) false (some 5) true).points := by
  refine (range_order .int4).2.2.2.2.1 _ _ _ _ ⟨?_, ?_⟩ ⟨?_, ?_⟩ rfl rfl <;>
    intro v hv <;> cases hv <;>
    simp [RangeKind.Element]

end Pos3ql.Parsed
