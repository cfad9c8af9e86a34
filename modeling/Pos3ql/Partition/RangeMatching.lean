import Pos3ql.Partition.Routing

/-!
# What a range bound matches

A range bound is meant for the tuples without a NULL that are at or above its lower and below its
upper tuple, column by column. The comparison ends at the first column that differs, so a NULL
behind that column is not seen: a tuple whose columns before its first NULL already lie strictly
between the bounds is matched.

* `ColumnStands`, `FirstDiffers`, `AllEqual`, `InBounds`: what the bound is meant for, in its own
  order; `compareBound_eq_iff` says that the code compares by it.
* `compareKey_differs_iff`, `compareKey_eq_iff`: the comparison of a tuple with one of the bounds.
* **`range_bound_matches_iff`**, `null_in_range_partition`.

Source: `storage/mod.rs` (`partition_bound_matches`), `storage/partition_rows.rs` (`matches`).
-/

namespace Pos3ql

open List Except Option

variable {K : Type} [KeyType K] {key : List (KeyDatum K)} {tuple : List (PartitionBoundValue K)}

/-! ## The order of tuples -/

/-- **How a value stands to a column of a bound**: above MINVALUE, below MAXVALUE, and to another
value as the two compare. -/
inductive ColumnStands (value : KeyDatum K) : Ordering → PartitionBoundValue K → Prop
  | aboveMin : ColumnStands value .gt .minValue
  | belowMax : ColumnStands value .lt .maxValue
  | compared {o : Ordering} {bound : KeyDatum K} (h : value.compareDatums bound = .ok o) :
      ColumnStands value o (.value bound)

/-- **The first column that differs** differs in this way; the columns after it are not looked
at. -/
inductive FirstDiffers (o : Ordering) : List (KeyDatum K) → List (PartitionBoundValue K) → Prop
  | here {value : KeyDatum K} {bound : PartitionBoundValue K} {key tuple}
    (h : ColumnStands value o bound) :
      FirstDiffers o (value :: key) (bound :: tuple)
  | later {value : KeyDatum K} {bound : PartitionBoundValue K} {key tuple}
      (h : ColumnStands value .eq bound) (hrest : FirstDiffers o key tuple) :
      FirstDiffers o (value :: key) (bound :: tuple)

/-- No column differs. -/
def AllEqual (key : List (KeyDatum K)) (tuple : List (PartitionBoundValue K)) : Prop :=
  Forall₂ (ColumnStands · .eq ·) key tuple

/-- **What a range bound is meant for**: no NULL, at or above the lower tuple, below the upper. -/
def InBounds (lower upper : List (PartitionBoundValue K)) (key : List (KeyDatum K)) : Prop :=
  .null ∉ key ∧ (AllEqual key lower ∨ FirstDiffers .gt key lower) ∧ FirstDiffers .lt key upper

/-- The columns before the first NULL. -/
def beforeNull (key : List (KeyDatum K)) : List (KeyDatum K) := key.takeWhile (· != .null)

/-- Without a NULL these are all the columns. -/
lemma beforeNull_of_notMem (h : .null ∉ key) : beforeNull key = key :=
  takeWhile_eq_self_iff.mpr fun _ hvalue => bne_iff_ne.mpr fun heq => h (heq ▸ hvalue)

/-- The comparison of the code agrees with the order. -/
lemma compareBound_eq_iff {o : Ordering} {value : KeyDatum K} {bound : PartitionBoundValue K} :
    compareBound value bound = .ok o ↔ ColumnStands value o bound := by
  constructor
  · intro h
    cases bound with
    | minValue =>
      cases h
      exact .aboveMin
    | maxValue =>
      cases h
      exact .belowMax
    | value bound => exact .compared h
  · rintro (_ | _ | h)
    · rfl
    · rfl
    · exact h

/-- A column more: it differs in this way, or it does not and the rest does. -/
lemma firstDiffers_cons {o : Ordering} {value : KeyDatum K} {bound : PartitionBoundValue K} :
    FirstDiffers o (value :: key) (bound :: tuple) ↔
      ColumnStands value o bound ∨ ColumnStands value .eq bound ∧ FirstDiffers o key tuple := by
  constructor
  · rintro (h | ⟨h, hrest⟩)
    · exact .inl h
    · exact .inr ⟨h, hrest⟩
  · rintro (h | ⟨h, hrest⟩)
    · exact .here h
    · exact .later h hrest

/-! ## The comparison with a bound -/

/-- The first column decides unless it is equal. -/
lemma compareKey_cons_eq {value : KeyDatum K} {bound : PartitionBoundValue K}
    (hvalue : value ≠ .null) :
    compareKey (value :: key) (bound :: tuple) = (compareBound value bound).bind fun first =>
      if first ≠ .eq then .ok (some first) else compareKey key tuple := by
  rw [compareKey, if_neg hvalue]
  rfl

/-- **A comparison that ends early** looked only at columns before the first NULL. Induction on the
columns. -/
theorem compareKey_differs_iff {o : Ordering} (ho : o ≠ .eq) :
    compareKey key tuple = .ok (some o) ↔ FirstDiffers o (beforeNull key) tuple := by
  have hend : some Ordering.eq ≠ some o := fun h => ho (some.inj h).symm
  induction key generalizing tuple with
  | nil => exact iff_of_false (fun h => hend (ok.inj h)) fun h => nomatch h
  | cons value key ih =>
    rcases tuple with _ | ⟨bound, tuple⟩
    · have hnil : ∀ key, ¬FirstDiffers (K := K) o key [] := fun key h => nomatch h
      exact iff_of_false (fun h => hend (ok.inj h)) (hnil _)
    unfold beforeNull
    by_cases hvalue : value = .null
    · rw [compareKey, if_pos hvalue, takeWhile_cons_of_neg (by simp [hvalue])]
      exact iff_of_false (fun h => nomatch ok.inj h) nofun
    rw [compareKey_cons_eq hvalue, takeWhile_cons_of_pos (by simpa using hvalue), firstDiffers_cons,
      ← compareBound_eq_iff, ← compareBound_eq_iff]
    rcases compareBound value bound with e | first
    · exact iff_of_false nofun (by simp)
    show (if first ≠ .eq then _ else _) = _ ↔ _
    by_cases hfirst : first = .eq
    · subst hfirst
      rw [if_neg (by simp)]
      refine ih.trans ⟨fun h => .inr ⟨rfl, h⟩, ?_⟩
      rintro (hfirst | ⟨-, h⟩)
      · exact absurd (ok.inj hfirst).symm ho
      · exact h
    · rw [if_pos hfirst]
      simp [hfirst]

/-- **A comparison that reaches the end** found no NULL and no difference. Induction on the
columns. -/
theorem compareKey_eq_iff (hlength : tuple.length = key.length) :
    compareKey key tuple = .ok (some .eq) ↔ .null ∉ key ∧ AllEqual key tuple := by
  induction key generalizing tuple with
  | nil =>
    obtain rfl := length_eq_zero_iff.mp hlength
    exact iff_of_true rfl ⟨not_mem_nil, .nil⟩
  | cons value key ih =>
    rcases tuple with _ | ⟨bound, tuple⟩
    · cases hlength
    by_cases hvalue : value = .null
    · rw [compareKey, if_pos hvalue]
      exact iff_of_false (fun h => nomatch ok.inj h) fun h => h.1 (hvalue ▸ mem_cons_self)
    have hnull : KeyDatum.null ∉ value :: key ↔ .null ∉ key := by
      rw [mem_cons, not_or, and_iff_right (Ne.symm hvalue)]
    rw [compareKey_cons_eq hvalue, hnull, AllEqual, forall₂_cons, ← compareBound_eq_iff]
    rcases compareBound value bound with e | first
    · exact iff_of_false nofun fun h => nomatch h.2.1
    show (if first ≠ .eq then _ else _) = _ ↔ _
    by_cases hfirst : first = .eq
    · subst hfirst
      rw [if_neg (by simp), ih (Nat.succ.inj hlength), and_iff_right rfl]
      rfl
    · rw [if_pos hfirst]
      exact iff_of_false (fun h => hfirst (some.inj (ok.inj h))) fun h => hfirst (ok.inj h.2.1)

/-- Not below: equal or above. -/
lemma ne_lt_iff {r : Except SqlError (Option Ordering)} :
    (∃ o, r = .ok (some o) ∧ o ≠ .lt) ↔ r = .ok (some .eq) ∨ r = .ok (some .gt) := by
  constructor
  · rintro ⟨_ | _ | _, rfl, ho⟩
    · exact absurd rfl ho
    · exact .inl rfl
    · exact .inr rfl
  · rintro (rfl | rfl)
    · exact ⟨_, rfl, by decide⟩
    · exact ⟨_, rfl, by decide⟩

/-- **Range matching.** A range bound matches exactly the rows whose key is in its range, except for
the keys with a NULL whose columns before the first NULL lie strictly between the bounds: those are
matched as well. -/
theorem range_bound_matches_iff (keys : List ℕ) (lower upper : List (PartitionBoundValue K))
    (values key : List (KeyDatum K)) (hkey : keyOf ⟨.range, keys⟩ values = .ok key)
    (hlower : lower.length = key.length) :
    (matched (partitionBoundMatches ⟨.range, keys⟩ (.range lower upper) values) = true ↔
      InBounds lower upper key) ↔
      ¬(.null ∈ key ∧ FirstDiffers .gt (beforeNull key) lower ∧
        FirstDiffers .lt (beforeNull key) upper) := by
  have hmatched :
      matched (partitionBoundMatches ⟨.range, keys⟩ (.range lower upper) values) = true ↔
      (.null ∉ key ∧ AllEqual key lower ∨ FirstDiffers .gt (beforeNull key) lower) ∧
        FirstDiffers .lt (beforeNull key) upper := by
    unfold partitionBoundMatches
    rw [hkey, ← compareKey_eq_iff hlower, ← compareKey_differs_iff (by decide),
      ← compareKey_differs_iff (by decide), ← ne_lt_iff]
    exact matched_range
  rw [hmatched]
  unfold InBounds
  by_cases hnull : .null ∈ key
  · simp only [hnull, not_true_eq_false, false_and, false_or, true_and, iff_false]
  · rw [beforeNull_of_notMem hnull]
    simp only [hnull, not_false_eq_true, true_and, false_and]

/-- A NULL behind a column that is inside: `(3, NULL)` is matched between `(1, 1)` and `(5, 5)`. -/
theorem null_in_range_partition :
    (let key : List (KeyDatum Bool) := [.int4 3, .null]
     let lower : List (PartitionBoundValue Bool) := [.value (.int4 1), .value (.int4 1)]
     let upper : List (PartitionBoundValue Bool) := [.value (.int4 5), .value (.int4 5)]
     matched (partitionBoundMatches ⟨.range, [0, 1]⟩ (.range lower upper) key) = true ∧
      ¬InBounds lower upper key) :=
  ⟨by decide, fun h => h.1 (by decide)⟩

/-- A tuple without a NULL. -/
theorem range_bound_matches_pair :
    (let key : List (KeyDatum Bool) := [.int4 1, .int4 2]
     let lower : List (PartitionBoundValue Bool) := [.value (.int4 1), .minValue]
     let upper : List (PartitionBoundValue Bool) := [.value (.int4 1), .maxValue]
     matched (partitionBoundMatches ⟨.range, [0, 1]⟩ (.range lower upper) key) = true ↔
      InBounds lower upper key) :=
  (range_bound_matches_iff [0, 1] _ _ _ _ rfl rfl).mpr fun h => absurd h.1 (by decide)

end Pos3ql
