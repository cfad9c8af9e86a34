import Pos3ql.Numeric.Display

/-!
# Comparing an integer with a numeric

The integer is split into base-10000 digits on the stack. Zero digits at the low end are shifted
out, but the digits are then read from the places they had before the shift, where the top digit has
been repeated.

* `splitDigits`, `shiftOut`, `fromI64Stack`, `compareNumericInt`: as in the source.
* `ofInt`: the value that the integer should become.
* `shiftOut_spec`: what the shifts leave behind.
* **`compare_int_exact_iff`**: when the comparison is the order of the numbers.

Source: `sql/numeric.rs` (`from_i64_stack`), `sql/eval/operators.rs` (`compare_numeric_int`).
-/

namespace Pos3ql

open Foundation List

namespace Numeric

/-! ## The integer on the stack -/

/-- The digits of a number, the least significant first; there are ten places. Source: the first
loop of `from_i64_stack`. -/
def splitDigits : ℕ → ℕ → List ℤ
  | 0, _ => []
  | places + 1, mag => if mag = 0 then [] else (mag % 10000 : ℕ) :: splitDigits places (mag / 10000)

/-- Shift out zeros at the low end. The places from the length on keep what they had. Source: the
second loop of `from_i64_stack`. -/
def shiftOut : ℕ → List ℤ → ℕ × List ℤ
  | 0, rev => (0, rev)
  | k + 1, rev =>
    if rev.getD 0 0 = 0 then shiftOut k ((rev.drop 1).take k ++ rev.drop k) else (k + 1, rev)

/-- Source: `from_i64_stack`. -/
def fromI64Stack (v : ℤ) : Numeric :=
  if v = 0 then ⟨.pos, 0, 0, []⟩
  else
    let rev := splitDigits 10 v.natAbs
    let n := rev.length
    let (baseLength, shifted) := shiftOut n rev
    ⟨if v < 0 then .neg else .pos, n - 1, 0,
      (range baseLength).map fun k => shifted.getD (n - 1 - k) 0⟩

/-- With the numeric on the left. Source: `compare_numeric_int`. -/
def compareNumericInt (n : Numeric) (v : ℤ) : Ordering := n.compare (fromI64Stack v)

/-- With the integer on the left. Source: `compare_numeric_int`. -/
def compareIntNumeric (v : ℤ) (n : Numeric) : Ordering := (fromI64Stack v).compare n

/-! ## The digits of the integer -/

/-- The digits without the zeros at the low end. -/
def significant (v : ℤ) : List ℤ := Positional.trimLow (splitDigits 10 v.natAbs)

/-- **The value of the integer.** -/
def ofInt (v : ℤ) : Numeric :=
  ⟨if v < 0 then .neg else .pos, (splitDigits 10 v.natAbs).length - 1, 0, (significant v).reverse⟩

section Digits

/-- With places enough these are the digits of the number. Induction on the places. -/
lemma splitDigits_eq_digits {places mag : ℕ} (h : mag < 10000 ^ places) :
    splitDigits places mag = (Nat.digits 10000 mag).map Nat.cast := by
  induction places generalizing mag with
  | zero =>
    obtain rfl : mag = 0 := by simpa using h
    rfl
  | succ places ih =>
    rw [splitDigits]
    split
    case isTrue hzero => rw [hzero, Nat.digits_zero, map_nil]
    case isFalse hzero =>
      rw [Nat.digits_def' (by norm_num) (Nat.pos_of_ne_zero hzero), map_cons,
        ih (Nat.div_lt_of_lt_mul (by rwa [pow_succ, mul_comm] at h))]

/-- The digits of a number, as digits in the base. -/
lemma value_map_cast (l : List ℕ) :
    Positional.value nbase (l.map Nat.cast) = (Nat.ofDigits 10000 l : ℕ) := by
  induction l with
  | nil => rfl
  | cons d l ih =>
    rw [map_cons, Positional.value_cons, ih, Nat.ofDigits_cons, Nat.cast_add, Nat.cast_mul]
    rfl

/-- The digits are proper and make up the number, and the last is not zero. -/
lemma splitDigits_spec {places mag : ℕ} (h : mag < 10000 ^ places) :
    Positional.Proper nbase (splitDigits places mag) ∧
      Positional.value nbase (splitDigits places mag) = mag ∧
      (∀ d, (splitDigits places mag).getLast? = some d → d ≠ 0) ∧
      (splitDigits places mag).length ≤ places ∧ (mag ≠ 0 → splitDigits places mag ≠ []) := by
  rw [splitDigits_eq_digits h, value_map_cast, Nat.ofDigits_digits, length_map]
  refine ⟨fun d hd => ?_, rfl, fun d hd => ?_, ?_, fun hne => ?_⟩
  · obtain ⟨n, hn, rfl⟩ := mem_map.mp hd
    have hlt : n < 10000 := Nat.digits_lt_base (by norm_num) hn
    change 0 ≤ (n : ℤ) ∧ (n : ℤ) < 10000
    omega
  · obtain ⟨n, hn, rfl⟩ : ∃ n, (Nat.digits 10000 mag).getLast? = some n ∧ (n : ℤ) = d := by
      simpa using hd
    have hne : Nat.digits 10000 mag ≠ [] := by
      intro hnil
      cases hnil ▸ hn
    rw [getLast?_eq_some_getLast hne, Option.some.injEq] at hn
    rw [← hn]
    exact_mod_cast Nat.getLast_digit_ne_zero 10000 (Nat.digits_ne_nil_iff_ne_zero.mp hne)
  · exact (Nat.digits_length_le_iff (by norm_num) mag).mpr h
  · simpa [Nat.digits_ne_nil_iff_ne_zero] using hne

end Digits

/-! ## The shifts -/

/-- The digits after some shifts: each is taken from above, and the top digit is repeated. -/
def smeared (rev : List ℤ) (t : ℕ) : List ℤ :=
  (range rev.length).map fun k => rev.getD (min (k + t) (rev.length - 1)) 0

section Shifts

variable {rev : List ℤ}

/-- The digit at a place after some shifts. -/
lemma getD_smeared {t k : ℕ} (hk : k < rev.length) :
    (smeared rev t).getD k 0 = rev.getD (min (k + t) (rev.length - 1)) 0 := by
  unfold smeared
  rw [getD_eq_getElem _ _ (by simpa using hk)]
  simp

/-- Before the first shift. -/
lemma smeared_zero : smeared rev 0 = rev := by
  refine ext_getElem (by simp [smeared]) fun k hk hk' => ?_
  rw [← getD_eq_getElem _ 0 hk, getD_smeared hk', ← getD_eq_getElem _ 0 hk', add_zero,
    min_eq_left (by omega)]

/-- One shift more. -/
lemma smeared_succ {t : ℕ} (ht : t + 1 ≤ rev.length) :
    ((smeared rev t).drop 1).take (rev.length - t - 1) ++
      (smeared rev t).drop (rev.length - t - 1) = smeared rev (t + 1) := by
  have hlen : (smeared rev t).length = rev.length := by simp [smeared]
  have hfirst : (((smeared rev t).drop 1).take (rev.length - t - 1)).length =
      rev.length - t - 1 := by
    rw [length_take, length_drop, hlen]
    omega
  refine ext_getElem ?_ fun k hk hk' => ?_
  · rw [length_append, hfirst, length_drop, hlen]
    simp only [smeared, length_map, length_range]
    omega
  have hk'' : k < rev.length := by simpa [smeared] using hk'
  have hright : (smeared rev (t + 1)).getD k 0 = rev.getD (min (k + (t + 1)) (rev.length - 1)) 0 :=
    getD_smeared hk''
  rw [getD_eq_getElem _ _ hk'] at hright
  rw [hright]
  by_cases hlow : k < rev.length - t - 1
  · rw [getElem_append_left (by omega), getElem_take, getElem_drop,
      ← getD_eq_getElem _ 0 (by omega), getD_smeared (by omega)]
    congr 2
    omega
  rw [getElem_append_right (by omega), getElem_drop,
    ← getD_eq_getElem _ 0 (by omega), getD_smeared (by omega)]
  congr 1
  omega

/-- **What the shifts leave behind.** Induction on the zeros that are still to be shifted out. -/
theorem shiftOut_spec {t z : ℕ} (hz : t + z < rev.length) (hzeros : ∀ k < t + z, rev.getD k 0 = 0)
    (hstop : rev.getD (t + z) 0 ≠ 0) :
    shiftOut (rev.length - t) (smeared rev t) = (rev.length - (t + z), smeared rev (t + z)) := by
  induction z generalizing t with
  | zero =>
    obtain ⟨k, hk⟩ : ∃ k, rev.length - t = k + 1 := ⟨rev.length - t - 1, by omega⟩
    rw [hk, shiftOut, if_neg, add_zero, hk]
    rw [getD_smeared (by omega), zero_add, min_eq_left (by omega)]
    exact hstop
  | succ z ih =>
    obtain ⟨k, hk⟩ : ∃ k, rev.length - t = k + 1 := ⟨rev.length - t - 1, by omega⟩
    have hk' : k = rev.length - t - 1 := by omega
    rw [hk, shiftOut, if_pos, hk', smeared_succ (by omega)]
    · have hnext := @ih (t + 1) (by omega) (fun j hj => hzeros j (by omega))
        (by rwa [show t + 1 + z = t + (z + 1) by ring])
      rw [show rev.length - t - 1 = rev.length - (t + 1) by omega, hnext,
        show t + 1 + z = t + (z + 1) by ring]
    · rw [getD_smeared (by omega), zero_add, min_eq_left (by omega)]
      exact hzeros t (by omega)

end Shifts

/-! ## Exactness -/

/-- **The integers that the stack keeps**: the last of the base-10000 digits is not zero, or all
digits are the same, the zeros at the low end apart. -/
def Kept (v : ℤ) : Prop :=
  v % 10000 ≠ 0 ∨
    ∀ d ∈ (Nat.digits 10000 v.natAbs).dropWhile (· == 0),
      ∀ e ∈ (Nat.digits 10000 v.natAbs).dropWhile (· == 0), d = e

section Exact

variable {v : ℤ}

section

variable (hv : -maxI64 - 1 ≤ v ∧ v ≤ maxI64)
include hv

/-- Ten places are enough. -/
lemma natAbs_lt : v.natAbs < 10000 ^ 10 := by
  rw [show maxI64 = 9223372036854775807 from rfl] at hv
  omega

/-- The significant digits are those of the number, without the zeros at the low end. -/
lemma significant_eq :
    significant v = ((Nat.digits 10000 v.natAbs).dropWhile (· == 0)).map Nat.cast := by
  rw [significant, splitDigits_eq_digits (natAbs_lt hv), Positional.trimLow, dropWhile_map]
  congr 2
  funext d
  simp

/-- The digits are zeros and the significant ones. -/
lemma significant_spec (hne : v ≠ 0) :
    ∃ t, splitDigits 10 v.natAbs = replicate t 0 ++ significant v ∧ significant v ≠ [] ∧
      (∀ d, (significant v).head? = some d → d ≠ 0) ∧
      ∀ d, (significant v).getLast? = some d → d ≠ 0 := by
  obtain ⟨-, hvalue, hlast, -, -⟩ := splitDigits_spec (natAbs_lt hv)
  obtain ⟨t, ht⟩ := Positional.exists_trimLow (splitDigits 10 v.natAbs)
  have hsome : significant v ≠ [] := by
    intro hnil
    unfold significant at hnil
    rw [ht, hnil, append_nil, Positional.value_zeros] at hvalue
    omega
  refine ⟨t, ht, hsome, fun d hd => Positional.trimLow_ne_zero hd, fun d hd => hlast d ?_⟩
  rw [ht, getLast?_append]
  change (((significant v).getLast?).or _) = _
  rw [hd]
  rfl

/-- The integer's value is well formed. -/
lemma ofInt_finite (hne : v ≠ 0) : (ofInt v).Finite := by
  obtain ⟨hproper, -, -, hlen, hsome⟩ := splitDigits_spec (natAbs_lt hv)
  obtain ⟨t, ht, -, hhead, hlast⟩ := significant_spec hv hne
  have hpos : 0 < (splitDigits 10 v.natAbs).length :=
    length_pos_of_ne_nil (hsome (Int.natAbs_ne_zero.mpr hne))
  have hsub : (significant v).Sublist (splitDigits 10 v.natAbs) := Positional.sublist_trimLow _
  have hle := hsub.length_le
  refine ⟨?_, ?_, ?_, ?_, ?_, fun d hd => hlast d ?_, fun d hd => hhead d ?_⟩
  · simp only [ofInt]
    split
    · exact .inr rfl
    · exact .inl rfl
  · simp only [ofInt]
    omega
  · simp [ofInt]
  · simp only [ofInt, length_reverse]
    rw [show maxNdigits = 512 from rfl]
    omega
  · exact (hproper.of_sublist hsub).reverse
  · simpa [ofInt] using hd
  · simpa [ofInt] using hd

/-- **Its number is the integer.** -/
theorem value_ofInt : (ofInt v).value = v := by
  obtain ⟨-, hvalue, -⟩ := splitDigits_spec (natAbs_lt hv)
  obtain ⟨t, ht⟩ := Positional.exists_trimLow (splitDigits 10 v.natAbs)
  have hlen := congrArg List.length ht
  rw [length_append, length_replicate] at hlen
  have hmagnitude : (ofInt v).magnitude = v.natAbs := by
    rw [show (v.natAbs : ℚ) = ((v.natAbs : ℤ) : ℚ) by norm_num, ← hvalue, ht,
      Positional.value_append, Positional.value_zeros, length_replicate]
    unfold magnitude coefficient exponent ofInt significant
    rw [reverse_reverse, length_reverse, hlen]
    push_cast
    rw [show (t : ℤ) + (Positional.trimLow (splitDigits 10 v.natAbs)).length - 1 + 1 -
      (Positional.trimLow (splitDigits 10 v.natAbs)).length = t by ring, zpow_natCast]
    ring
  by_cases hneg : v < 0
  · rw [value_of_neg (by simp [ofInt, hneg]), hmagnitude, Nat.cast_natAbs, abs_of_neg hneg]
    push_cast
    ring
  · rw [value_of_pos (by simp [ofInt, hneg]), hmagnitude, Nat.cast_natAbs,
      abs_of_nonneg (not_lt.mp hneg)]

/-- **The integer on the stack**: its own sign and weight, and digits that are taken from above the
significant ones. -/
theorem fromI64Stack_spec (hne : v ≠ 0) {t : ℕ}
    (ht : splitDigits 10 v.natAbs = replicate t 0 ++ significant v) :
    fromI64Stack v = { ofInt v with
      digits := (range (significant v).length).map fun k => (ofInt v).digits.getD (k - t) 0 } := by
  obtain ⟨-, -, hsome, hhead, -⟩ : ∃ t, splitDigits 10 v.natAbs = replicate t 0 ++ significant v ∧
      _ :=
    significant_spec hv hne
  have hpos := length_pos_of_ne_nil hsome
  set rev := splitDigits 10 v.natAbs with hrev
  have hlen : rev.length = t + (significant v).length := by
    rw [ht, length_append, length_replicate]
  -- the zeros, and the digit that stops the shifts
  have hzeros : ∀ k < 0 + t, rev.getD k 0 = 0 := fun k hk => by
    rw [ht, getD_append _ _ _ _ (by simpa using hk), getD_eq_getElem _ _ (by simpa using hk)]
    simp
  have habove : ∀ k, rev.getD (t + k) 0 = (significant v).getD k 0 := fun k => by
    rw [ht, getD_append_right _ _ _ _ (by simp), length_replicate, Nat.add_sub_cancel_left]
  have hstop : rev.getD (0 + t) 0 ≠ 0 := by
    rw [zero_add, ← add_zero t, habove]
    refine hhead _ ?_
    rw [getD_eq_getElem _ _ hpos, head?_eq_getElem?, getElem?_eq_getElem hpos]
  have hshift := @shiftOut_spec rev 0 t (by omega) hzeros hstop
  rw [smeared_zero, Nat.sub_zero, zero_add] at hshift
  unfold fromI64Stack
  rw [if_neg hne]
  simp only [← hrev, hshift]
  unfold ofInt
  simp only [← hrev, Numeric.mk.injEq, true_and]
  rw [show rev.length - t = (significant v).length by omega]
  refine map_congr_left fun k hk => ?_
  rw [mem_range] at hk
  have hk' : (significant v).length - 1 - (k - t) < (significant v).length := by omega
  rw [getD_smeared (by omega), getD_eq_getElem (significant v).reverse 0 (by simp; omega),
    getElem_reverse, ← getD_eq_getElem _ 0 hk', ← habove]
  congr 1
  omega

/-- The last digit is not zero: no zeros are shifted out. -/
lemma emod_ne_zero_iff (hne : v ≠ 0) {t : ℕ}
    (ht : splitDigits 10 v.natAbs = replicate t 0 ++ significant v) : v % nbase ≠ 0 ↔ t = 0 := by
  obtain ⟨hproper, hvalue, -⟩ := splitDigits_spec (natAbs_lt hv)
  obtain ⟨-, -, hsome, hhead, -⟩ : ∃ t, splitDigits 10 v.natAbs = replicate t 0 ++ significant v ∧
      _ :=
    significant_spec hv hne
  have hdvd : v % nbase = 0 ↔ (10000 : ℤ) ∣ (v.natAbs : ℤ) := by
    change v % 10000 = 0 ↔ _
    omega
  rw [Ne, hdvd, ← hvalue, ht]
  cases t with
  | zero =>
    obtain ⟨d, rest, hsig⟩ := exists_cons_of_ne_nil hsome
    have hprop : Positional.Proper nbase (d :: rest) := by
      rw [← hsig]
      exact hproper.of_sublist (Positional.sublist_trimLow _)
    rw [hsig]
    exact iff_of_true (value_low_ne_zero hprop (hhead d (by rw [hsig]; rfl))) rfl
  | succ t =>
    refine iff_of_false (not_not.mpr ?_) nofun
    rw [replicate_succ, cons_append, Positional.value_cons, zero_add]
    exact Dvd.intro _ rfl

omit hv in
/-- Digits taken from above are right only when there is nothing to take from, or they are all the
same. Induction on the place. -/
lemma taken_from_above_iff {l : List ℤ} {t : ℕ} :
    ((range l.length).map fun k => l.getD (k - t) 0) = l ↔
      t = 0 ∨ ∀ d ∈ l, ∀ e ∈ l, d = e := by
  have hents : ((range l.length).map fun k => l.getD (k - t) 0) = l ↔
      ∀ k < l.length, l.getD (k - t) 0 = l.getD k 0 := by
    constructor
    · intro heq k hk
      have hentry := congrArg (fun m : List ℤ => m.getD k 0) heq
      rw [getD_eq_getElem _ _ (by simpa using hk)] at hentry
      simpa using hentry
    · intro h
      refine ext_getElem (by simp) fun k hk hk' => ?_
      rw [getElem_map, getElem_range, h k hk', getD_eq_getElem _ _ hk']
  rw [hents]
  constructor
  · intro h
    by_cases hzero : t = 0
    · exact .inl hzero
    right
    have hfirst : ∀ k < l.length, l.getD k 0 = l.getD 0 0 := by
      intro k
      induction k using Nat.strong_induction_on with
      | _ k ih =>
        intro hk
        by_cases hk0 : k = 0
        · rw [hk0]
        · rw [← h k hk]
          exact ih (k - t) (by omega) (by omega)
    have hall : ∀ d ∈ l, d = l.getD 0 0 := fun d hd => by
      obtain ⟨k, hk, rfl⟩ := getElem_of_mem hd
      rw [← hfirst k hk, getD_eq_getElem _ _ hk]
    exact fun d hd e he => (hall d hd).trans (hall e he).symm
  · rintro (rfl | hall) k hk
    · rfl
    · rw [getD_eq_getElem _ _ (by omega : k - t < l.length), getD_eq_getElem _ _ hk]
      exact hall _ (getElem_mem _) _ (getElem_mem _)

/-- **The stack keeps the integer's value exactly when it is one that is kept.** -/
theorem fromI64Stack_eq_iff (hne : v ≠ 0) : fromI64Stack v = ofInt v ↔ Kept v := by
  obtain ⟨t, ht, -⟩ := significant_spec hv hne
  have hlen : (ofInt v).digits.length = (significant v).length := length_reverse
  have hiff := @taken_from_above_iff (ofInt v).digits t
  rw [hlen] at hiff
  rw [fromI64Stack_spec hv hne ht]
  unfold Kept
  rw [show v % 10000 = v % nbase from rfl, emod_ne_zero_iff hv hne ht]
  have hmem : (∀ d ∈ (ofInt v).digits, ∀ e ∈ (ofInt v).digits, d = e) ↔
      ∀ d ∈ (Nat.digits 10000 v.natAbs).dropWhile (· == 0),
        ∀ e ∈ (Nat.digits 10000 v.natAbs).dropWhile (· == 0), d = e := by
    simp only [ofInt, mem_reverse, significant_eq hv, forall_mem_map, Nat.cast_inj]
  rw [← hmem, ← hiff]
  constructor
  · exact fun heq => congrArg Numeric.digits heq
  · intro heq
    rw [heq]

/-- A kept integer has its value on the stack. -/
lemma Kept.finite (hkept : Kept v) : (fromI64Stack v).Finite ∧ (fromI64Stack v).value = v := by
  by_cases hne : v = 0
  · rw [hne]
    exact ⟨DecimalText.finite_zero (by norm_num), by rw [Int.cast_zero]; exact value_nil rfl⟩
  · rw [(fromI64Stack_eq_iff hv hne).mpr hkept]
    exact ⟨ofInt_finite hv hne, value_ofInt hv⟩

omit hv in
/-- Equal in order, equal digits. -/
lemma eq_of_lexOrder_eq {l r : List ℤ} (hl : Positional.Proper nbase l)
    (hr : Positional.Proper nbase r) (hlen : l.length = r.length)
    (h : Positional.lexOrder l r = .eq) :
    l = r := by
  rw [Positional.lexOrder_eq (by norm_num) hl hr hlen, compare_eq_iff_eq] at h
  have hreverse := Positional.Proper.ext (by norm_num) hl.reverse hr.reverse (by simpa using hlen) h
  simpa using hreverse

/-- Other digits compare as another number. -/
lemma compare_ofInt_ne (hne : v ≠ 0) {ds : List ℤ}
    (hds : Positional.Proper nbase ds) (hlen : ds.length = (ofInt v).digits.length)
    (hdiffer : ds ≠ (ofInt v).digits) : (ofInt v).compare { ofInt v with digits := ds } ≠ .eq := by
  have hfin := ofInt_finite hv hne
  obtain ⟨-, -, hsome, -⟩ : ∃ t, splitDigits 10 v.natAbs = replicate t 0 ++ significant v ∧ _ :=
    significant_spec hv hne
  have hdigits : (ofInt v).digits ≠ [] := by simpa [ofInt] using hsome
  have hother : ds ≠ [] := fun hnil => hdigits (length_eq_zero_iff.mp (by rw [← hlen, hnil]; rfl))
  have hzero : (ofInt v).isZero = false := by simpa using hfin.isZero_iff.not.mpr hdigits
  have hempty : ds.isEmpty = false := by simpa using hother
  have hmagnitude : (ofInt v).compareMagnitude { ofInt v with digits := ds } ≠ .eq := by
    intro heq
    unfold compareMagnitude at heq
    rw [if_neg (not_not.mpr rfl)] at heq
    simp only [ndigits, hlen, max_self, Positional.padded, Nat.sub_self, replicate_zero, append_nil]
      at heq
    exact hdiffer (eq_of_lexOrder_eq hfin.proper hds hlen.symm heq).symm
  unfold compare
  simp only [hfin.isSpecial_eq, hzero, Bool.false_and, Bool.false_eq_true, if_false]
  have hspec : Numeric.isSpecial { ofInt v with digits := ds } = (ofInt v).isSpecial := rfl
  have hotherZero : Numeric.isZero { ofInt v with digits := ds } = false := by
    simp [isZero, hempty]
  rw [hspec, hfin.isSpecial_eq, hotherZero]
  simp only [Bool.or_self, Bool.false_eq_true, if_false]
  rcases hfin.sign with hs | hs
  · simp only [hs]
    exact hmagnitude
  simp only [hs, if_true]
  intro hswap
  rw [Ordering.swap_eq_eq] at hswap
  exact hmagnitude hswap

/-- The integer's text is read as its value. -/
lemma parse_integer {t : DecimalText} (hfrac : t.fraction = none)
    (hexponent : t.exponent = none) (hvalue : t.value = v) {build : Build} {room : ℕ} {p : Numeric}
    (hp : parse build t.render room = some (.ok p)) : p.Finite ∧ p.value = v := by
  have hpower : t.power = 0 := by simp [DecimalText.power, hexponent]
  have hscale : t.scale = 0 := by simp [DecimalText.scale, hexponent, hpower]
  have hover : ¬ maxI64 < t.power := by
    rw [hpower]
    norm_num
  have hshort : ¬ maxNdigits * decDigits < t.digits.length := fun hlong => by
    rw [DecimalText.parse_render, if_pos hlong] at hp
    cases hp
  have hlen : t.digits.length = t.whole.length := by simp [DecimalText.digits, hfrac]
  have hsteady : t.Steady := by
    have hstart : (t.digits.takeWhile (· == 0)).length ≤ t.digits.length :=
      (takeWhile_sublist _).length_le
    rw [show maxNdigits * decDigits = 2048 from rfl] at hshort
    unfold DecimalText.Steady PlacesFit
    rw [hfrac, Option.getD_none, length_nil, show maxI64 = 9223372036854775807 from rfl]
    omega
  obtain ⟨r, hr, hiff, hcases⟩ := DecimalText.parse_steady hshort hover hsteady room
  obtain rfl := Option.some.inj ((hr build).symm.trans hp)
  have hkept : t.value = 0 ∨ InRange t.value := by
    rw [hvalue]
    by_cases hne : v = 0
    · exact .inl (by exact_mod_cast hne)
    right
    have hlow : (1 : ℚ) ≤ |(v : ℚ)| := by exact_mod_cast Int.one_le_abs hne
    have hhigh : |(v : ℚ)| < (10000 : ℚ) ^ (10 : ℤ) := by
      have hlt := natAbs_lt hv
      have habs : |v| < 10000 ^ 10 := by
        rw [Int.abs_eq_natAbs]
        exact_mod_cast hlt
      rw [show (10000 : ℚ) ^ (10 : ℤ) = ((10000 ^ 10 : ℤ) : ℚ) by norm_num]
      exact_mod_cast habs
    exact ⟨(zpow_le_one_of_nonpos₀ (by norm_num) (by norm_num)).trans hlow,
      hhigh.trans_le (zpow_le_zpow_right₀ (by norm_num) (by norm_num))⟩
  rcases hcases with ⟨k, hk, hfin, -⟩ | herror
  · cases hk
    rcases hiff.mpr (hkept.elim .inl fun hin => .inr (.inl hin)) with
        ⟨m, hm, hmvalue, -⟩ | ⟨herror, -⟩
    · cases hm
      exact ⟨hfin, hmvalue.trans hvalue⟩
    · cases herror
  · cases herror

end

/-- **When an integer is compared exactly.** With every finite value, on either side, the comparison
is the order of the numbers and agrees with comparing the integer's text read as a value, exactly
when the integer is one that the stack keeps. Source: `compare_numeric_int`. -/
theorem compare_int_exact_iff (hv : -maxI64 - 1 ≤ v ∧ v ≤ maxI64) :
    (∀ x : Numeric, x.Finite →
      x.compareNumericInt v = Ord.compare x.value (v : ℚ) ∧
      compareIntNumeric v x = Ord.compare (v : ℚ) x.value ∧
      ∀ t : DecimalText, t.fraction = none → t.exponent = none → t.value = v →
        ∀ build room p, parse build t.render room = some (.ok p) →
          x.compareNumericInt v = x.compare p ∧ compareIntNumeric v x = p.compare x) ↔ Kept v := by
  constructor
  · intro h
    by_cases hne : v = 0
    · right
      rw [hne]
      nofun
    by_contra hnot
    have hstack := (fromI64Stack_eq_iff hv hne).not.mpr hnot
    obtain ⟨t, ht, -⟩ := significant_spec hv hne
    have hspec := fromI64Stack_spec hv hne ht
    have hexact := (h (ofInt v) (ofInt_finite hv hne)).1
    rw [value_ofInt hv, compare_eq_iff_eq.mpr rfl] at hexact
    unfold compareNumericInt at hexact
    rw [hspec] at hexact hstack
    have hprop := (ofInt_finite hv hne).proper
    refine compare_ofInt_ne hv hne (fun d hd => ?_) ?_ (fun heq => hstack ?_) hexact
    · obtain ⟨k, -, rfl⟩ := mem_map.mp hd
      by_cases hk : k - t < (ofInt v).digits.length
      · rw [getD_eq_getElem _ _ hk]
        exact hprop _ (getElem_mem hk)
      · rw [getD_eq_default _ _ (not_lt.mp hk)]
        norm_num
    · simp [ofInt]
    · rw [heq]
  · intro hkept x hx
    obtain ⟨hfin, hvalue⟩ := hkept.finite hv
    have hleft : x.compareNumericInt v = Ord.compare x.value (v : ℚ) := by
      unfold compareNumericInt
      rw [hx.compare_eq hfin, hvalue]
    have hright : compareIntNumeric v x = Ord.compare (v : ℚ) x.value := by
      unfold compareIntNumeric
      rw [hfin.compare_eq hx, hvalue]
    refine ⟨hleft, hright, fun t hfrac hexponent htext build room p hp => ?_⟩
    obtain ⟨hpFinite, hpValue⟩ := parse_integer hv hfrac hexponent htext hp
    rw [hleft, hright, hx.compare_eq hpFinite, hpFinite.compare_eq hx, hpValue]
    exact ⟨rfl, rfl⟩

end Exact

/-- **The integer 100020000 is compared as 100010000**: it is below itself. -/
theorem compare_int_fails :
    (ofInt 100020000).Finite ∧ (ofInt 100020000).value = 100020000 ∧
      (ofInt 100020000).compareNumericInt 100020000 = .gt := by
  have hrange : -maxI64 - 1 ≤ (100020000 : ℤ) ∧ (100020000 : ℤ) ≤ maxI64 := by norm_num
  refine ⟨ofInt_finite hrange (by norm_num), ?_, by decide +kernel⟩
  rw [value_ofInt hrange]
  norm_num

/-- The integer 12345 is compared exactly. -/
theorem compare_int_exact_12345 :
    (ofDigit 2 0).compareNumericInt 12345 =
      Ord.compare (ofDigit 2 0).value ((12345 : ℤ) : ℚ) :=
  have hfin := ofDigit_finite (d := 2) (w := 0) (by norm_num) (by norm_num)
  ((compare_int_exact_iff (v := 12345) (by norm_num)).mpr (.inl (by decide)) _ hfin).1

end Numeric

end Pos3ql
