import Pos3ql.Numeric.Text

/-!
# Writing numerics, and reading them back

A value is written with all its integer digits and as many fraction digits as its display scale
says. The reader takes at most 2048 digits, and a value may have digits below its display scale,
which are not written.

* `decimalDigitAt`, `writeInteger`, `fmt`: as in the source.
* `shown`: the number that the written digits make up; `decimalDigitAt_eq` gives its digits.
* `text`, `render_text`: the written text is a decimal text.
* `Displayed`: the written digits are not too many and leave nothing out.
* **`text_conversion_iff`**: when reading and writing are faithful.

Source: `sql/numeric.rs` (`fmt`, `decimal_digit_at`).
-/

namespace Pos3ql

open Foundation List Positional

namespace Numeric

/-! ## Writing -/

/-- The decimal digit at a decimal weight. Source: `decimal_digit_at`. -/
def decimalDigitAt (n : Numeric) (dw : ℤ) : ℤ :=
  let baseW := dw / decDigits
  let within := (dw % decDigits).toNat
  let index := n.weight - baseW
  if index < 0 ∨ n.ndigits ≤ index then 0
  else ((fun v : ℤ => v.tdiv 10)^[within] (n.digits.getD index.toNat 0)).tmod 10

/-- The digits from a weight down to the point, without leading zeros. Source: the loop for the
integer part in `fmt`; the argument is one more than the weight. -/
def writeInteger (n : Numeric) : ℕ → Bool → List ℤ
  | 0, _ => []
  | dw + 1, started =>
    let d := n.decimalDigitAt dw
    if !started && d == 0 && 0 < dw then writeInteger n dw false
    else d :: writeInteger n dw true

/-- Source: `write_digit`. -/
def writeDigit (d : ℤ) : Char :=
  if d = 0 then '0' else if d = 1 then '1' else if d = 2 then '2' else if d = 3 then '3'
  else if d = 4 then '4' else if d = 5 then '5' else if d = 6 then '6' else if d = 7 then '7'
  else if d = 8 then '8' else '9'

/-- The decimal weight of the top place. Source: `hi_dweight`. -/
def hiDweight (n : Numeric) : ℤ := n.weight * decDigits + (decDigits - 1)

/-- The digits before the point. Source: the integer part in `fmt`. -/
def integerDigits (n : Numeric) : List ℤ :=
  if n.hiDweight < 0 then [0]
  else
    let written := n.writeInteger (n.hiDweight + 1).toNat false
    if written.isEmpty then [0] else written

/-- The digits after the point. Source: the fractional part in `fmt`. -/
def fractionDigits (n : Numeric) : List ℤ :=
  (range n.dscale).map fun i : ℕ => n.decimalDigitAt (-1 - (i : ℤ))

/-- Source: `fmt`. -/
def fmt (n : Numeric) : Text :=
  if n.isNan then "NaN".toList
  else if n.sign = .posInf then "Infinity".toList
  else if n.sign = .negInf then "-Infinity".toList
  else (if n.sign = .neg then ['-'] else []) ++ n.integerDigits.map writeDigit ++
    if 0 < n.dscale then '.' :: n.fractionDigits.map writeDigit else []

/-! ## Digits of numbers -/

section Digits

/-- A digit of a number in positional notation. Induction on the place. -/
lemma value_div_emod {b : ℤ} (hb : 0 < b) {l : List ℤ} (h : Proper b l) (j : ℕ) :
    Positional.value b l / b ^ j % b = l.getD j 0 := by
  induction j generalizing l with
  | zero =>
    cases l with
    | nil => simp
    | cons d l =>
      obtain ⟨hd, -⟩ := h.cons
      rw [pow_zero, Int.ediv_one, value_cons, Int.add_mul_emod_self_left,
        Int.emod_eq_of_lt hd.1 hd.2]
      rfl
  | succ j ih =>
    cases l with
    | nil => simp
    | cons d l =>
      obtain ⟨hd, hl⟩ := h.cons
      rw [pow_succ', ← Int.ediv_ediv_of_nonneg hb.le, value_cons,
        Int.add_mul_ediv_left _ _ hb.ne', Int.ediv_eq_zero_of_lt hd.1 hd.2, zero_add, ih hl]
      rfl

/-- The digits of a number, up to a number of places. Induction on the places. -/
lemma value_digits (N : ℤ) (k : ℕ) :
    Positional.value 10 ((range k).map fun j => N / 10 ^ j % 10) = N % 10 ^ k := by
  induction k with
  | zero => simp
  | succ k ih =>
    rw [range_succ, map_append, value_append, ih, length_map, length_range, map_singleton,
      value_cons,
      Positional.value_nil, mul_zero, add_zero, pow_succ]
    have hpos : (0 : ℤ) < 10 ^ k := by positivity
    have hfirst := Int.emod_add_mul_ediv N (10 ^ k)
    have hsecond := Int.emod_add_mul_ediv (N / 10 ^ k) 10
    have hwhole := Int.emod_add_mul_ediv N (10 ^ k * 10)
    rw [← Int.ediv_ediv_of_nonneg hpos.le] at hwhole
    nlinarith

lemma iterate_tdiv {v : ℤ} (hv : 0 ≤ v) (k : ℕ) : (fun v : ℤ => v.tdiv 10)^[k] v = v / 10 ^ k := by
  induction k with
  | zero => simp
  | succ k ih =>
    rw [Function.iterate_succ_apply', ih,
      Int.tdiv_eq_ediv_of_nonneg (Int.ediv_nonneg hv (by positivity)),
      Int.ediv_ediv_of_nonneg (by positivity), pow_succ]

end Digits

/-! ## The number that is shown -/

/-- The absolute value in units of the last written place, cut to an integer. -/
def shown (n : Numeric) : ℤ := ⌊n.magnitude * (10 : ℚ) ^ n.dscale⌋

section Shown

variable {n : Numeric}

section

variable (h : n.Finite)
include h

lemma Finite.baseDigit_eq (w : ℤ) :
    ⌊n.magnitude / 10000 ^ w⌋ % nbase =
    if n.weight - w < 0 ∨ n.ndigits ≤ n.weight - w then 0
    else n.digits.getD (n.weight - w).toNat 0 := by
  have hquotient : n.magnitude / 10000 ^ w = n.coefficient * 10000 ^ (n.exponent - w) := by
    unfold magnitude
    rw [zpow_sub₀ nbase_ne, mul_div_assoc]
  rw [hquotient]
  rcases le_or_gt n.exponent w with hle | hgt
  · -- the place is not below the last digit
    obtain ⟨j, hj⟩ := Int.eq_ofNat_of_zero_le (sub_nonneg.mpr hle)
    have hdiv : ⌊(n.coefficient : ℚ) * 10000 ^ (n.exponent - w)⌋ = n.coefficient / nbase ^ j := by
      rw [show n.exponent - w = -(j : ℤ) by omega, zpow_neg, ← div_eq_mul_inv]
      have hfloor := Rat.floor_intCast_div_natCast n.coefficient (10000 ^ j)
      push_cast at hfloor
      exact hfloor
    rw [hdiv]
    unfold coefficient
    rw [value_div_emod (by norm_num) h.proper.reverse]
    unfold exponent at hj
    unfold ndigits
    by_cases hout : n.weight - w < 0 ∨ (n.digits.length : ℤ) ≤ n.weight - w
    · rw [if_pos hout, getD_eq_default]
      rw [length_reverse]
      omega
    rw [if_neg hout]
    have hlt : j < n.digits.reverse.length := by
      rw [length_reverse]
      omega
    have hlt' : (n.weight - w).toNat < n.digits.length := by omega
    rw [getD_eq_getElem _ _ hlt, getD_eq_getElem _ _ hlt', getElem_reverse]
    congr 1
    omega
  · -- below the last digit
    obtain ⟨k, hk⟩ := Int.eq_ofNat_of_zero_le (by omega : 0 ≤ n.exponent - w - 1)
    have hwhole : (n.coefficient : ℚ) * 10000 ^ (n.exponent - w) =
        ((n.coefficient * nbase ^ k * nbase : ℤ) : ℚ) := by
      rw [show n.exponent - w = ((k + 1 : ℕ) : ℤ) by push_cast; omega, zpow_natCast]
      push_cast
      ring
    rw [hwhole, Int.floor_intCast, Int.mul_emod_left]
    unfold exponent at hgt
    unfold ndigits
    rw [if_pos (.inr (by omega))]

/-- **The decimal digits of the value.** The base digit is cut down place by place. -/
theorem Finite.decimalDigitAt_floor (dw : ℤ) :
    n.decimalDigitAt dw = ⌊n.magnitude / 10 ^ dw⌋ % 10 := by
  have hten : (10 : ℚ) ≠ 0 := by norm_num
  obtain ⟨k, hk⟩ := Int.eq_ofNat_of_zero_le (Int.emod_nonneg dw (by norm_num : (4 : ℤ) ≠ 0))
  have hk4 : k < 4 := by omega
  have hsplit : dw = 4 * (dw / 4) + k := by omega
  have hfloor : ⌊n.magnitude / 10 ^ dw⌋ = ⌊n.magnitude / 10000 ^ (dw / 4)⌋ / 10 ^ k := by
    conv_lhs => rw [hsplit]
    rw [zpow_add₀ hten, zpow_mul, ← div_div]
    have hcut := Int.floor_div_natCast (n.magnitude / 10000 ^ (dw / 4)) (10 ^ k)
    push_cast at hcut
    exact hcut
  have hbase := h.baseDigit_eq (dw / 4)
  set C := ⌊n.magnitude / 10000 ^ (dw / 4)⌋ with hC
  rw [hfloor]
  unfold decimalDigitAt
  simp only [show (decDigits : ℤ) = 4 from rfl]
  rw [hk, Int.toNat_natCast]
  by_cases hout : n.weight - dw / 4 < 0 ∨ n.ndigits ≤ n.weight - dw / 4
  · rw [if_pos hout] at hbase ⊢
    change C % 10000 = 0 at hbase
    interval_cases k <;> omega
  rw [if_neg hout] at hbase ⊢
  rw [← hbase]
  have hdigit : 0 ≤ C % 10000 := Int.emod_nonneg _ (by norm_num)
  rw [iterate_tdiv hdigit, Int.tmod_eq_emod_of_nonneg (Int.ediv_nonneg hdigit (by positivity))]
  interval_cases k <;> omega

lemma Finite.shown_nonneg : 0 ≤ n.shown :=
  Int.floor_nonneg.mpr (mul_nonneg h.magnitude_nonneg (by positivity))

lemma Finite.decimalDigitAt_eq (j : ℕ) :
    n.decimalDigitAt (j - n.dscale) = n.shown / 10 ^ j % 10 := by
  have hten : (10 : ℚ) ≠ 0 := by norm_num
  have hcut := Int.floor_div_natCast (n.magnitude * 10 ^ n.dscale) (10 ^ j)
  push_cast at hcut
  unfold shown
  rw [h.decimalDigitAt_floor, ← hcut]
  congr 2
  rw [zpow_sub₀ hten, zpow_natCast, zpow_natCast]
  field_simp

omit h in
/-- The integer part is written from its first nonzero digit on. Induction on the weight. -/
lemma writeInteger_started (n : Numeric) (k : ℕ) :
    n.writeInteger k true = (range k).reverse.map fun i : ℕ => n.decimalDigitAt (i : ℤ) := by
  induction k with
  | zero => rfl
  | succ k ih =>
    rw [range_succ, reverse_append, reverse_singleton, singleton_append, map_cons, ← ih]
    rfl

omit h in
/-- **Only zeros before the first written digit are left out**, and a lone zero is written.
Induction on the weight. -/
theorem writeInteger_spec (n : Numeric) (k : ℕ) :
    ∃ p,
      ((range (k + 1)).reverse.map fun i : ℕ => n.decimalDigitAt (i : ℤ)) =
        replicate p 0 ++ n.writeInteger (k + 1) false ∧
      n.writeInteger (k + 1) false ≠ [] ∧
      ((n.writeInteger (k + 1) false).length = 1 ∨
        ∀ d, (n.writeInteger (k + 1) false).head? = some d → d ≠ 0) := by
  induction k with
  | zero =>
    refine ⟨0, ?_, ?_, .inl ?_⟩ <;> simp [writeInteger]
  | succ k ih =>
    rw [range_succ, reverse_append, reverse_singleton, singleton_append, map_cons]
    by_cases hd : n.decimalDigitAt ((k + 1 : ℕ) : ℤ) = 0
    · have hstep : n.writeInteger (k + 1 + 1) false = n.writeInteger (k + 1) false := by
        rw [writeInteger, hd]
        rfl
      obtain ⟨p, hp, hne, hhead⟩ := ih
      rw [hstep]
      refine ⟨p + 1, ?_, hne, hhead⟩
      rw [hp, hd, replicate_succ, cons_append]
    have hstep : n.writeInteger (k + 1 + 1) false =
        n.decimalDigitAt ((k + 1 : ℕ) : ℤ) :: n.writeInteger (k + 1) true := by
      rw [writeInteger]
      exact if_neg (by rw [beq_eq_false_iff_ne.mpr hd]; exact Bool.false_ne_true)
    rw [hstep, writeInteger_started]
    refine ⟨0, rfl, cons_ne_nil _ _, .inr fun d hhead => ?_⟩
    exact Option.some.inj hhead ▸ hd

lemma Finite.magnitude_lt_hiDweight : n.magnitude < 10 ^ (n.hiDweight + 1) := by
  by_cases hne : n.digits = []
  · rw [magnitude_nil hne]
    positivity
  refine (h.weight_spec hne).2.trans_eq ?_
  rw [show (10000 : ℚ) = (10 : ℚ) ^ (4 : ℤ) by norm_num, ← zpow_mul]
  congr 1
  unfold hiDweight
  ring

lemma Finite.shown_lt {k : ℕ} (hk : n.hiDweight + 1 ≤ k) : n.shown < 10 ^ (n.dscale + k) := by
  have hle : (10 : ℚ) ^ (n.hiDweight + 1) ≤ 10 ^ k := by
    rw [← zpow_natCast]
    exact zpow_le_zpow_right₀ (by norm_num) hk
  unfold shown
  rw [Int.floor_lt]
  push_cast
  rw [pow_add, mul_comm ((10 : ℚ) ^ n.dscale)]
  exact mul_lt_mul_of_pos_right (h.magnitude_lt_hiDweight.trans_le hle) (by positivity)

lemma Finite.reverse_fractionDigits :
    n.fractionDigits.reverse = (range n.dscale).map fun j => n.shown / 10 ^ j % 10 := by
  refine ext_getElem (by simp [fractionDigits]) fun j hj hj' => ?_
  have hlt : j < n.dscale := by simpa using hj'
  rw [getElem_reverse]
  simp only [fractionDigits, getElem_map, getElem_range, length_map, length_range]
  rw [← h.decimalDigitAt_eq]
  congr 1
  push_cast [Nat.cast_sub (by omega : 1 ≤ n.dscale), Nat.cast_sub (by omega : j ≤ n.dscale - 1)]
  ring

lemma Finite.value_places {k : ℕ} (hk : n.hiDweight + 1 ≤ k) :
    Positional.value 10 (((range k).reverse.map fun i : ℕ => n.decimalDigitAt (i : ℤ)) ++
      n.fractionDigits).reverse = n.shown := by
  have hwhole : ((range k).map fun i : ℕ => n.decimalDigitAt (i : ℤ)) =
      ((range k).map (n.dscale + ·)).map fun j => n.shown / 10 ^ j % 10 := by
    rw [map_map]
    refine map_congr_left fun i _ => ?_
    rw [Function.comp_apply, ← h.decimalDigitAt_eq]
    congr 1
    push_cast
    ring
  rw [reverse_append, h.reverse_fractionDigits, ← map_reverse, reverse_reverse, hwhole,
    ← map_append, ← range_add, value_digits]
  exact Int.emod_eq_of_lt h.shown_nonneg (h.shown_lt hk)

/-- **The written digits make up the shown number.** The digits before the point start with a
nonzero one unless there is only one. -/
theorem Finite.integerDigits_spec :
    Positional.value 10 (n.integerDigits ++ n.fractionDigits).reverse = n.shown ∧
      n.integerDigits ≠ [] ∧
      (n.integerDigits.length = 1 ∨ ∀ d, n.integerDigits.head? = some d → d ≠ 0) := by
  unfold integerDigits
  by_cases hhi : n.hiDweight < 0
  · rw [if_pos hhi]
    refine ⟨?_, by simp, .inl rfl⟩
    have hplaces := @Finite.value_places n h 0 (by push_cast; omega)
    rw [range_zero, reverse_nil, map_nil, nil_append] at hplaces
    rw [reverse_append, value_append, hplaces]
    simp
  rw [if_neg hhi]
  obtain ⟨k, hk⟩ := Int.eq_ofNat_of_zero_le (not_lt.mp hhi)
  obtain ⟨p, hfull, hne, hhead⟩ := writeInteger_spec n k
  have hplaces := @Finite.value_places n h (k + 1) (by push_cast; omega)
  have hempty : (n.writeInteger (k + 1) false).isEmpty = false := by simpa using hne
  rw [show (n.hiDweight + 1).toNat = k + 1 by omega]
  simp only [hempty, Bool.false_eq_true, if_false]
  refine ⟨?_, hne, hhead⟩
  rw [hfull, append_assoc, reverse_append, reverse_replicate, value_append,
    value_zeros, mul_zero, add_zero] at hplaces
  exact hplaces

end

end Shown

/-! ## The written text -/

lemma integerDigits_ne_nil (n : Numeric) : n.integerDigits ≠ [] := by
  unfold integerDigits
  dsimp only
  split
  · exact cons_ne_nil _ _
  split
  · exact cons_ne_nil _ _
  · rename_i hne
    simpa using hne

/-- A digit of the text. -/
def asDigit (d : ℤ) : Fin 10 := Fin.ofNat 10 d.toNat

/-- **The decimal text that is written.** -/
def text (n : Numeric) : DecimalText where
  sign := if n.sign = .neg then some true else none
  whole := n.integerDigits.map asDigit
  fraction := if 0 < n.dscale then some (n.fractionDigits.map asDigit) else none
  exponent := none
  some_digit := by simp [n.integerDigits_ne_nil]
  exponent_digit e he := by cases he

section Text

variable {n : Numeric}

lemma asDigit_spec {d : ℤ} (h : 0 ≤ d ∧ d < 10) :
    ((asDigit d).val : ℤ) = d ∧ DecimalText.digitChar (asDigit d) = writeDigit d := by
  obtain ⟨hlow, hhigh⟩ := h
  interval_cases d <;> exact ⟨rfl, rfl⟩

lemma Finite.decimalDigitAt_range (h : n.Finite) (dw : ℤ) :
    0 ≤ n.decimalDigitAt dw ∧ n.decimalDigitAt dw < 10 := by
  rw [h.decimalDigitAt_floor]
  exact ⟨Int.emod_nonneg _ (by norm_num), Int.emod_lt_of_pos _ (by norm_num)⟩

lemma Finite.writeInteger_range (h : n.Finite) (k : ℕ) (started : Bool) :
    Proper 10 (n.writeInteger k started) := by
  induction k generalizing started with
  | zero => exact fun d hd => absurd hd (not_mem_nil)
  | succ k ih =>
    rw [writeInteger]
    split
    · exact ih false
    exact forall_mem_cons.mpr ⟨h.decimalDigitAt_range _, ih true⟩

lemma Finite.written_range (h : n.Finite) :
    Proper 10 n.integerDigits ∧ Proper 10 n.fractionDigits := by
  have hzero : Proper 10 [0] := by decide
  constructor
  · unfold integerDigits
    dsimp only
    split
    · exact hzero
    · split
      · exact hzero
      · exact h.writeInteger_range _ _
  · intro d hd
    obtain ⟨i, -, rfl⟩ := mem_map.mp hd
    exact h.decimalDigitAt_range _

lemma map_asDigit_chars {l : List ℤ} (h : Proper 10 l) :
    (l.map asDigit).map DecimalText.digitChar = l.map writeDigit := by
  rw [map_map]
  exact map_congr_left fun d hd => (asDigit_spec (h d hd)).2

lemma map_asDigit_val {l : List ℤ} (h : Proper 10 l) :
    ((l.map asDigit).map fun d => (d.val : ℤ)) = l := by
  rw [map_map]
  exact (map_congr_left fun d hd => (asDigit_spec (h d hd)).1).trans (map_id _)

lemma Finite.render_text (h : n.Finite) : n.text.render = n.fmt := by
  obtain ⟨hwhole, hfrac⟩ := h.written_range
  have hspec : ¬ n.sign = .posInf ∧ ¬ n.sign = .negInf := by
    rcases h.sign with hs | hs <;> simp [hs]
  unfold fmt DecimalText.render
  rw [h.isNan_eq, if_neg hspec.1, if_neg hspec.2, append_assoc]
  congr 1
  · unfold text
    split <;> rfl
  change (n.integerDigits.map asDigit).map DecimalText.digitChar ++ _ = _
  rw [map_asDigit_chars hwhole]
  congr 1
  unfold text DecimalText.exponentChars
  dsimp only
  split
  · rw [DecimalText.fractionChars, map_asDigit_chars hfrac, append_nil]
  · rfl

lemma Finite.digits_text (h : n.Finite) : n.text.digits = n.integerDigits ++ n.fractionDigits := by
  obtain ⟨hwhole, hfrac⟩ := h.written_range
  unfold DecimalText.digits text
  dsimp only
  rw [map_append, map_asDigit_val hwhole]
  congr 1
  split
  · exact map_asDigit_val hfrac
  · rename_i hzero
    simp [fractionDigits, Nat.eq_zero_of_not_pos hzero]

lemma length_fraction_text (n : Numeric) : (n.text.fraction.getD []).length = n.dscale := by
  unfold text
  dsimp only
  split
  · simp [fractionDigits]
  · rename_i hzero
    exact (Nat.eq_zero_of_not_pos hzero).symm

lemma Finite.value_text (h : n.Finite) :
    n.text.value * 10 ^ n.dscale = (if n.sign = .neg then -1 else 1) * n.shown := by
  have hsign : (if n.text.sign = some true then (-1 : ℚ) else 1) =
      if n.sign = .neg then -1 else 1 := by
    unfold text
    by_cases hs : n.sign = .neg <;> simp [hs]
  unfold DecimalText.value DecimalText.mantissa
  rw [hsign, h.digits_text, h.integerDigits_spec.1, length_fraction_text]
  have hscale : n.text.scale = 0 := rfl
  rw [hscale, zero_sub, zpow_neg, zpow_natCast]
  field_simp

/-- The text is short enough for the reader exactly when its number is. -/
lemma Finite.length_text_le (h : n.Finite) :
    ¬ maxNdigits * decDigits < n.text.digits.length ↔
      n.dscale < 2048 ∧ n.shown < 10 ^ 2048 := by
  obtain ⟨hvalue, hne, hhead⟩ := h.integerDigits_spec
  obtain ⟨hwhole, hfrac⟩ := h.written_range
  have hpos := length_pos_of_ne_nil hne
  have hcount : n.fractionDigits.length = n.dscale := by simp [fractionDigits]
  have hupper := (hwhole.append hfrac).reverse.value_lt (by norm_num)
  rw [hvalue, length_reverse, length_append] at hupper
  rw [h.digits_text, length_append, hcount, show maxNdigits * decDigits = 2048 from rfl]
  constructor
  · intro hle
    refine ⟨by omega, hupper.trans_le ?_⟩
    exact pow_le_pow_right₀ (by norm_num) (by omega)
  rintro ⟨hscale, hshown⟩
  rcases hhead with hone | hnonzero
  · omega
  -- the first digit is not zero
  obtain ⟨top, htop⟩ : ∃ top, n.integerDigits.head? = some top := by
    cases hi : n.integerDigits with
    | nil => exact absurd hi hne
    | cons top _ => exact ⟨top, rfl⟩
  have htop' : (n.integerDigits ++ n.fractionDigits).reverse.getLast? = some top := by
    rw [getLast?_reverse, head?_append, htop]
    rfl
  have hlower := (hwhole.append hfrac).reverse.le_value (by norm_num) htop' (hnonzero top htop)
  rw [hvalue, length_reverse, length_append, hcount] at hlower
  have hlt : (10 : ℤ) ^ (n.integerDigits.length + n.dscale - 1) < 10 ^ 2048 :=
    hlower.trans_lt hshown
  have hexp := (pow_lt_pow_iff_right₀ (by norm_num : (1 : ℤ) < 10)).mp hlt
  omega

end Text

/-! ## Reading back -/

/-- **A value that its text shows in full**: there are at most 2048 digits to write and none below
the display scale. -/
def Displayed (n : Numeric) : Prop :=
  n.dscale < 2048 ∧ |n.value| * (10 : ℚ) ^ n.dscale < (10 : ℚ) ^ 2048 ∧
    ∃ k : ℤ, n.value * (10 : ℚ) ^ n.dscale = k

section ReadBack

variable {n : Numeric}

lemma Finite.abs_value (h : n.Finite) : |n.value| = n.magnitude := by
  rcases h.sign with hs | hs
  · rw [value_of_pos hs, abs_of_nonneg h.magnitude_nonneg]
  · rw [value_of_neg hs, abs_neg, abs_of_nonneg h.magnitude_nonneg]

lemma Finite.value_eq_sign_mul (h : n.Finite) :
    n.value = (if n.sign = .neg then -1 else 1) * n.magnitude := by
  rcases h.sign with hs | hs <;> simp [value]

/-- Nothing is cut off exactly when the value is an integer in units of the last place. -/
lemma Finite.text_exact_iff (h : n.Finite) :
    n.text.value = n.value ↔ ∃ k : ℤ, n.value * 10 ^ n.dscale = k := by
  have hpow : (10 : ℚ) ^ n.dscale ≠ 0 := by positivity
  have hsign : (if n.sign = .neg then (-1 : ℚ) else 1) ≠ 0 := by split <;> norm_num
  have hscaled : n.text.value = n.value ↔ (n.shown : ℚ) = n.magnitude * 10 ^ n.dscale := by
    rw [← mul_left_inj' hpow, h.value_text, h.value_eq_sign_mul, mul_assoc, mul_right_inj' hsign]
  rw [hscaled]
  constructor
  · intro heq
    refine ⟨(if n.sign = .neg then -1 else 1) * n.shown, ?_⟩
    rw [h.value_eq_sign_mul, mul_assoc, ← heq]
    split <;> norm_num
  rintro ⟨k, hk⟩
  have habs : n.magnitude * 10 ^ n.dscale = ((|k| : ℤ) : ℚ) := by
    rw [← h.abs_value, Int.cast_abs, ← hk, abs_mul,
      abs_of_pos (by positivity : (0 : ℚ) < 10 ^ n.dscale)]
  unfold shown
  rw [habs, Int.floor_intCast]

lemma Finite.weightKept_text (h : n.Finite) (hscale : n.dscale < 2048) :
    n.text.value = 0 ∨ InRange n.text.value := by
  have hpos : (0 : ℚ) < 10 ^ n.dscale := by positivity
  have hvalue : |n.text.value| * 10 ^ n.dscale = n.shown := by
    have hsigned := h.value_text
    rw [← abs_of_pos hpos, ← abs_mul, hsigned, abs_mul]
    have hone : |(if n.sign = .neg then (-1 : ℚ) else 1)| = 1 := by split <;> norm_num
    rw [hone, one_mul, abs_of_nonneg (by exact_mod_cast h.shown_nonneg)]
  by_cases hzero : n.shown = 0
  · left
    rw [hzero] at hvalue
    exact abs_eq_zero.mp ((mul_eq_zero.mp hvalue).resolve_right hpos.ne')
  right
  have hone : 1 ≤ n.shown := by
    have hnonneg := h.shown_nonneg
    omega
  constructor
  · -- the last written place is far above the smallest weight
    have hsmall : (10000 : ℚ) ^ (-32768 : ℤ) * 10 ^ n.dscale ≤ 1 := by
      rw [show (10000 : ℚ) = (10 : ℚ) ^ (4 : ℤ) by norm_num, ← zpow_mul, ← zpow_natCast,
        ← zpow_add₀ (by norm_num)]
      exact zpow_le_one_of_nonpos₀ (by norm_num) (by omega)
    refine le_of_mul_le_mul_right (hsmall.trans ?_) hpos
    rw [hvalue]
    exact_mod_cast hone
  have hle : |n.text.value| ≤ n.magnitude := by
    refine le_of_mul_le_mul_right ?_ hpos
    rw [hvalue]
    exact Int.floor_le _
  by_cases hne : n.digits = []
  · rw [magnitude_nil hne] at hle
    exact hle.trans_lt (by positivity)
  · exact (hle.trans_eq h.abs_value.symm).trans_lt (h.fits_iff hne 0).1.2

/-- **When a value survives its text.** With room for its digits, every build reads the written text
back to the value and its display scale, exactly when the text shows the value in full. -/
theorem Finite.reads_back_iff (h : n.Finite) :
    (∀ build room, 2 * n.ndigits ≤ room → ∃ m, parse build n.fmt room = some (.ok m) ∧
        m.isSpecial = false ∧ m.value = n.value ∧ m.dscale = n.dscale) ↔ n.Displayed := by
  have hscale : n.text.scale = 0 := rfl
  have hover : ¬ maxI64 < n.text.power := by
    rw [show n.text.power = 0 from rfl]
    norm_num
  have hlen : n.text.digits.length = n.text.whole.length + n.dscale := by
    rw [← length_fraction_text]
    simp [DecimalText.digits]
  have hsteady : ¬ maxNdigits * decDigits < n.text.digits.length → n.text.Steady := by
    intro hshort
    rw [show maxNdigits * decDigits = 2048 from rfl] at hshort
    have hstart : (n.text.digits.takeWhile (· == 0)).length ≤ n.text.digits.length :=
      (takeWhile_sublist _).length_le
    unfold DecimalText.Steady PlacesFit
    rw [length_fraction_text, hscale, show maxI64 = 9223372036854775807 from rfl]
    omega
  have hlt : n.shown < 10 ^ 2048 ↔ |n.value| * 10 ^ n.dscale < 10 ^ 2048 := by
    unfold shown
    rw [Int.floor_lt, h.abs_value, Int.cast_pow, Int.cast_ofNat]
  have hdscale : ∀ m : ℕ, m = n.dscale → n.dscale < 2048 →
      (max ((n.text.fraction.getD []).length - n.text.scale) 0).toNat % 65536 = m := by
    rintro m rfl hsmall
    rw [length_fraction_text]
    omega
  unfold Displayed
  rw [← hlt, ← and_assoc, ← h.length_text_le, ← h.text_exact_iff]
  simp only [← h.render_text]
  constructor
  · intro hread
    obtain ⟨m, hm, -, hvalue, -⟩ := hread .checked (2 * n.ndigits) le_rfl
    have hshort : ¬ maxNdigits * decDigits < n.text.digits.length := by
      intro hlong
      rw [DecimalText.parse_render, if_pos hlong] at hm
      cases hm
    refine ⟨hshort, ?_⟩
    obtain ⟨r, hr, hiff, -⟩ :=
      DecimalText.parse_steady hshort hover (hsteady hshort) (2 * n.ndigits)
    obtain rfl := Option.some.inj ((hr .checked).symm.trans hm)
    have hkept := h.weightKept_text (h.length_text_le.mp hshort).1
    rcases hiff.mpr (hkept.elim .inl (fun hin => .inr (.inl hin))) with
        ⟨k, hk, hkvalue, -⟩ | ⟨herror, -⟩
    · cases hk
      rw [← hvalue, hkvalue]
    · cases herror
  rintro ⟨hshort, hexact⟩ build room hroom
  obtain ⟨r, hr, hiff, hcases⟩ := DecimalText.parse_steady hshort hover (hsteady hshort) room
  have hsmall := (h.length_text_le.mp hshort).1
  have hkept := h.weightKept_text hsmall
  have hcomputes := hiff.mpr (hkept.elim .inl (fun hin => .inr (.inl hin)))
  rw [hdscale _ rfl hsmall] at hcomputes hcases
  have hfits : Fits room n.text.value := by
    rw [hexact]
    by_cases hne : n.digits = []
    · exact .inl (value_nil hne)
    · exact (h.fits_iff hne _).2.mpr hroom
  rcases hcomputes with ⟨m, rfl, hvalue, hmscale⟩ | ⟨-, hnot⟩
  · refine ⟨m, hr build, ?_, hvalue.trans hexact, hmscale⟩
    rcases hcases with ⟨k, hk, hfin, -⟩ | herror
    · cases hk
      exact hfin.isSpecial_eq
    · cases herror
  · exact absurd hfits hnot

end ReadBack

/-- **When text conversion is faithful.** A decimal text is refused or read as the written number
exactly when it is faithful, and a finite value, with room for its digits, is read back from its
text exactly when the text shows it in full. Source: `parse`, `fmt`. -/
theorem text_conversion_iff (t : DecimalText) {n : Numeric} (hn : n.Finite) :
    ((∀ build room, ∃ r, parse build t.render room = some r ∧ DecimalText.ReadsAs t.value r) ↔
      t.Faithful) ∧
      ((∀ build room, 2 * n.ndigits ≤ room →
        ∃ m, parse build n.fmt room = some (.ok m) ∧ m.isSpecial = false ∧ m.value = n.value ∧
          m.dscale = n.dscale) ↔ n.Displayed) :=
  ⟨DecimalText.reads_iff, hn.reads_back_iff⟩

/-! ## A large exponent, and a long number -/

/-- The text `1e140000`. -/
def largeExponent : DecimalText where
  sign := none
  whole := [1]
  fraction := none
  exponent := some (false, none, [1, 4, 0, 0, 0, 0])
  some_digit := by decide
  exponent_digit e he := by
    cases he
    decide

/-- **The text `1e140000` is read as a number below one**, and ten to the 2400th, a value of one
digit, is written as a text that is refused. -/
theorem text_conversion_fails :
    (∃ n, parse .checked largeExponent.render 1024 = some (.ok n) ∧ n.value ≠ largeExponent.value) ∧
      (ofDigit 1 600).Finite ∧
        ∀ build room, parse build (ofDigit 1 600).fmt room = some (.error overflow) := by
  have hfin := ofDigit_finite (d := 1) (w := 600) (by norm_num) (by norm_num)
  refine ⟨⟨ofDigit 1 (-30536), by decide +kernel, fun heq => ?_⟩, hfin, fun build room => ?_⟩
  · have hsmall : (ofDigit 1 (-30536)).value < 1 := by
      rw [value_of_pos rfl]
      exact ((ofDigit_finite (d := 1) (w := -30536) (by norm_num) (by norm_num)).weight_spec
        (by simp [ofDigit])).2.trans_le (zpow_le_one_of_nonpos₀ (by norm_num) (by simp [ofDigit]))
    have hlarge : 1 ≤ largeExponent.value := by
      unfold DecimalText.value
      rw [show largeExponent.mantissa = 1 by decide, show largeExponent.scale = 140000 by decide,
        if_neg (by decide), Int.cast_one, one_mul, one_mul]
      exact one_le_zpow₀ (by norm_num) (by decide)
    rw [heq] at hsmall
    exact absurd hlarge (not_le.mpr hsmall)
  rw [← hfin.render_text, DecimalText.parse_render, if_pos]
  by_contra hshort
  have hshown := (hfin.length_text_le.mp hshort).2
  unfold shown at hshown
  rw [Int.floor_lt, Int.cast_pow, Int.cast_ofNat, show (ofDigit 1 600).dscale = 0 from rfl,
    pow_zero,
    mul_one] at hshown
  have hlarge := (hfin.weight_spec (by simp [ofDigit])).1
  rw [show (10000 : ℚ) = (10 : ℚ) ^ (4 : ℤ) by norm_num, ← zpow_mul] at hlarge
  have hle : (10 : ℚ) ^ 2048 ≤ 10 ^ (4 * (ofDigit 1 600).weight) := by
    rw [← zpow_natCast]
    exact zpow_le_zpow_right₀ (by norm_num) (by decide)
  exact absurd (hle.trans hlarge) (not_le.mpr hshown)

/-- Five survives its text. -/
theorem text_conversion_five :
    (ofDigit 5 0).Finite ∧ ∃ m, parse .checked (ofDigit 5 0).fmt 2 = some (.ok m) ∧
      m.isSpecial = false ∧ m.value = (ofDigit 5 0).value ∧ m.dscale = 0 := by
  have hfin := ofDigit_finite (d := 5) (w := 0) (by norm_num) (by norm_num)
  refine ⟨hfin,
    (text_conversion_iff largeExponent hfin).2.mpr ⟨by decide, ?_, 5, ?_⟩ .checked 2 le_rfl⟩
  · have hvalue : (ofDigit 5 0).value = 5 := by
      rw [value_of_integer rfl (by decide), show (ofDigit 5 0).coefficient = 5 by decide]
      rfl
    rw [hvalue, show (ofDigit 5 0).dscale = 0 from rfl, pow_zero, mul_one, abs_of_pos (by norm_num)]
    have hpow : (10 : ℚ) ^ 1 ≤ 10 ^ 2048 := pow_le_pow_right₀ (by norm_num) (by norm_num)
    rw [pow_one] at hpow
    exact lt_of_lt_of_le (by norm_num) hpow
  · rw [value_of_integer rfl (by decide), show (ofDigit 5 0).coefficient = 5 by decide,
      show (ofDigit 5 0).dscale = 0 from rfl, pow_zero, mul_one]

end Numeric

end Pos3ql
