import Pos3ql.Foundation.Positional
import Pos3ql.SqlError

/-!
# The numeric format

A `NUMERIC` is a sign, digits in base 10000 with the most significant first, the weight of the first
digit and a display scale. Weights are 16-bit signed numbers, display scales 16-bit unsigned ones,
and there are at most 512 digits.

* `Numeric`, with the fields of the source; `Finite`: what the type can hold as a finite value.
* `Numeric.value`: the rational number; `Finite.weight_spec` puts a nonzero one between two powers.
* `compareMagnitude`, `compare`; **`compareMagnitude_eq`**, **`compare_eq`**.
* `Short`, `InRange`, `Fits`: the rational numbers the format has room for.

Digits are stored as pairs of bytes; the model has the numbers. Source: `sql/numeric.rs`.
-/

namespace Pos3ql

open Foundation List Positional

/-- Source: `Sign`. -/
inductive Sign
  | pos
  | neg
  | posInf
  | negInf
  | nan
  deriving DecidableEq, Repr

/-- Source: `NBASE`. -/
abbrev nbase : ℤ := 10000

/-- Source: `DEC_DIGITS`. -/
abbrev decDigits : ℕ := 4

/-- Source: `MAX_NDIGITS`. -/
abbrev maxNdigits : ℕ := 512

/-- A NUMERIC value. Source: `Numeric`. -/
structure Numeric where
  sign : Sign
  weight : ℤ
  dscale : ℕ
  digits : List ℤ
  deriving DecidableEq, Repr

namespace Numeric

/-- Source: `ZERO`. -/
def zero : Numeric := ⟨.pos, 0, 0, []⟩

/-- Source: `NAN`. -/
def nan : Numeric := ⟨.nan, 0, 0, []⟩

/-- Source: `POS_INFINITY`. -/
def posInfinity : Numeric := ⟨.posInf, 0, 0, []⟩

/-- Source: `NEG_INFINITY`. -/
def negInfinity : Numeric := ⟨.negInf, 0, 0, []⟩

/-- Source: `is_zero`. -/
def isZero (n : Numeric) : Bool := (n.sign == .pos || n.sign == .neg) && n.digits.isEmpty

/-- Source: `is_nan`. -/
def isNan (n : Numeric) : Bool := n.sign == .nan

/-- Source: `is_infinite`. -/
def isInfinite (n : Numeric) : Bool := n.sign == .posInf || n.sign == .negInf

/-- Source: `is_special`. -/
def isSpecial (n : Numeric) : Bool := n.isNan || n.isInfinite

/-- Source: `is_negative`. -/
def isNegative (n : Numeric) : Bool := n.sign == .neg || n.sign == .negInf

/-- Source: `ndigits`. -/
def ndigits (n : Numeric) : ℕ := n.digits.length

/-- **A finite value that the type can hold.** Source: the comment on `Numeric`. -/
structure Finite (n : Numeric) : Prop where
  sign : n.sign = .pos ∨ n.sign = .neg
  weight : -32768 ≤ n.weight ∧ n.weight ≤ 32767
  dscale : n.dscale ≤ 65535
  length : n.digits.length ≤ maxNdigits
  proper : Proper nbase n.digits
  top : ∀ d, n.digits.head? = some d → d ≠ 0
  low : ∀ d, n.digits.getLast? = some d → d ≠ 0

/-! ## The value -/

/-- The digits as one number. -/
def coefficient (n : Numeric) : ℤ := Positional.value nbase n.digits.reverse

/-- The weight of the last digit. -/
def exponent (n : Numeric) : ℤ := n.weight + 1 - n.digits.length

/-- The absolute value. -/
def magnitude (n : Numeric) : ℚ := n.coefficient * (10000 : ℚ) ^ n.exponent

/-- **The rational number that a finite value stands for.** -/
def value (n : Numeric) : ℚ := if n.sign = .neg then -n.magnitude else n.magnitude

section Value

variable {n : Numeric}

lemma magnitude_nil (h : n.digits = []) : n.magnitude = 0 := by
  simp [magnitude, coefficient, h]

lemma value_nil (h : n.digits = []) : n.value = 0 := by
  unfold value
  rw [magnitude_nil h, neg_zero, ite_self]

lemma nbase_pos : (0 : ℚ) < 10000 := by norm_num

lemma nbase_ne : (10000 : ℚ) ≠ 0 := by norm_num

section

variable (h : n.Finite)
include h

lemma Finite.isSpecial_eq : n.isSpecial = false := by
  rcases h.sign with hs | hs <;> simp [isSpecial, isNan, isInfinite, hs]

lemma Finite.isNan_eq : n.isNan = false := by
  rcases h.sign with hs | hs <;> simp [isNan, hs]

lemma Finite.isInfinite_eq : n.isInfinite = false := by
  rcases h.sign with hs | hs <;> simp [isInfinite, hs]

lemma Finite.isZero_iff : n.isZero ↔ n.digits = [] := by
  rcases h.sign with hs | hs <;> simp [isZero, hs]

lemma Finite.coefficient_nonneg : 0 ≤ n.coefficient := h.proper.reverse.value_nonneg

/-- **A nonzero value lies between the powers of its weight.** -/
theorem Finite.weight_spec (hne : n.digits ≠ []) :
    10000 ^ n.weight ≤ n.magnitude ∧ n.magnitude < 10000 ^ (n.weight + 1) := by
  have hpos : 0 < n.digits.length := length_pos_of_ne_nil hne
  have hscale : (0 : ℚ) < 10000 ^ n.exponent := zpow_pos nbase_pos _
  obtain ⟨top, htop⟩ : ∃ top, n.digits.head? = some top := by
    rcases hd : n.digits with _ | ⟨top, rest⟩
    · exact absurd hd hne
    · exact ⟨top, rfl⟩
  have hlow : nbase ^ (n.digits.length - 1) ≤ n.coefficient := by
    have hlast : n.digits.reverse.getLast? = some top := by rw [getLast?_reverse, htop]
    have hle := h.proper.reverse.le_value (by norm_num) hlast (h.top top htop)
    rwa [length_reverse] at hle
  have hhigh : n.coefficient < nbase ^ n.digits.length := by
    have hlt := h.proper.reverse.value_lt (by norm_num)
    rwa [length_reverse] at hlt
  have hlow' : 10000 ^ (n.digits.length - 1) ≤ (n.coefficient : ℚ) := by exact_mod_cast hlow
  have hhigh' : (n.coefficient : ℚ) < 10000 ^ n.digits.length := by exact_mod_cast hhigh
  constructor
  · calc (10000 : ℚ) ^ n.weight
        = (10000 : ℚ) ^ (n.digits.length - 1) * 10000 ^ n.exponent := by
          rw [← zpow_natCast, ← zpow_add₀ nbase_ne]
          congr 1
          unfold exponent
          omega
      _ ≤ n.magnitude := mul_le_mul_of_nonneg_right hlow' hscale.le
  calc n.magnitude < 10000 ^ n.digits.length * 10000 ^ n.exponent :=
        mul_lt_mul_of_pos_right hhigh' hscale
    _ = (10000 : ℚ) ^ (n.weight + 1) := by
        rw [← zpow_natCast, ← zpow_add₀ nbase_ne]
        congr 1
        unfold exponent
        omega

lemma Finite.magnitude_pos (hne : n.digits ≠ []) : 0 < n.magnitude :=
  (zpow_pos nbase_pos _).trans_le (h.weight_spec hne).1

lemma Finite.magnitude_nonneg : 0 ≤ n.magnitude :=
  mul_nonneg (by exact_mod_cast h.coefficient_nonneg) (zpow_nonneg nbase_pos.le _)

end

lemma value_of_pos (hs : n.sign = .pos) : n.value = n.magnitude := by
  unfold value
  rw [hs, if_neg (by decide)]

lemma value_of_neg (hs : n.sign = .neg) : n.value = -n.magnitude := by
  unfold value
  rw [hs, if_pos rfl]

lemma magnitude_padded {k : ℕ} (hk : n.digits.length ≤ k) :
    n.magnitude = (Positional.value nbase (padded k n.digits).reverse : ℤ) *
      (10000 : ℚ) ^ (n.weight + 1 - k) := by
  rw [value_padded]
  unfold magnitude exponent coefficient
  push_cast
  rw [mul_comm ((10000 : ℚ) ^ (k - n.digits.length)), mul_assoc]
  congr 1
  rw [← zpow_natCast, ← zpow_add₀ nbase_ne]
  congr 1
  push_cast [Nat.cast_sub hk]
  ring

end Value

/-! ## Comparison -/

/-- Source: `compare_magnitude`. -/
def compareMagnitude (a b : Numeric) : Ordering :=
  if a.weight ≠ b.weight then Ord.compare a.weight b.weight
  else
    let n := max a.ndigits b.ndigits
    lexOrder (padded n a.digits) (padded n b.digits)

/-- The order of the special values. Source: `rank` in `compare`. -/
def rank : Sign → ℕ
  | .negInf => 0
  | .neg | .pos => 1
  | .posInf => 2
  | .nan => 3

/-- Source: `compare`. -/
def compare (a b : Numeric) : Ordering :=
  if a.isSpecial || b.isSpecial then Ord.compare (rank a.sign) (rank b.sign)
  else if a.isZero && b.isZero then .eq
  else if a.isZero then if b.sign = .neg then .gt else .lt
  else if b.isZero then if a.sign = .neg then .lt else .gt
  else
    match a.sign, b.sign with
    | .pos, .neg => .gt
    | .neg, .pos => .lt
    | _, _ =>
      if a.sign = .neg then (compareMagnitude a b).swap else compareMagnitude a b

section Compare

variable {a b : Numeric}

lemma compare_mul_right {x y c : ℚ} (hc : 0 < c) :
    Ord.compare (x * c) (y * c) = Ord.compare x y := by
  rw [← cmp_eq_compare, ← cmp_eq_compare, cmp_mul_pos_right hc]

lemma compare_intCast (x y : ℤ) : Ord.compare (x : ℚ) (y : ℚ) = Ord.compare x y := by
  rw [← cmp_eq_compare, ← cmp_eq_compare]
  exact Int.cast_strictMono.cmp_map_eq x y

lemma Finite.magnitude_lt_of_weight (ha : a.Finite) (hb : b.Finite) (hane : a.digits ≠ [])
    (hbne : b.digits ≠ []) (h : a.weight < b.weight) : a.magnitude < b.magnitude := by
  have hle : (10000 : ℚ) ^ (a.weight + 1) ≤ 10000 ^ b.weight :=
    zpow_le_zpow_right₀ (by norm_num) h
  exact ((ha.weight_spec hane).2.trans_le hle).trans_le (hb.weight_spec hbne).1

/-- **Magnitudes are compared exactly.** -/
theorem Finite.compareMagnitude_eq (ha : a.Finite) (hb : b.Finite) (hane : a.digits ≠ [])
    (hbne : b.digits ≠ []) : a.compareMagnitude b = Ord.compare a.magnitude b.magnitude := by
  unfold compareMagnitude
  split
  · rename_i hweight
    rcases lt_or_gt_of_ne hweight with hlt | hgt
    · rw [compare_lt_iff_lt.mpr hlt,
        compare_lt_iff_lt.mpr (ha.magnitude_lt_of_weight hb hane hbne hlt)]
    · rw [compare_gt_iff_gt.mpr hgt,
        compare_gt_iff_gt.mpr (hb.magnitude_lt_of_weight ha hbne hane hgt)]
  rename_i hweight
  have hsame := not_not.mp hweight
  have hka : a.digits.length ≤ max a.ndigits b.ndigits := le_max_left ..
  have hkb : b.digits.length ≤ max a.ndigits b.ndigits := le_max_right ..
  rw [magnitude_padded hka, magnitude_padded hkb, hsame,
    compare_mul_right (zpow_pos nbase_pos _), compare_intCast]
  exact lexOrder_eq (by norm_num) (ha.proper.padded (by norm_num) _)
    (hb.proper.padded (by norm_num) _)
    (by rw [length_padded hka, length_padded hkb])

/-- **Finite values are compared exactly.** -/
theorem Finite.compare_eq (ha : a.Finite) (hb : b.Finite) :
    a.compare b = Ord.compare a.value b.value := by
  have hspecial : (a.isSpecial || b.isSpecial) = false := by
    rw [ha.isSpecial_eq, hb.isSpecial_eq]
    rfl
  unfold compare
  rw [hspecial, if_neg Bool.false_ne_true]
  by_cases hane : a.digits = []
  · have haz := ha.isZero_iff.mpr hane
    rw [value_nil hane, haz, Bool.true_and]
    by_cases hbne : b.digits = []
    · rw [hb.isZero_iff.mpr hbne, if_pos rfl, value_nil hbne]
      exact (compare_eq_iff_eq.mpr rfl).symm
    have hbz : b.isZero = false := by simpa using hb.isZero_iff.not.mpr hbne
    have hmag := hb.magnitude_pos hbne
    rw [hbz, if_neg Bool.false_ne_true, if_pos rfl]
    rcases hb.sign with hs | hs
    · rw [value_of_pos hs, hs, if_neg (by decide), compare_lt_iff_lt.mpr hmag]
    · rw [value_of_neg hs, hs, if_pos rfl, compare_gt_iff_gt.mpr (neg_lt_zero.mpr hmag)]
  have haz : a.isZero = false := by simpa using ha.isZero_iff.not.mpr hane
  have hmag := ha.magnitude_pos hane
  rw [haz, Bool.false_and, if_neg Bool.false_ne_true, if_neg Bool.false_ne_true]
  by_cases hbne : b.digits = []
  · rw [hb.isZero_iff.mpr hbne, if_pos rfl, value_nil hbne]
    rcases ha.sign with hs | hs
    · rw [value_of_pos hs, hs, if_neg (by decide), compare_gt_iff_gt.mpr hmag]
    · rw [value_of_neg hs, hs, if_pos rfl, compare_lt_iff_lt.mpr (neg_lt_zero.mpr hmag)]
  have hbz : b.isZero = false := by simpa using hb.isZero_iff.not.mpr hbne
  have hmag' := hb.magnitude_pos hbne
  rw [hbz, if_neg Bool.false_ne_true]
  rcases ha.sign with hs | hs <;> rcases hb.sign with ht | ht
  · simp only [hs, ht]
    rw [value_of_pos hs, value_of_pos ht]
    exact ha.compareMagnitude_eq hb hane hbne
  · simp only [hs, ht]
    rw [value_of_pos hs, value_of_neg ht, compare_gt_iff_gt.mpr (by linarith)]
  · simp only [hs, ht]
    rw [value_of_neg hs, value_of_pos ht, compare_lt_iff_lt.mpr (by linarith)]
  simp only [hs, ht, if_true]
  rw [value_of_neg hs, value_of_neg ht, ha.compareMagnitude_eq hb hane hbne]
  rw [← cmp_eq_compare, ← cmp_eq_compare, cmp_swap]
  exact (StrictAnti.cmp_map_eq (fun _ _ => neg_lt_neg) a.magnitude b.magnitude).symm

end Compare

end Numeric

/-! ## What the format has room for -/

/-- The number has at most `k` digits, in base 10000 and from some power on. -/
def Short (k : ℕ) (x : ℚ) : Prop := ∃ m e : ℤ, x = m * (10000 : ℚ) ^ e ∧ |m| < 10000 ^ k

/-- The weight of the number's first digit is a 16-bit number. -/
def InRange (x : ℚ) : Prop := (10000 : ℚ) ^ (-32768 : ℤ) ≤ |x| ∧ |x| < (10000 : ℚ) ^ (32768 : ℤ)

/-- **The format can hold the number**, and the statement's memory its digits. -/
def Fits (room : ℕ) (x : ℚ) : Prop := x = 0 ∨ InRange x ∧ Short maxNdigits x ∧ Short (room / 2) x

/-- Digits without zeros at either end, the least significant first. -/
structure Normal (u : List ℤ) : Prop where
  proper : Proper nbase u
  ne_nil : u ≠ []
  low : ∀ d, u.head? = some d → d ≠ 0
  top : ∀ d, u.getLast? = some d → d ≠ 0

section Room

variable {u : List ℤ} {e : ℤ} {k room : ℕ} {x : ℚ}

lemma short_neg : Short k (-x) ↔ Short k x := by
  have hone : ∀ {y : ℚ}, Short k y → Short k (-y) := by
    rintro y ⟨m, e, rfl, hm⟩
    exact ⟨-m, e, by push_cast; ring, by rwa [abs_neg]⟩
  exact ⟨fun h => by simpa using hone h, hone⟩

lemma inRange_neg : InRange (-x) ↔ InRange x := by
  unfold InRange
  rw [abs_neg]

lemma fits_neg : Fits room (-x) ↔ Fits room x := by
  unfold Fits
  rw [short_neg, short_neg, inRange_neg, neg_eq_zero]

section

variable (h : Normal u)
include h

lemma Normal.bounds :
    10000 ^ (u.length - 1) ≤ Positional.value nbase u ∧
      Positional.value nbase u < 10000 ^ u.length := by
  obtain ⟨top, htop⟩ : ∃ top, u.getLast? = some top := by
    rw [← Option.isSome_iff_exists, getLast?_isSome]
    exact h.ne_nil
  exact ⟨h.proper.le_value (by norm_num) htop (h.top top htop), h.proper.value_lt (by norm_num)⟩

lemma Normal.value_pos : 0 < Positional.value nbase u :=
  (pow_pos (by norm_num) _).trans_le h.bounds.1

lemma Normal.not_dvd : ¬ (10000 : ℤ) ∣ Positional.value nbase u := by
  obtain ⟨d, rest, rfl⟩ := exists_cons_of_ne_nil h.ne_nil
  have hne := h.low d rfl
  have hdigit := (h.proper.cons).1
  intro hdvd
  have hd := (Int.dvd_add_left (dvd_mul_right (10000 : ℤ) _)).mp hdvd
  exact hne (Int.eq_zero_of_dvd_of_nonneg_of_lt hdigit.1 hdigit.2 hd)

omit h in
/-- The same number at a lower exponent has the coefficient times a power of the base. -/
lemma coefficient_of_le {v m e e' : ℤ} {j : ℕ} (hj : e - e' = j)
    (heq : v * (10000 : ℚ) ^ e = m * 10000 ^ e') : m = v * 10000 ^ j := by
  have hpow : (10000 : ℚ) ^ e = 10000 ^ j * 10000 ^ e' := by
    rw [← zpow_natCast, ← zpow_add₀ Numeric.nbase_ne]
    congr 1
    omega
  rw [hpow, ← mul_assoc] at heq
  exact_mod_cast (mul_right_cancel₀ (zpow_ne_zero _ Numeric.nbase_ne) heq).symm

omit h in
lemma Short.abs_lt {v : ℤ} (h : Short k (v * (10000 : ℚ) ^ e)) (hdvd : ¬ (10000 : ℤ) ∣ v) :
    |v| < 10000 ^ k := by
  obtain ⟨m, e', heq, hm⟩ := h
  rcases le_or_gt e' e with hle | hgt
  · -- the digits of `m` go on below those of `v`
    obtain ⟨j, hj⟩ := Int.eq_ofNat_of_zero_le (sub_nonneg.mpr hle)
    have hone : (1 : ℤ) ≤ 10000 ^ j := one_le_pow₀ (by norm_num)
    rw [coefficient_of_le hj heq, abs_mul, abs_of_pos (by positivity : (0 : ℤ) < 10000 ^ j)] at hm
    exact (le_mul_of_one_le_right (abs_nonneg v) hone).trans_lt hm
  · exfalso
    obtain ⟨j, hj⟩ := Int.eq_ofNat_of_zero_le (sub_nonneg.mpr hgt.le)
    have hj' : j ≠ 0 := by omega
    exact hdvd (coefficient_of_le hj heq.symm ▸ dvd_mul_of_dvd_right (dvd_pow_self _ hj') m)

/-- **How many digits a number needs.** -/
theorem Normal.short_iff : Short k (Positional.value nbase u * (10000 : ℚ) ^ e) ↔ u.length ≤ k := by
  obtain ⟨hlow, hhigh⟩ := h.bounds
  constructor
  · intro hshort
    have hlt := hshort.abs_lt h.not_dvd
    rw [abs_of_pos h.value_pos] at hlt
    have hexp := (pow_lt_pow_iff_right₀ (by norm_num : (1 : ℤ) < 10000)).mp (hlow.trans_lt hlt)
    omega
  · intro hk
    refine ⟨Positional.value nbase u, e, rfl, ?_⟩
    rw [abs_of_pos h.value_pos]
    exact hhigh.trans_le (pow_le_pow_right₀ (by norm_num) hk)

/-- **Where a number's first digit stands.** -/
theorem Normal.weight_spec (w : ℤ) :
    ((10000 : ℚ) ^ w ≤ Positional.value nbase u * 10000 ^ e ↔ w ≤ e + u.length - 1) ∧
      (Positional.value nbase u * (10000 : ℚ) ^ e < 10000 ^ w ↔ e + u.length ≤ w) := by
  have hone : (1 : ℚ) < 10000 := by norm_num
  have hlength : 0 < u.length := length_pos_of_ne_nil h.ne_nil
  obtain ⟨hlow, hhigh⟩ := h.bounds
  have hlow' : (10000 : ℚ) ^ (e + u.length - 1) ≤ Positional.value nbase u * 10000 ^ e := by
    have hcast : 10000 ^ (u.length - 1) ≤ (Positional.value nbase u : ℚ) := by
      exact_mod_cast hlow
    have hscaled := mul_le_mul_of_nonneg_right hcast (zpow_nonneg (by norm_num : (0 : ℚ) ≤ 10000) e)
    have hsum : (10000 : ℚ) ^ (u.length - 1) * 10000 ^ e = 10000 ^ (e + u.length - 1) := by
      rw [← zpow_natCast, ← zpow_add₀ Numeric.nbase_ne]
      congr 1
      omega
    rwa [hsum] at hscaled
  have hhigh' : Positional.value nbase u * (10000 : ℚ) ^ e < 10000 ^ (e + u.length) := by
    have hcast : (Positional.value nbase u : ℚ) < 10000 ^ u.length := by exact_mod_cast hhigh
    have hscaled := mul_lt_mul_of_pos_right hcast (zpow_pos (by norm_num : (0 : ℚ) < 10000) e)
    rwa [← zpow_natCast, ← zpow_add₀ Numeric.nbase_ne, add_comm] at hscaled
  constructor
  · refine ⟨fun hw => ?_, fun hw => (zpow_le_zpow_right₀ hone.le hw).trans hlow'⟩
    have hlt := (zpow_lt_zpow_iff_right₀ hone).mp (hw.trans_lt hhigh')
    omega
  · refine ⟨fun hw => ?_, fun hw => hhigh'.trans_le (zpow_le_zpow_right₀ hone.le hw)⟩
    have hlt := (zpow_lt_zpow_iff_right₀ hone).mp (hlow'.trans_lt hw)
    omega

lemma Normal.inRange_iff :
    InRange (Positional.value nbase u * (10000 : ℚ) ^ e) ↔
      -32768 ≤ e + u.length - 1 ∧ e + u.length - 1 ≤ 32767 := by
  have hnonneg : (0 : ℚ) ≤ Positional.value nbase u * 10000 ^ e :=
    mul_nonneg (by exact_mod_cast h.value_pos.le) (zpow_nonneg (by norm_num) _)
  unfold InRange
  rw [abs_of_nonneg hnonneg, (h.weight_spec _).1, (h.weight_spec _).2]
  omega

lemma Normal.ne_zero : Positional.value nbase u * (10000 : ℚ) ^ e ≠ 0 :=
  mul_ne_zero (by exact_mod_cast h.value_pos.ne') (zpow_ne_zero _ (by norm_num))

lemma Normal.fits_iff :
    Fits room (Positional.value nbase u * (10000 : ℚ) ^ e) ↔
      (-32768 ≤ e + u.length - 1 ∧ e + u.length - 1 ≤ 32767) ∧ u.length ≤ maxNdigits ∧
        2 * u.length ≤ room := by
  unfold Fits
  rw [h.short_iff, h.short_iff, h.inRange_iff]
  have hne := h.ne_zero (e := e)
  have hroom : u.length ≤ room / 2 ↔ 2 * u.length ≤ room := by omega
  rw [hroom]
  exact ⟨fun hor => hor.resolve_left hne, .inr⟩

end

end Room

end Pos3ql
