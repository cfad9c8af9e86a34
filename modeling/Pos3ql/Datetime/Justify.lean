import Mathlib

/-!
# Justifying intervals

An interval has months, days and microseconds, which justification carries into each other.

* `justifyHours`, `justifyDays`, `justifyInterval`: as in the source. Additions of days and months
  wrap around at 32 bits (a build with overflow checks stops there instead).
* `carry_spec`: what one carry does to the two fields.
* **`justify_iff`**: the total is kept exactly when no addition wraps around.

Source: `sql/datetime.rs`.
-/

namespace Pos3ql.Datetime

/-- Source: `Interval`. -/
structure Interval where
  months : ℤ
  days : ℤ
  micros : ℤ
  deriving DecidableEq

/-- The numbers of 32 bits. -/
def I32 (x : ℤ) : Prop := -2147483648 ≤ x ∧ x ≤ 2147483647

instance (x : ℤ) : Decidable (I32 x) := inferInstanceAs (Decidable (_ ∧ _))

/-- Arithmetic of 32 bits. -/
def wrapI32 (x : ℤ) : ℤ := (x + 2147483648) % 4294967296 - 2147483648

/-- Source: `DAY_US`. -/
def dayUs : ℤ := 86400000000

namespace Interval

/-- The fields fit their types. -/
structure Valid (i : Interval) : Prop where
  months : I32 i.months
  days : I32 i.days
  micros : -9223372036854775808 ≤ i.micros ∧ i.micros ≤ 9223372036854775807

/-- Source: `interval_infinity_sign`. -/
def infinitySign (i : Interval) : ℤ :=
  if i = ⟨2147483647, 2147483647, 9223372036854775807⟩ then 1
  else if i = ⟨-2147483648, -2147483648, -9223372036854775808⟩ then -1
  else 0

/-- Carry whole units out of the low field, and give the two fields one sign. Source: the common
body of `justify_hours` and `justify_days`. -/
def carry (unit high low : ℤ) : ℤ × ℤ :=
  let whole := wrapI32 (low.tdiv unit)
  let low := low - whole * unit
  let high := wrapI32 (high + whole)
  if 0 < high ∧ low < 0 then (high - 1, low + unit)
  else if high < 0 ∧ 0 < low then (high + 1, low - unit)
  else (high, low)

/-- Source: `justify_hours`. -/
def justifyHours (i : Interval) : Interval :=
  if i.infinitySign ≠ 0 then i
  else ⟨i.months, (carry dayUs i.days i.micros).1, (carry dayUs i.days i.micros).2⟩

/-- Source: `justify_days`. -/
def justifyDays (i : Interval) : Interval :=
  if i.infinitySign ≠ 0 then i
  else ⟨(carry 30 i.months i.days).1, (carry 30 i.months i.days).2, i.micros⟩

/-- Carry whole months out of the days, and give all fields one sign. Source: `justify_interval`,
after the call of `justify_hours`. -/
def settleMonths (r : Interval) : Interval :=
  let wholemonth := r.days.tdiv 30
  let days := r.days - wholemonth * 30
  let months := wrapI32 (r.months + wholemonth)
  let (months, days) :=
    if 0 < months ∧ (days < 0 ∨ days = 0 ∧ r.micros < 0) then (months - 1, days + 30)
    else if months < 0 ∧ (0 < days ∨ days = 0 ∧ 0 < r.micros) then (months + 1, days - 30)
    else (months, days)
  if 0 < days ∧ r.micros < 0 then ⟨months, days - 1, r.micros + dayUs⟩
  else if days < 0 ∧ 0 < r.micros then ⟨months, days + 1, r.micros - dayUs⟩
  else ⟨months, days, r.micros⟩

/-- Source: `justify_interval`. -/
def justifyInterval (i : Interval) : Interval :=
  if i.infinitySign ≠ 0 then i else settleMonths (justifyHours i)

/-! ## What justification is for -/

/-- The microseconds in all, with days of 24 hours and months of 30 days. -/
def total (i : Interval) : ℤ := (i.months * 30 + i.days) * dayUs + i.micros

/-- Neither is positive while the other is negative. -/
def SameSign (a b : ℤ) : Prop := ¬ (0 < a ∧ b < 0) ∧ ¬ (a < 0 ∧ 0 < b)

/-- The microseconds make no day, and days and microseconds have one sign. -/
def WithinDays (i : Interval) : Prop :=
  -dayUs < i.micros ∧ i.micros < dayUs ∧ SameSign i.days i.micros

/-- The days make no month, and months and days have one sign. -/
def WithinMonths (i : Interval) : Prop := -30 < i.days ∧ i.days < 30 ∧ SameSign i.months i.days

/-- Both, and months and microseconds have one sign too. -/
def WithinAll (i : Interval) : Prop := i.WithinDays ∧ i.WithinMonths ∧ SameSign i.months i.micros

/-- A justification keeps the total, leaves the fields of a finite interval in order, and changes
nothing the second time. -/
def Justifies (justify : Interval → Interval) (Within : Interval → Prop) (i : Interval) : Prop :=
  (justify i).total = i.total ∧ (i.infinitySign = 0 → Within (justify i)) ∧
    justify (justify i) = justify i

section

variable {i : Interval}

/-- Only what fits is kept. -/
lemma wrapI32_eq_iff {x : ℤ} : wrapI32 x = x ↔ I32 x := by
  unfold wrapI32 I32
  omega

/-- The wrapped value fits. -/
lemma wrapI32_fits (x : ℤ) : I32 (wrapI32 x) := by
  unfold wrapI32 I32
  omega

/-- The rest of a truncating division has the sign of the dividend. -/
lemma tdiv_cases (x : ℤ) {unit : ℤ} (hpos : 0 < unit) :
    ∃ r, x = x.tdiv unit * unit + r ∧
      (0 ≤ x ∧ 0 ≤ r ∧ r < unit ∨ x ≤ 0 ∧ -unit < r ∧ r ≤ 0) := by
  refine ⟨x.tmod unit, (Int.tdiv_mul_add_tmod x unit).symm, ?_⟩
  rcases le_total 0 x with hx | hx
  · exact .inl ⟨hx, Int.tmod_nonneg _ hx, Int.tmod_lt_of_pos x hpos⟩
  · have hneg := Int.tmod_nonneg unit (neg_nonneg.mpr hx)
    have hlt := Int.tmod_lt_of_pos (-x) hpos
    rw [Int.neg_tmod] at hneg hlt
    exact .inr ⟨hx, by omega, by omega⟩

/-- Units are positive. -/
lemma unit_pos {unit : ℤ} (hunit : unit = 30 ∨ unit = dayUs) : 0 < unit := by
  unfold dayUs at hunit
  omega

/-- **One carry.** The two fields keep their sum but for what the high field loses when it wraps
around. -/
lemma carry_spec {unit low : ℤ} (high : ℤ) (hunit : unit = 30 ∨ unit = dayUs)
    (hlow : I32 (low.tdiv unit)) :
    ∃ a b, carry unit high low = (a, b) ∧ (-unit < b ∧ b < unit ∧ SameSign a b) ∧ I32 a ∧
      (a - wrapI32 (high + low.tdiv unit) + (high + low.tdiv unit)) * unit + b =
        high * unit + low := by
  obtain ⟨r, hr, hsign⟩ := tdiv_cases low (unit_pos hunit)
  have hwrap := wrapI32_fits (high + low.tdiv unit)
  unfold carry SameSign
  dsimp only
  rw [wrapI32_eq_iff.mpr hlow]
  generalize low.tdiv unit = whole at *
  unfold I32 at hwrap ⊢
  unfold dayUs at hunit
  generalize wrapI32 (high + whole) = sum at *
  rcases hunit with rfl | rfl <;> split_ifs <;> refine ⟨_, _, rfl, ?_⟩ <;> omega

/-- A carry changes nothing the second time. -/
lemma carry_self {unit high low : ℤ} (hunit : unit = 30 ∨ unit = dayUs) (hhigh : I32 high)
    (h : -unit < low ∧ low < unit ∧ SameSign high low) : carry unit high low = (high, low) := by
  obtain ⟨r, hr, hcase⟩ := tdiv_cases low (unit_pos hunit)
  have hzero : low.tdiv unit = 0 := by
    unfold dayUs at hunit
    generalize low.tdiv unit = whole at *
    rcases hunit with rfl | rfl <;> omega
  unfold carry
  rw [hzero]
  dsimp only
  rw [show wrapI32 0 = 0 from rfl, add_zero, wrapI32_eq_iff.mpr hhigh, zero_mul, sub_zero,
    if_neg h.2.2.1, if_neg h.2.2.2]

/-- What is within its units is finite. -/
lemma infinitySign_of_small
    (h : -dayUs < i.micros ∧ i.micros < dayUs ∨ -30 < i.days ∧ i.days < 30) :
    ¬ i.infinitySign ≠ 0 := by
  unfold infinitySign dayUs at *
  rw [if_neg, if_neg, not_not]
  all_goals
    rintro rfl
    dsimp only at h
    omega

/-- Whole days and months of any interval fit 32 bits. -/
lemma Valid.days_fit (h : i.Valid) : I32 (i.micros.tdiv dayUs) := by
  obtain ⟨r, hr, hcase⟩ := tdiv_cases i.micros (unit_pos (.inr rfl))
  have hmicros := h.micros
  unfold I32 dayUs at *
  omega

/-- The whole months of the days fit. -/
lemma Valid.months_fit (h : i.Valid) : I32 (i.days.tdiv 30) := by
  obtain ⟨r, hr, hcase⟩ := tdiv_cases i.days (unit_pos (.inl rfl))
  have hdays := h.days
  unfold I32 at *
  omega

/-- An infinite interval is left alone. -/
lemma justifies_infinite {justify : Interval → Interval} {Within : Interval → Prop}
    (hinf : i.infinitySign ≠ 0) (h : justify i = i) : Justifies justify Within i := by
  unfold Justifies
  rw [h]
  exact ⟨rfl, fun hzero => absurd hzero hinf, h⟩

/-- Hours within a day are left alone. -/
lemma WithinDays.justifyHours_eq (h : i.WithinDays) (hdays : I32 i.days) : justifyHours i = i := by
  rw [justifyHours, if_neg (infinitySign_of_small (.inl ⟨h.1, h.2.1⟩)),
    carry_self (.inr rfl) hdays h]

/-- **Hours into days.** -/
lemma justifyHours_spec (h : i.Valid) (hinf : ¬ i.infinitySign ≠ 0) :
    (justifyHours i).total =
      i.total + (wrapI32 (i.days + i.micros.tdiv dayUs) - (i.days + i.micros.tdiv dayUs)) * dayUs ∧
      (justifyHours i).WithinDays ∧ I32 (justifyHours i).days ∧
      (justifyHours i).months = i.months := by
  obtain ⟨days, micros, hcarry, hwithin, hfit, hsum⟩ := carry_spec i.days (.inr rfl) h.days_fit
  rw [justifyHours, if_neg hinf, hcarry]
  refine ⟨?_, hwithin, hfit, rfl⟩
  unfold total dayUs at *
  dsimp only
  omega

/-- The whole months after hours have gone into days, unless the days wrapped around. -/
lemma justifyHours_months (h : i.Valid) (hinf : ¬ i.infinitySign ≠ 0)
    (hfits : I32 (i.days + i.micros.tdiv dayUs)) :
    (justifyHours i).days.tdiv 30 = (i.days * dayUs + i.micros).tdiv (30 * dayUs) := by
  obtain ⟨htotal, ⟨hlo, hhi, hsign⟩, -, hmonths⟩ := justifyHours_spec h hinf
  obtain ⟨r, hr, hcase⟩ := tdiv_cases (i.days * dayUs + i.micros) (show 0 < 30 * dayUs by decide)
  obtain ⟨r', hr', hcase'⟩ := tdiv_cases (justifyHours i).days (unit_pos (.inl rfl))
  rw [wrapI32_eq_iff.mpr hfits] at htotal
  unfold total at htotal
  unfold SameSign at hsign
  unfold dayUs at *
  omega

/-- **Days into months**, when hours have gone into days. -/
lemma settleMonths_spec (h : i.WithinDays) :
    (settleMonths i).total =
      i.total + (wrapI32 (i.months + i.days.tdiv 30) - (i.months + i.days.tdiv 30)) * (30 * dayUs) ∧
      (settleMonths i).WithinAll ∧ I32 (settleMonths i).months := by
  obtain ⟨r, hr, hcase⟩ := tdiv_cases i.days (unit_pos (.inl rfl))
  have hwrap := wrapI32_fits (i.months + i.days.tdiv 30)
  obtain ⟨hlo, hhi, hsign⟩ := h
  unfold settleMonths WithinAll WithinDays WithinMonths SameSign total
  unfold SameSign at hsign
  unfold I32 at hwrap ⊢
  unfold dayUs at *
  dsimp only
  generalize i.days.tdiv 30 = whole at *
  generalize wrapI32 (i.months + whole) = sum at *
  split_ifs <;> dsimp only at * <;> omega

/-- So are days within a month. -/
lemma WithinAll.settleMonths_eq (h : i.WithinAll) (hmonths : I32 i.months) :
    settleMonths i = i := by
  obtain ⟨⟨-, -, hday⟩, ⟨hlo, hhi, hmonth⟩, hmicros⟩ := h
  obtain ⟨r, hr, hcase⟩ := tdiv_cases i.days (unit_pos (.inl rfl))
  have hzero : i.days.tdiv 30 = 0 := by omega
  unfold SameSign at *
  unfold settleMonths
  dsimp only
  rw [hzero, add_zero, wrapI32_eq_iff.mpr hmonths, zero_mul, sub_zero]
  split_ifs <;> first | rfl | omega

end

/-- **When justification is right**: for every interval the three functions keep the total, put the
fields in order and change nothing the second time exactly when the interval is infinite or the days
and months that are carried into fit 32 bits. Otherwise the carry wraps around. -/
theorem justify_iff {i : Interval} (h : i.Valid) :
    (Justifies justifyHours WithinDays i ↔
      i.infinitySign ≠ 0 ∨ I32 (i.days + i.micros.tdiv dayUs)) ∧
    (Justifies justifyDays WithinMonths i ↔
      i.infinitySign ≠ 0 ∨ I32 (i.months + i.days.tdiv 30)) ∧
    (Justifies justifyInterval WithinAll i ↔
      i.infinitySign ≠ 0 ∨ I32 (i.days + i.micros.tdiv dayUs) ∧
        I32 (i.months + (i.days * dayUs + i.micros).tdiv (30 * dayUs))) := by
  by_cases hinf : i.infinitySign ≠ 0
  · exact ⟨iff_of_true (justifies_infinite hinf (if_pos hinf)) (.inl hinf),
      iff_of_true (justifies_infinite hinf (if_pos hinf)) (.inl hinf),
      iff_of_true (justifies_infinite hinf (if_pos hinf)) (.inl hinf)⟩
  obtain ⟨htotal, hwithin, hfit, hmonths⟩ := justifyHours_spec h hinf
  simp only [or_iff_right hinf, Justifies]
  refine ⟨?_, ?_, ?_⟩
  · rw [and_iff_left ⟨fun _ => hwithin, hwithin.justifyHours_eq hfit⟩, htotal, ← wrapI32_eq_iff]
    unfold dayUs
    omega
  · obtain ⟨months, days, hcarry, hwithin', hfit', hsum⟩ :=
      carry_spec i.months (.inl rfl) h.months_fit
    have hfirst : justifyDays i = ⟨months, days, i.micros⟩ :=
      by rw [justifyDays, if_neg hinf, hcarry]
    have htwice : justifyDays (justifyDays i) = justifyDays i := by
      rw [hfirst, justifyDays, if_neg (infinitySign_of_small (.inr ⟨hwithin'.1, hwithin'.2.1⟩)),
        carry_self (.inl rfl) hfit' hwithin']
    rw [and_iff_left ⟨fun _ => hfirst ▸ hwithin', htwice⟩, hfirst, ← wrapI32_eq_iff]
    unfold total dayUs
    dsimp only
    omega
  obtain ⟨htotal', hall, hfit'⟩ := settleMonths_spec hwithin
  have hfirst : justifyInterval i = settleMonths (justifyHours i) := if_neg hinf
  have htwice : justifyInterval (justifyInterval i) = justifyInterval i := by
    have hsmall : I32 (settleMonths (justifyHours i)).days := by
      have := hall.2.1
      unfold WithinMonths at this
      unfold I32
      omega
    rw [hfirst, justifyInterval, if_neg (infinitySign_of_small (.inl ⟨hall.1.1, hall.1.2.1⟩)),
      hall.1.justifyHours_eq hsmall, hall.settleMonths_eq hfit']
  have hcarried := justifyHours_months h hinf
  rw [and_iff_left ⟨fun _ => hfirst ▸ hall, htwice⟩, hfirst, htotal', htotal, hmonths,
    and_congr_right fun hfits => by rw [← hcarried hfits]]
  -- the two losses cannot make up for each other
  have hwhole := h.days_fit
  have hrange := h.days
  unfold I32 wrapI32 dayUs at *
  omega

/-- **A day more than the most days**: the days wrap around. -/
theorem justifyHours_wraps :
    Valid ⟨0, 2147483647, 86400000000⟩ ∧
      justifyHours ⟨0, 2147483647, 86400000000⟩ = ⟨0, -2147483648, 0⟩ ∧
      (justifyHours ⟨0, 2147483647, 86400000000⟩).total ≠
        Interval.total ⟨0, 2147483647, 86400000000⟩ :=
  ⟨⟨by decide, by decide, by decide⟩, by decide, by decide⟩

/-- A month less an hour. -/
lemma justify_month_less_hour : Justifies justifyInterval WithinAll ⟨1, 0, -3600000000⟩ :=
  (justify_iff ⟨by decide, by decide, by decide⟩).2.2.mpr (.inr (by decide))

end Interval

end Pos3ql.Datetime
