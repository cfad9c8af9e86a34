import Mathlib

/-!
# Positional notation

Lists of integers as numbers in a base, the least significant digit first. A digit need not be below
the base, or nonnegative: an intermediate result of an addition or a subtraction is such a list, and
a carry or borrow pass turns it into one whose digits are proper.

* `value`: the number; `value_append`, `value_addAt`.
* `Proper`: all digits are; **`value_lt`**, **`le_value`**.
* `pass`: one pass from the least significant digit up; **`value_pass`**.
* `trimTop`, `trimLow`: without the zeros at an end; **`value_trimTop`**, **`value_trimLow`**.
* `lexOrder`: the order of the first difference; **`lexOrder_eq`**.
-/

namespace Pos3ql.Foundation.Positional

open List

/-- The number a list denotes. -/
def value (b : ℤ) : List ℤ → ℤ
  | [] => 0
  | d :: rest => d + b * value b rest

section Value

variable {b : ℤ}

@[simp] lemma value_nil : value b [] = 0 := rfl

@[simp] lemma value_cons (d : ℤ) (rest : List ℤ) : value b (d :: rest) = d + b * value b rest := rfl

/-- The digits above count by the power of the place. -/
lemma value_append (l r : List ℤ) : value b (l ++ r) = value b l + b ^ l.length * value b r := by
  induction l with
  | nil => simp
  | cons d l ih =>
    rw [cons_append, value_cons, value_cons, ih, length_cons]
    ring

@[simp] lemma value_zeros (n : ℕ) : value b (replicate n 0) = 0 := by
  induction n with
  | zero => rfl
  | succ n ih => rw [replicate_succ, value_cons, ih, mul_zero, add_zero]

/-- One place of the list. -/
def addAt (l : List ℤ) (i : ℕ) (x : ℤ) : List ℤ := l.modify i (· + x)

@[simp] lemma length_addAt (l : List ℤ) (i : ℕ) (x : ℤ) : (addAt l i x).length = l.length := by
  exact length_modify ..

lemma addAt_append (l : List ℤ) (d : ℤ) (r : List ℤ) (x : ℤ) :
    addAt (l ++ d :: r) l.length x = l ++ (d + x) :: r := by
  unfold addAt
  induction l with
  | nil => rfl
  | cons e l ih => rw [cons_append, length_cons, modify_succ_cons, ih, cons_append]

/-- Adding at a place. -/
lemma value_addAt {l : List ℤ} {i : ℕ} (h : i < l.length) (x : ℤ) :
    value b (addAt l i x) = value b l + x * b ^ i := by
  unfold addAt
  induction l generalizing i with
  | nil => nomatch h
  | cons d l ih =>
    cases i with
    | zero =>
      rw [modify_zero_cons, value_cons, value_cons]
      ring
    | succ i =>
      rw [modify_succ_cons, value_cons, value_cons, ih (Nat.lt_of_succ_lt_succ h)]
      ring

/-- Zeros at the top do not count. -/
lemma value_take {l : List ℤ} {n : ℕ} (h : ∀ d ∈ l.drop n, d = 0) :
    value b (l.take n) = value b l := by
  have hzeros : value b (l.drop n) = 0 := by
    rw [eq_replicate_of_mem h, value_zeros]
  have hsplit := @value_append b (l.take n) (l.drop n)
  rw [take_append_drop, hzeros, mul_zero, add_zero] at hsplit
  exact hsplit.symm

end Value

/-! ## Proper digits -/

/-- Every digit is below the base and not negative. -/
def Proper (b : ℤ) (l : List ℤ) : Prop := ∀ d ∈ l, 0 ≤ d ∧ d < b

instance (b : ℤ) (l : List ℤ) : Decidable (Proper b l) := by
  unfold Proper
  infer_instance

section Bounds

variable {b : ℤ} {l r : List ℤ}

lemma Proper.cons {d : ℤ} {rest : List ℤ} (h : Proper b (d :: rest)) :
    (0 ≤ d ∧ d < b) ∧ Proper b rest :=
  ⟨h d mem_cons_self, (forall_mem_cons.mp h).2⟩

lemma Proper.reverse (h : Proper b l) : Proper b l.reverse := fun d hd =>
    h d (mem_reverse.mp hd)

lemma Proper.append (hl : Proper b l) (hr : Proper b r) : Proper b (l ++ r) :=
  fun d hd => (mem_append.mp hd).elim (hl d) (hr d)

/-- Some of proper digits. -/
lemma Proper.of_sublist (h : Proper b l) (hsub : r.Sublist l) : Proper b r :=
  fun d hd => h d (hsub.subset hd)

lemma proper_zeros (hb : 0 < b) (n : ℕ) : Proper b (replicate n 0) := fun d hd => by
  rw [eq_of_mem_replicate hd]
  exact ⟨le_rfl, hb⟩

/-- Proper digits make no negative number. -/
lemma Proper.value_nonneg (h : Proper b l) : 0 ≤ value b l := by
  induction l with
  | nil => exact le_rfl
  | cons d l ih =>
    obtain ⟨⟨hd, hdb⟩, hl⟩ := h.cons
    exact add_nonneg hd (mul_nonneg (hd.trans hdb.le) (ih hl))

/-- **A number of `n` digits is below the `n`-th power.** -/
theorem Proper.value_lt (hb : 0 < b) (h : Proper b l) : value b l < b ^ l.length := by
  induction l with
  | nil => simp
  | cons d l ih =>
    obtain ⟨⟨hd, hdb⟩, hl⟩ := h.cons
    have hrest := ih hl
    have hstep : b * (value b l + 1) ≤ b * b ^ l.length :=
      mul_le_mul_of_nonneg_left hrest hb.le
    rw [value_cons, length_cons, pow_succ]
    linarith

/-- **A number with a nonzero top digit is not below the power of its place.** -/
theorem Proper.le_value (hb : 0 < b) (h : Proper b l) {top : ℤ} (htop : l.getLast? = some top)
    (hne : top ≠ 0) : b ^ (l.length - 1) ≤ value b l := by
  obtain ⟨rest, rfl⟩ := getLast?_eq_some_iff.mp htop
  have hpos : 1 ≤ top := by
    have hdigit := h top (by simp)
    omega
  have hrest := Proper.value_nonneg (h.of_sublist (sublist_append_left rest [top]))
  rw [value_append, length_append, length_singleton, Nat.add_sub_cancel, value_cons,
    value_nil, mul_zero]
  have hscale : b ^ rest.length * 1 ≤ b ^ rest.length * top :=
    mul_le_mul_of_nonneg_left hpos (pow_nonneg hb.le _)
  linarith

/-- Two numbers with the same proper digits in number are equal digit by digit. -/
lemma Proper.ext (hb : 0 < b) {l : List ℤ} (hl : Proper b l) (hr : Proper b r)
    (hlen : l.length = r.length) (h : value b l = value b r) : l = r := by
  induction l generalizing r with
  | nil => exact (length_eq_zero_iff.mp hlen.symm).symm
  | cons d l ih =>
    cases r with
    | nil => cases hlen
    | cons e r =>
      obtain ⟨⟨hd, hdb⟩, hl'⟩ := hl.cons
      obtain ⟨⟨he, heb⟩, hr'⟩ := hr.cons
      rw [value_cons, value_cons] at h
      have hde : d = e := by
        have hd' := Int.emod_eq_of_lt hd hdb
        have he' := Int.emod_eq_of_lt he heb
        rw [← hd', ← he', ← Int.add_mul_emod_self_left d b (value b l), h,
          Int.add_mul_emod_self_left]
      subst hde
      have hrest : value b l = value b r :=
        mul_left_cancel₀ hb.ne' (add_left_cancel h)
      rw [ih hl' hr' (by simpa using hlen) hrest]

end Bounds

/-! ## A pass over the digits -/

/-- One pass from the least significant digit up: each step sees what was carried and the digit, and
leaves a digit and what it carries. -/
def pass (step : ℤ → ℤ → ℤ × ℤ) : ℤ → List ℤ → List ℤ × ℤ
  | carried, [] => ([], carried)
  | carried, d :: rest =>
    let (digit, carried) := step carried d
    let (digits, last) := pass step carried rest
    (digit :: digits, last)

section Pass

variable {b : ℤ} {step : ℤ → ℤ → ℤ × ℤ}

@[simp] lemma pass_nil (car : ℤ) : pass step car [] = ([], car) := rfl

/-- A pass, digit by digit. -/
lemma pass_cons (car d : ℤ) (rest : List ℤ) :
    pass step car (d :: rest) =
      ((step car d).1 :: (pass step (step car d).2 rest).1, (pass step (step car d).2 rest).2) :=
  rfl

@[simp] lemma length_pass (car : ℤ) (l : List ℤ) : (pass step car l).1.length = l.length := by
  induction l generalizing car with
  | nil => rfl
  | cons d l ih => rw [pass_cons, length_cons, length_cons, ih]

/-- **A pass keeps the number**, if every step does. -/
theorem value_pass (hstep : ∀ carried d, (step carried d).1 + b * (step carried d).2 = carried + d)
    (carried : ℤ) (l : List ℤ) :
    value b (pass step carried l).1 + b ^ l.length * (pass step carried l).2 =
      value b l + carried := by
  induction l generalizing carried with
  | nil => simp
  | cons d l ih =>
    have hone := hstep carried d
    have hrest := ih (step carried d).2
    rw [pass_cons, value_cons, value_cons, length_cons]
    have hscaled := congrArg (b * ·) hrest
    linear_combination hone + hscaled

/-- What every step leaves, a pass leaves: an invariant of what is carried, under a condition on the
digits. -/
lemma pass_forall (inv bef after : ℤ → Prop)
    (hstep : ∀ car d, inv car → bef d → inv (step car d).2 ∧ after (step car d).1) {car : ℤ}
    (hinv : inv car) {l : List ℤ} (hl : ∀ d ∈ l, bef d) :
    inv (pass step car l).2 ∧ ∀ d ∈ (pass step car l).1, after d := by
  induction l generalizing car with
  | nil => exact ⟨hinv, fun d hd => absurd hd (not_mem_nil)⟩
  | cons x l ih =>
    obtain ⟨hinv', hafter⟩ := hstep car x hinv (hl x mem_cons_self)
    obtain ⟨hlast, hrest⟩ := ih hinv' (forall_mem_cons.mp hl).2
    exact ⟨hlast, forall_mem_cons.mpr ⟨hafter, hrest⟩⟩

end Pass

/-! ## Zeros at the ends -/

/-- Without the zeros at the top. -/
def trimTop (l : List ℤ) : List ℤ := l.rdropWhile (· == 0)

/-- Without the zeros at the bottom. -/
def trimLow (l : List ℤ) : List ℤ := l.dropWhile (· == 0)

section Trim

variable {b : ℤ} {l : List ℤ}

/-- Only zeros are cut off at the top. -/
lemma exists_trimTop (l : List ℤ) : ∃ n, l = trimTop l ++ replicate n 0 := by
  refine ⟨(l.rtakeWhile (· == 0)).length, ?_⟩
  have hzeros : l.rtakeWhile (· == 0) = replicate (l.rtakeWhile (· == 0)).length 0 :=
    eq_replicate_of_mem fun d hd => by simpa using mem_rtakeWhile_imp hd
  rw [← hzeros]
  exact (rdropWhile_append_rtakeWhile ..).symm

/-- Only zeros are cut off at the bottom. -/
lemma exists_trimLow (l : List ℤ) : ∃ n, l = replicate n 0 ++ trimLow l := by
  refine ⟨(l.takeWhile (· == 0)).length, ?_⟩
  have hzeros : l.takeWhile (· == 0) = replicate (l.takeWhile (· == 0)).length 0 :=
    eq_replicate_of_mem fun d hd => by simpa using mem_takeWhile_imp hd
  rw [← hzeros]
  exact takeWhile_append_dropWhile.symm

@[simp] lemma value_trimTop (l : List ℤ) : value b (trimTop l) = value b l := by
  obtain ⟨n, hn⟩ := exists_trimTop l
  conv_rhs => rw [hn]
  rw [value_append, value_zeros, mul_zero, add_zero]

/-- The top digit is not zero. -/
lemma trimTop_ne_zero {top : ℤ} (h : (trimTop l).getLast? = some top) : top ≠ 0 := by
  obtain ⟨rest, hrest⟩ := getLast?_eq_some_iff.mp h
  have hne : trimTop l ≠ [] := by
    rw [hrest]
    simp
  have hlast := rdropWhile_last_not (· == 0) l hne
  have htop : (l.rdropWhile (· == 0)).getLast hne = top :=
    getLast_eq_iff_getLast?_eq_some hne |>.mpr h
  rw [htop] at hlast
  simpa using hlast

/-- The bottom digit is not zero. -/
lemma trimLow_ne_zero {low : ℤ} (h : (trimLow l).head? = some low) : low ≠ 0 := by
  intro hzero
  have hnot := head?_dropWhile_not (· == 0) l
  unfold trimLow at h
  rw [h] at hnot
  simp [hzero] at hnot

lemma sublist_trimTop (l : List ℤ) : (trimTop l).Sublist l := by
  obtain ⟨n, hn⟩ := exists_trimTop l
  conv_rhs => rw [hn]
  exact sublist_append_left ..

lemma sublist_trimLow (l : List ℤ) : (trimLow l).Sublist l := by
  obtain ⟨n, hn⟩ := exists_trimLow l
  conv_rhs => rw [hn]
  exact sublist_append_right ..

/-- Zeros at the bottom count as a power. -/
lemma value_trimLow (l : List ℤ) :
    value b l = b ^ (l.length - (trimLow l).length) * value b (trimLow l) := by
  obtain ⟨n, hn⟩ := exists_trimLow l
  have hlen : l.length - (trimLow l).length = n := by
    have hboth := congrArg List.length hn
    rw [length_append, length_replicate] at hboth
    omega
  rw [hlen]
  conv_lhs => rw [hn]
  rw [value_append, value_zeros, length_replicate, zero_add]

end Trim

/-! ## The most significant digit first -/

/-- Zeros at the end up to a length. -/
def padded (k : ℕ) (l : List ℤ) : List ℤ := l ++ replicate (k - l.length) 0

lemma length_padded {k : ℕ} {l : List ℤ} (h : l.length ≤ k) : (padded k l).length = k := by
  unfold padded
  rw [length_append, length_replicate]
  omega

lemma Proper.padded {b : ℤ} {l : List ℤ} (h : Proper b l) (hb : 0 < b) (k : ℕ) :
    Proper b (padded k l) := h.append (proper_zeros hb _)

/-- Padding multiplies by a power. -/
lemma value_padded (b : ℤ) (k : ℕ) (l : List ℤ) :
    value b (padded k l).reverse = b ^ (k - l.length) * value b l.reverse := by
  unfold padded
  rw [reverse_append, reverse_replicate, value_append, value_zeros, length_replicate, zero_add]

/-- The order at the first place where two lists differ. -/
def lexOrder (l r : List ℤ) : Ordering := (zipWith compare l r).foldr Ordering.then .eq

section Order

variable {b : ℤ}

/-- The top digit. -/
lemma value_reverse_cons (d : ℤ) (l : List ℤ) :
    value b (d :: l).reverse = value b l.reverse + b ^ l.length * d := by
  rw [reverse_cons, value_append, length_reverse, value_cons, value_nil, mul_zero, add_zero]

lemma lexOrder_cons (d e : ℤ) (l r : List ℤ) :
    lexOrder (d :: l) (e :: r) = (compare d e).then (lexOrder l r) := rfl

/-- **Proper digits are ordered as the numbers are.** Induction on the digits from the top. -/
theorem lexOrder_eq (hb : 0 < b) {l r : List ℤ} (hl : Proper b l) (hr : Proper b r)
    (hlen : l.length = r.length) :
    lexOrder l r = compare (value b l.reverse) (value b r.reverse) := by
  induction l generalizing r with
  | nil =>
    rw [length_eq_zero_iff.mp hlen.symm]
    rfl
  | cons d l ih =>
    cases r with
    | nil => cases hlen
    | cons e r =>
      obtain ⟨⟨hd, hdb⟩, hl⟩ := hl.cons
      obtain ⟨⟨he, heb⟩, hr⟩ := hr.cons
      have hsame : l.length = r.length := by simpa using hlen
      have hlow := hl.reverse.value_nonneg
      have hhigh := hl.reverse.value_lt hb
      have hlow' := hr.reverse.value_nonneg
      have hhigh' := hr.reverse.value_lt hb
      rw [length_reverse] at hhigh hhigh'
      rw [← hsame] at hhigh'
      have hpow : 0 < b ^ l.length := pow_pos hb _
      rw [lexOrder_cons, ih hl hr hsame, value_reverse_cons, value_reverse_cons, ← hsame]
      rcases lt_trichotomy d e with hlt | rfl | hgt
      · -- a smaller digit cannot be made up for below
        have hstep : b ^ l.length * (d + 1) ≤ b ^ l.length * e :=
          mul_le_mul_of_nonneg_left hlt hpow.le
        rw [compare_lt_iff_lt.mpr hlt]
        exact (compare_lt_iff_lt.mpr (by linarith)).symm
      · rw [compare_eq_iff_eq.mpr rfl, Ordering.eq_then]
        simp only [compare, compareOfLessAndEq, add_lt_add_iff_right, add_left_inj]
      · have hstep : b ^ l.length * (e + 1) ≤ b ^ l.length * d :=
          mul_le_mul_of_nonneg_left hgt hpow.le
        rw [compare_gt_iff_gt.mpr hgt]
        exact (compare_gt_iff_gt.mpr (by linarith)).symm

end Order

end Pos3ql.Foundation.Positional
