import Pos3ql.Numeric.Format

/-!
# Addition and subtraction of numerics

The digits of both operands are added into one buffer, aligned by weight, and a carry or borrow pass
makes them proper digits again. The buffer has 1028 places. An addition checks that the operands fit
into it; a subtraction of magnitudes does not, and panics when they are too far apart. The weight of
the result is narrowed to 16 bits without a check.

* `accumulate`, `addMagnitudes`, `subMagnitudes`, `finishFromLsf`, `add`, `sub`: as in the source,
  an absent result being a panic.
* `finishFromLsf_spec`: what the finisher does with proper digits.
* `Computes`: the result is the exact number, or the error for a number that does not fit.
* **`add_sub_exact_iff`**: when an addition and a subtraction are exact.

A slot of the buffer is a 32-bit number that receives one digit of each operand, so it cannot
overflow.

Source: `sql/numeric.rs` (`add`, `sub`, `finish_from_lsf`).
-/

namespace Pos3ql

open Foundation List Positional Option

/-- The last bits of a number, as a 16-bit signed number. Source: `as i16`. -/
def wrapI16 (x : ℤ) : ℤ := x.bmod 65536

lemma wrapI16_of_range {x : ℤ} (h : -32768 ≤ x ∧ x ≤ 32767) : wrapI16 x = x := by
  unfold wrapI16
  rw [Int.bmod_eq_of_le] <;> omega

lemma wrapI16_range (x : ℤ) : -32768 ≤ wrapI16 x ∧ wrapI16 x ≤ 32767 := by
  have hlow := Int.le_bmod (x := x) (m := 65536) (by norm_num)
  have hhigh := Int.bmod_lt (x := x) (m := 65536) (by norm_num)
  unfold wrapI16
  omega

namespace Numeric

/-- Source: `overflow`. -/
def overflow : SqlError := ⟨.numericOutOfRange, "value overflows numeric format"⟩

/-- A buffer of all zeros. Source: `DigitBuf`. -/
def digitBuf : List ℤ := replicate (maxNdigits * 2 + 4) 0

/-- The digits in the statement's memory, which has `room` bytes left. Source: `pack`. -/
def pack (digits : List ℤ) (room : ℕ) : Except SqlError (List ℤ) :=
  if maxNdigits < digits.length then .error overflow
  else if room < 2 * digits.length then .error overflow
  else .ok digits

/-- Source: `finish`. -/
def finish (sign : Sign) (weight : ℤ) (dscale : ℕ) (digits : List ℤ) (room : ℕ) :
    Except SqlError Numeric :=
  let sign := if digits.isEmpty then .pos else sign
  if room < 2 * digits.length then .error overflow
  else .ok ⟨sign, weight, dscale, digits⟩

/-- Source: `finish_from_lsf`; `buffer[i]` has the weight `lo + i`. -/
def finishFromLsf (sign : Sign) (lo : ℤ) (buffer : List ℤ) (dscale room : ℕ) :
    Except SqlError Numeric :=
  -- the part below the most significant nonzero digit, then the part above the least significant
  let below := trimTop buffer
  let digits := trimLow below
  if digits.isEmpty then .ok ⟨.pos, 0, dscale, []⟩
  else if maxNdigits < digits.length then .error overflow
  else (pack digits.reverse room).map fun packed =>
    ⟨sign, wrapI16 (lo + below.length - 1), dscale, packed⟩

/-- Add the digits from a weight down into the buffer; no result when an index is out of bounds.
Source: the loop of `accumulate`. -/
def accumulateFrom (lo mul : ℤ) : List ℤ → ℤ → List ℤ → Option (List ℤ)
  | [], _, buffer => some buffer
  | d :: rest, weight, buffer =>
    let index := weight - lo
    if 0 ≤ index ∧ index < buffer.length then
      accumulateFrom lo mul rest (weight - 1) (addAt buffer index.toNat (mul * d))
    else none

/-- Source: `accumulate`. -/
def accumulate (buffer : List ℤ) (x : Numeric) (lo mul : ℤ) : Option (List ℤ) :=
  accumulateFrom lo mul x.digits x.weight buffer

/-- Source: the carry loop of `add_magnitudes`. -/
def carryStep (carry slot : ℤ) : ℤ × ℤ := ((slot + carry).tmod nbase, (slot + carry).tdiv nbase)

/-- Source: the borrow loop of `sub_magnitudes`. -/
def borrowStep (borrow slot : ℤ) : ℤ × ℤ :=
  if slot + borrow < 0 then (slot + borrow + nbase, -1) else (slot + borrow, 0)

/-- One below the weight of the last digit. Source: `lo_a`, `lo_b`. -/
def below (x : Numeric) : ℤ := x.weight - x.ndigits

/-- Source: `add_magnitudes`. -/
def addMagnitudes (a b : Numeric) (sign : Sign) (dscale room : ℕ) :
    Option (Except SqlError Numeric) :=
  let hi := max a.weight b.weight
  let lo := min a.below b.below
  let n := (hi - lo).toNat
  if n + 2 > maxNdigits * 2 then some (.error overflow)
  else do
    let buffer ← accumulate digitBuf a lo 1
    let buffer ← accumulate buffer b lo 1
    let digits := (pass carryStep 0 (buffer.take (n + 2))).1
    some (finishFromLsf sign lo digits dscale room)

/-- The first operand is the larger one. Source: `sub_magnitudes`. -/
def subMagnitudes (a b : Numeric) (sign : Sign) (dscale room : ℕ) :
    Option (Except SqlError Numeric) :=
  let hi := a.weight
  let lo := min a.below b.below
  let n := (hi - lo).toNat
  do
    let buffer ← accumulate digitBuf a lo 1
    let buffer ← accumulate buffer b lo (-1)
    if buffer.length < n + 1 then none
    else
      let digits := (pass borrowStep 0 (buffer.take (n + 1))).1
      some (finishFromLsf sign lo digits dscale room)

/-- Source: `add`. -/
def add (a b : Numeric) (room : ℕ) : Option (Except SqlError Numeric) :=
  if a.isNan || b.isNan then some (.ok nan)
  else if a.isInfinite || b.isInfinite then
    some (.ok (match a.sign, b.sign with
      | .posInf, .negInf | .negInf, .posInf => nan
      | .posInf, _ | _, .posInf => posInfinity
      | _, _ => negInfinity))
  else
    let dscale := max a.dscale b.dscale
    if a.sign = b.sign || a.isZero || b.isZero then
      if a.isZero then some (finish b.sign b.weight dscale b.digits room)
      else if b.isZero then some (finish a.sign a.weight dscale a.digits room)
      else addMagnitudes a b a.sign dscale room
    else
      match compareMagnitude a b with
      | .eq => some (.ok ⟨.pos, 0, dscale, []⟩)
      | .gt => subMagnitudes a b a.sign dscale room
      | .lt => subMagnitudes b a b.sign dscale room

/-- Source: the sign of `negb` in `sub`. -/
def flip : Sign → Sign
  | .pos => .neg
  | .neg => .pos
  | .posInf => .negInf
  | .negInf => .posInf
  | .nan => .nan

/-- Source: `sub`. -/
def sub (a b : Numeric) (room : ℕ) : Option (Except SqlError Numeric) :=
  if b.isNan then some (.ok nan)
  else add a { b with sign := flip b.sign } room

/-! ## The finisher -/

/-- **The exact number, or the error for a number that does not fit.** -/
def Computes (room : ℕ) (x : ℚ) (dscale : ℕ) (r : Except SqlError Numeric) : Prop :=
  (∃ n : Numeric, r = .ok n ∧ n.value = x ∧ n.dscale = dscale) ∨ r = .error overflow ∧ ¬ Fits room x

section Finish

variable {sign : Sign} {lo : ℤ} {buffer : List ℤ} {dscale room : ℕ}

lemma normal_trim (hprop : Proper nbase buffer) (hne : trimLow (trimTop buffer) ≠ []) :
    Normal (trimLow (trimTop buffer)) where
  proper := (hprop.of_sublist (sublist_trimTop _)).of_sublist (sublist_trimLow _)
  ne_nil := hne
  low d hd := trimLow_ne_zero hd
  top d hd := by
    refine trimTop_ne_zero (l := buffer) ?_
    obtain ⟨k, hk⟩ := exists_trimLow (trimTop buffer)
    rw [hk, getLast?_append, hd]
    rfl

lemma value_trim (buffer : List ℤ) (lo : ℤ) :
    (Positional.value nbase buffer : ℚ) * 10000 ^ lo =
      Positional.value nbase (trimLow (trimTop buffer)) *
        10000 ^ (lo + (trimTop buffer).length - (trimLow (trimTop buffer)).length) := by
  have hle := (sublist_trimLow (trimTop buffer)).length_le
  have hvalue := value_trimLow (b := nbase) (trimTop buffer)
  rw [value_trimTop] at hvalue
  rw [hvalue]
  push_cast
  rw [mul_comm ((10000 : ℚ) ^ _), mul_assoc]
  congr 1
  rw [← zpow_natCast, ← zpow_add₀ nbase_ne]
  congr 1
  push_cast [Nat.cast_sub hle]
  ring

lemma magnitude_of_digits (sign : Sign) (w : ℤ) (dscale : ℕ) (u : List ℤ) :
    magnitude ⟨sign, w, dscale, u.reverse⟩ =
      Positional.value nbase u * 10000 ^ (w + 1 - u.length) := by
  unfold magnitude coefficient exponent
  rw [reverse_reverse, length_reverse]

lemma value_eq_signed_iff {n : Numeric} {x : ℚ} (hsign : n.sign = .pos ∨ n.sign = .neg) :
    n.value = (if n.sign = .neg then -x else x) ↔ n.magnitude = x := by
  rcases hsign with hs | hs
  · rw [value_of_pos hs, hs, if_neg (by decide)]
  · rw [value_of_neg hs, hs]
    exact neg_inj

/-- **What the finisher makes of proper digits**: the number they denote, unless it has too many
digits or its weight is not a 16-bit number. -/
theorem finishFromLsf_spec (hprop : Proper nbase buffer) {x : ℚ}
    (hx : x = Positional.value nbase buffer * 10000 ^ lo) (hsign : sign = .pos ∨ sign = .neg) :
    Computes room (if sign = .neg then -x else x) dscale
    (finishFromLsf sign lo buffer dscale room) ↔
      x = 0 ∨ InRange x ∨ ¬ Short maxNdigits x ∨ ¬ Short (room / 2) x := by
  set below := trimTop buffer with hbelow
  set u := trimLow below with hu
  rw [value_trim, ← hbelow, ← hu] at hx
  have hfits : Fits room (if sign = .neg then -x else x) ↔ Fits room x := by
    split
    · exact fits_neg
    · rfl
  unfold finishFromLsf
  simp only [← hbelow, ← hu]
  by_cases hnil : u = []
  · -- the sum of the digits is zero
    have hzero : x = 0 := by rw [hx, hnil, Positional.value_nil, Int.cast_zero, zero_mul]
    rw [hnil, isEmpty_nil, if_pos rfl, hzero, neg_zero, ite_self]
    refine iff_of_true (.inl ⟨_, rfl, ?_, rfl⟩) (.inl rfl)
    exact value_nil rfl
  have hnormal : Normal u := normal_trim hprop hnil
  have hne : x ≠ 0 := hx ▸ hnormal.ne_zero
  have hshort : ∀ k, Short k x ↔ u.length ≤ k := fun k => by rw [hx, hnormal.short_iff]
  have hrange : InRange x ↔ -32768 ≤ lo + below.length - 1 ∧ lo + below.length - 1 ≤ 32767 := by
    rw [hx, hnormal.inRange_iff]
    have hsum : lo + (below.length : ℤ) - u.length + u.length - 1 = lo + below.length - 1 := by ring
    rw [hsum]
  have hnotFits : ¬ Short maxNdigits x ∨ ¬ Short (room / 2) x → ¬ Fits room x := by
    rintro hlong (hzero | ⟨-, h512, hroom⟩)
    · exact hne hzero
    · exact hlong.elim (· h512) (· hroom)
  have hempty : u.isEmpty = false := by simpa using hnil
  rw [hempty, if_neg Bool.false_ne_true]
  by_cases h512 : maxNdigits < u.length
  · rw [if_pos h512]
    have hlong : ¬ Short maxNdigits x := by rw [hshort]; omega
    exact iff_of_true (.inr ⟨rfl, fun h => hnotFits (.inl hlong) (hfits.mp h)⟩)
      (.inr (.inr (.inl hlong)))
  rw [if_neg h512]
  unfold pack
  rw [length_reverse, if_neg h512]
  by_cases hroom : room < 2 * u.length
  · rw [if_pos hroom]
    have hlong : ¬ Short (room / 2) x := by rw [hshort]; omega
    exact iff_of_true (.inr ⟨rfl, fun h => hnotFits (.inr hlong) (hfits.mp h)⟩)
      (.inr (.inr (.inr hlong)))
  rw [if_neg hroom]
  have h512' : Short maxNdigits x := (hshort _).mpr (not_lt.mp h512)
  have hroom' : Short (room / 2) x := by rw [hshort]; omega
  -- the digits are right; what is left is the weight
  have hwt : magnitude ⟨sign, wrapI16 (lo + below.length - 1), dscale, u.reverse⟩ = x ↔
      -32768 ≤ lo + below.length - 1 ∧ lo + below.length - 1 ≤ 32767 := by
    rw [magnitude_of_digits, hx, mul_right_inj' (by exact_mod_cast hnormal.value_pos.ne'),
      zpow_right_inj₀ (by norm_num) (by norm_num)]
    constructor
    · intro heq
      have hwrap : wrapI16 (lo + below.length - 1) = lo + below.length - 1 := by linarith
      have hbounds := wrapI16_range (lo + below.length - 1)
      rwa [hwrap] at hbounds
    · intro hbounds
      rw [wrapI16_of_range hbounds]
      ring
  have hvalue :=
    @value_eq_signed_iff ⟨sign, wrapI16 (lo + below.length - 1), dscale, u.reverse⟩ x hsign
  constructor
  · rintro (⟨n, hn, hnx, -⟩ | ⟨herror, -⟩)
    · cases hn
      exact .inr (.inl (hrange.mpr (hwt.mp (hvalue.mp hnx))))
    · cases herror
  rintro (hzero | hin | hlong | hlong)
  · exact absurd hzero hne
  · exact .inl ⟨_, rfl, hvalue.mpr (hwt.mpr (hrange.mp hin)), rfl⟩
  · exact absurd h512' hlong
  · exact absurd hroom' hlong

end Finish

/-! ## The buffer -/

section Buffer

variable {lo : ℤ}

/-- Digits added at the top of a list, whose last place has their weight. Induction on the
digits. -/
lemma accumulateFrom_top {mul : ℤ} {bef after : ℤ → Prop}
    (hafter : ∀ x d, bef x → 0 ≤ d → d < nbase → after (x + mul * d)) {ds : List ℤ}
    (hds : Proper nbase ds) {weight : ℤ} {low : List ℤ} (high : List ℤ)
    (hlength : (low.length : ℤ) = weight - lo + 1) (hle : ds.length ≤ low.length)
    (hbefore : ∀ x ∈ low, bef x) :
    ∃ low', accumulateFrom lo mul ds weight (low ++ high) = some (low' ++ high) ∧
      low'.length = low.length ∧ (∀ x ∈ low', after x) ∧
      Positional.value nbase low' = Positional.value nbase low +
        mul * (nbase ^ (low.length - ds.length) * Positional.value nbase ds.reverse) := by
  induction ds generalizing low high weight with
  | nil =>
    refine ⟨low, rfl, rfl, fun x hx => ?_, by simp⟩
    simpa using hafter x 0 (hbefore x hx) le_rfl (by norm_num)
  | cons d ds ih =>
    obtain ⟨⟨hd, hdb⟩, hrest⟩ := hds.cons
    -- the digit goes to the last place of `low`
    obtain ⟨init, x, rfl⟩ : ∃ init x, low = init ++ [x] := by
      refine ⟨low.dropLast, low.getLast ?_, (dropLast_append_getLast _).symm⟩
      rintro rfl
      simp at hle
    rw [length_append, length_singleton] at hlength hle
    push_cast at hlength
    have hindex : weight - lo = (init.length : ℤ) := by linarith
    have hinside : 0 ≤ weight - lo ∧ weight - lo < ((init ++ [x] ++ high).length : ℤ) := by
      rw [hindex]
      simp only [length_append, length_singleton]
      push_cast
      omega
    have hadd : addAt (init ++ [x] ++ high) (weight - lo).toNat (mul * d) =
        init ++ ((x + mul * d) :: high) := by
      rw [hindex, Int.toNat_natCast, append_assoc]
      exact addAt_append ..
    obtain ⟨init', hrun, hlen, hents, hvalue⟩ :=
      ih hrest ((x + mul * d) :: high) (by linarith : (init.length : ℤ) = weight - 1 - lo + 1)
        (by simp only [length_cons] at hle; omega)
        (fun y hy => hbefore y (mem_append_left _ hy))
    refine ⟨init' ++ [x + mul * d], ?_, by simp [hlen], forall_mem_append.mpr ⟨hents,
      forall_mem_singleton.mpr (hafter x d (hbefore x (by simp)) hd hdb)⟩, ?_⟩
    · rw [accumulateFrom]
      simp only [hinside, and_self, if_true, hadd, hrun]
      simp
    simp only [length_cons] at hle
    have hsub : (init ++ [x]).length - (d :: ds).length = init.length - ds.length := by
      simp
    have hpow : nbase ^ init.length = nbase ^ (init.length - ds.length) * nbase ^ ds.length := by
      rw [← pow_add]
      congr 1
      omega
    rw [value_append, value_append, hvalue, hlen, hsub, value_reverse_cons, value_cons, value_cons,
      Positional.value_nil, hpow]
    ring

/-- **Digits added into a part of the buffer.** -/
theorem accumulate_spec (mul : ℤ) (bef after : ℤ → Prop)
    (hafter : ∀ x d, bef x → 0 ≤ d → d < nbase → after (x + mul * d)) {x : Numeric} (hx : x.Finite)
    {l : List ℤ} (high : List ℤ) (hlow : lo ≤ x.below) (htop : x.weight - lo < l.length)
    (hne : x.digits ≠ []) (hbefore : ∀ y ∈ l, bef y) :
    ∃ l', accumulate (l ++ high) x lo mul = some (l' ++ high) ∧ l'.length = l.length ∧
      (∀ y ∈ l', after y) ∧
      (Positional.value nbase l' : ℚ) =
        Positional.value nbase l + mul * (x.magnitude * 10000 ^ (-lo)) := by
  have hpos : 0 < x.digits.length := length_pos_of_ne_nil hne
  unfold below ndigits at hlow
  obtain ⟨k, hk⟩ := Int.eq_ofNat_of_zero_le (by omega : 0 ≤ x.weight - lo + 1)
  have hkl : k ≤ l.length := by omega
  have hlength : ((l.take k).length : ℤ) = x.weight - lo + 1 := by
    rw [length_take, min_eq_left hkl]
    exact hk.symm
  obtain ⟨low', hrun, hlen, hents, hvalue⟩ := accumulateFrom_top hafter hx.proper
    (l.drop k ++ high) hlength (by omega) (fun y hy => hbefore y (mem_of_mem_take hy))
  rw [length_take, min_eq_left hkl] at hlen hvalue
  refine ⟨low' ++ l.drop k, ?_, ?_, fun y hy => ?_, ?_⟩
  · unfold accumulate
    rw [← append_assoc, take_append_drop] at hrun
    rw [hrun, append_assoc]
  · rw [length_append, hlen, length_drop]
    omega
  · rcases mem_append.mp hy with hy | hy
    · exact hents y hy
    · simpa using hafter y 0 (hbefore y (mem_of_mem_drop hy)) le_rfl (by norm_num)
  have hsplit : Positional.value nbase l = Positional.value nbase (l.take k) +
      nbase ^ k * Positional.value nbase (l.drop k) := by
    conv_lhs => rw [← take_append_drop k l]
    rw [value_append, length_take, min_eq_left hkl]
  have hscale : x.magnitude * 10000 ^ (-lo) = 10000 ^ (k - x.digits.length) * x.coefficient := by
    unfold magnitude exponent
    rw [mul_assoc, ← zpow_add₀ nbase_ne, mul_comm, ← zpow_natCast]
    congr 2
    push_cast [Nat.cast_sub (by omega : x.digits.length ≤ k)]
    omega
  rw [value_append, hlen, hvalue, hsplit, hscale]
  unfold coefficient
  push_cast
  ring

end Buffer

/-! ## Magnitudes -/

section Magnitudes

variable {a b : Numeric} {sign : Sign} {dscale room k : ℕ}

lemma carryStep_keeps (carry slot : ℤ) :
    (carryStep carry slot).1 + nbase * (carryStep carry slot).2 = carry + slot := by
  rw [add_comm carry slot]
  exact Int.tmod_add_mul_tdiv ..

lemma borrowStep_keeps (borrow slot : ℤ) :
    (borrowStep borrow slot).1 + nbase * (borrowStep borrow slot).2 = borrow + slot := by
  unfold borrowStep
  split <;> simp only <;> ring

lemma carryStep_proper {carry slot : ℤ} (hcarry : 0 ≤ carry) (hslot : 0 ≤ slot) :
    0 ≤ (carryStep carry slot).2 ∧
      (0 ≤ (carryStep carry slot).1 ∧ (carryStep carry slot).1 < nbase) := by
  have hsum : 0 ≤ slot + carry := add_nonneg hslot hcarry
  refine ⟨Int.tdiv_nonneg hsum (by norm_num), Int.tmod_nonneg _ hsum, ?_⟩
  exact Int.tmod_lt_of_pos _ (by norm_num)

lemma borrowStep_proper {borrow slot : ℤ} (hborrow : -1 ≤ borrow ∧ borrow ≤ 0)
    (hslot : -nbase < slot ∧ slot < nbase) :
    (-1 ≤ (borrowStep borrow slot).2 ∧ (borrowStep borrow slot).2 ≤ 0) ∧
      (0 ≤ (borrowStep borrow slot).1 ∧ (borrowStep borrow slot).1 < nbase) := by
  unfold borrowStep
  split <;> simp only <;> omega

lemma digitBuf_split (hk : k ≤ maxNdigits * 2 + 4) :
    digitBuf = replicate k 0 ++ replicate (maxNdigits * 2 + 4 - k) 0 := by
  unfold digitBuf
  rw [replicate_append_replicate, Nat.add_sub_cancel' hk]

lemma below_lt (hne : a.digits ≠ []) : a.below < a.weight := by
  have hpos : 0 < a.digits.length := length_pos_of_ne_nil hne
  unfold below ndigits
  omega

lemma Finite.scaled_lt (h : a.Finite) (hne : a.digits ≠ []) {lo : ℤ}
    (hk : a.weight - lo + 1 ≤ k) : a.magnitude * 10000 ^ (-lo) < 10000 ^ k := by
  have hlt :=
    mul_lt_mul_of_pos_right (h.weight_spec hne).2 (zpow_pos (by norm_num : (0 : ℚ) < 10000) (-lo))
  rw [← zpow_add₀ nbase_ne] at hlt
  refine hlt.trans_le ?_
  rw [← zpow_natCast]
  exact zpow_le_zpow_right₀ (by norm_num) (by omega)

lemma Finite.normal (h : a.Finite) (hne : a.digits ≠ []) : Normal a.digits.reverse := by
  refine ⟨h.proper.reverse, by simpa using hne, fun d hd => h.low d ?_, fun d hd => h.top d ?_⟩
  · rwa [head?_reverse] at hd
  · rwa [getLast?_reverse] at hd

lemma Finite.add_long_of_lt (ha : a.Finite) (hb : b.Finite) (hane : a.digits ≠ [])
    (hbne : b.digits ≠ []) (hlt : a.below < b.below) (hfar : a.below + k < max a.weight b.weight) :
    ¬ Short k (a.magnitude + b.magnitude) := by
  unfold below ndigits at hlt hfar
  obtain ⟨j, hj⟩ :=
    Int.eq_ofNat_of_zero_le (by unfold exponent; omega : 0 ≤ b.exponent - a.exponent)
  have hj' : j ≠ 0 := by
    unfold exponent at hj
    omega
  have hsum : a.magnitude + b.magnitude =
      ((a.coefficient + b.coefficient * 10000 ^ j : ℤ) : ℚ) * 10000 ^ a.exponent := by
    have hpow : (10000 : ℚ) ^ b.exponent = 10000 ^ j * 10000 ^ a.exponent := by
      rw [← zpow_natCast, ← zpow_add₀ nbase_ne]
      congr 1
      omega
    unfold magnitude
    rw [hpow]
    push_cast
    ring
  intro hshort
  rw [hsum] at hshort
  have hndvd : ¬ (10000 : ℤ) ∣ a.coefficient + b.coefficient * 10000 ^ j := fun hdvd =>
    (ha.normal hane).not_dvd
      ((Int.dvd_add_left (dvd_mul_of_dvd_right (dvd_pow_self _ hj') _)).mp hdvd)
  have habs := hshort.abs_lt hndvd
  have hnonneg : 0 ≤ a.coefficient + b.coefficient * 10000 ^ j :=
    add_nonneg ha.coefficient_nonneg (mul_nonneg hb.coefficient_nonneg (by positivity))
  rw [abs_of_nonneg hnonneg] at habs
  -- the first digit of the sum stands more than `k` places above the last
  have hbound : a.magnitude + b.magnitude < 10000 ^ ((k : ℤ) + a.exponent) := by
    rw [hsum, zpow_add₀ nbase_ne]
    exact mul_lt_mul_of_pos_right (by exact_mod_cast habs) (zpow_pos (by norm_num) _)
  have hA := ha.magnitude_nonneg
  have hB := hb.magnitude_nonneg
  have hmax : ∀ w : ℤ, 10000 ^ w ≤ a.magnitude + b.magnitude → w < k + a.exponent :=
    fun w hw => (zpow_lt_zpow_iff_right₀ (by norm_num)).mp (hw.trans_lt hbound)
  have hwa := hmax a.weight ((ha.weight_spec hane).1.trans (by linarith))
  have hwb := hmax b.weight ((hb.weight_spec hbne).1.trans (by linarith))
  unfold exponent at hwa hwb
  omega

lemma Finite.add_long (ha : a.Finite) (hb : b.Finite) (hane : a.digits ≠ []) (hbne : b.digits ≠ [])
    (hfar : maxNdigits * 2 < (max a.weight b.weight - min a.below b.below).toNat + 2) :
    ¬ Short maxNdigits (a.magnitude + b.magnitude) := by
  have hlenA := ha.length
  have hlenB := hb.length
  rw [show maxNdigits = 512 from rfl] at *
  rcases lt_trichotomy a.below b.below with hlt | heq | hgt
  · exact ha.add_long_of_lt hb hane hbne hlt (by omega)
  · -- with the same last place, no operand has that many digits
    unfold below ndigits at heq hfar
    omega
  · rw [add_comm]
    exact hb.add_long_of_lt ha hbne hane hgt (by omega)

/-- **Adding magnitudes.** -/
theorem addMagnitudes_spec (dscale room : ℕ) (ha : a.Finite) (hb : b.Finite) (hane : a.digits ≠ [])
    (hbne : b.digits ≠ []) (hsign : sign = .pos ∨ sign = .neg) :
    ∃ r, addMagnitudes a b sign dscale room = some r ∧
      (Computes room (if sign = .neg then -(a.magnitude + b.magnitude)
          else a.magnitude + b.magnitude) dscale r ↔
        InRange (a.magnitude + b.magnitude) ∨ ¬ Short maxNdigits (a.magnitude + b.magnitude) ∨
          ¬ Short (room / 2) (a.magnitude + b.magnitude)) := by
  have hsumPos : 0 < a.magnitude + b.magnitude :=
    add_pos (ha.magnitude_pos hane) (hb.magnitude_pos hbne)
  unfold addMagnitudes
  set lo := min a.below b.below with hlo
  set n := (max a.weight b.weight - lo).toNat with hn
  by_cases hfar : n + 2 > maxNdigits * 2
  · rw [if_pos hfar]
    have hlong := ha.add_long hb hane hbne hfar
    refine ⟨_, rfl, iff_of_true (.inr ⟨rfl, ?_⟩) (.inr (.inl hlong))⟩
    rintro (hzero | ⟨-, hshort, -⟩)
    · split at hzero
      · linarith
      · exact hsumPos.ne' hzero
    · split at hshort
      · exact hlong (short_neg.mp hshort)
      · exact hlong hshort
  rw [if_neg hfar]
  have hbelowB := below_lt hbne
  have hloA : lo ≤ a.below := min_le_left _ _
  have hloB : lo ≤ b.below := min_le_right _ _
  have hnA : a.weight - lo ≤ n := by
    have := le_max_left a.weight b.weight
    omega
  have hnB : b.weight - lo ≤ n := by
    have := le_max_right a.weight b.weight
    omega
  -- one digit of each operand goes to each slot
  have hstep : ∀ x d : ℤ, 0 ≤ x → 0 ≤ d → d < nbase → 0 ≤ x + 1 * d := fun x d hx hd _ => by
    linarith
  obtain ⟨l₁, hrun₁, hlen₁, hents₁, hvalue₁⟩ :=
    accumulate_spec 1 _ _ hstep ha (replicate (maxNdigits * 2 + 4 - (n + 2)) 0) hloA
      (by rw [length_replicate]; push_cast; omega :
        a.weight - lo < (replicate (n + 2) (0 : ℤ)).length)
      hane (fun y hy => (eq_of_mem_replicate hy).ge)
  obtain ⟨l₂, hrun₂, hlen₂, hents₂, hvalue₂⟩ :=
    accumulate_spec 1 _ _ hstep hb (replicate (maxNdigits * 2 + 4 - (n + 2)) 0) hloB
      (by rw [hlen₁, length_replicate]; push_cast; omega : b.weight - lo < l₁.length) hbne hents₁
  rw [length_replicate] at hlen₁
  rw [hlen₁] at hlen₂
  rw [digitBuf_split (by omega : n + 2 ≤ maxNdigits * 2 + 4), hrun₁]
  simp only [bind_eq_bind, bind_some, hrun₂]
  rw [take_left' hlen₂]
  -- the pass loses nothing
  have htotal : (Positional.value nbase l₂ : ℚ) = (a.magnitude + b.magnitude) * 10000 ^ (-lo) := by
    rw [hvalue₂, hvalue₁, value_zeros]
    push_cast
    ring
  have hkeeps := value_pass carryStep_keeps 0 l₂
  obtain ⟨hlast, hprop⟩ := pass_forall (0 ≤ ·) (0 ≤ ·)
    (fun d => 0 ≤ d ∧ d < nbase) (fun c d hc hd => carryStep_proper hc hd) le_rfl hents₂
  set digits := (pass carryStep 0 l₂).1
  set last := (pass carryStep 0 l₂).2
  have hsmall : Positional.value nbase l₂ < nbase ^ (n + 2) := by
    have hA := ha.scaled_lt hane (by push_cast; omega : a.weight - lo + 1 ≤ ((n + 1 : ℕ) : ℤ))
    have hB := hb.scaled_lt hbne (by push_cast; omega : b.weight - lo + 1 ≤ ((n + 1 : ℕ) : ℤ))
    have hsum : (Positional.value nbase l₂ : ℚ) < 10000 ^ (n + 2) := by
      rw [htotal, pow_succ]
      have hpow : (0 : ℚ) < 10000 ^ (n + 1) := by positivity
      linarith
    exact_mod_cast hsum
  have hnone : last = 0 := by
    rw [hlen₂, add_zero] at hkeeps
    have hdigits := Proper.value_nonneg hprop
    have hpow : (0 : ℤ) < nbase ^ (n + 2) := by positivity
    by_contra hne
    have hone : 1 ≤ last := by omega
    have hscale : nbase ^ (n + 2) * 1 ≤ nbase ^ (n + 2) * last :=
      mul_le_mul_of_nonneg_left hone hpow.le
    linarith
  rw [hnone, mul_zero, add_zero, add_zero] at hkeeps
  refine ⟨_, rfl, ?_⟩
  have hx : a.magnitude + b.magnitude = (Positional.value nbase digits : ℚ) * 10000 ^ lo := by
    rw [hkeeps, htotal, mul_assoc, ← zpow_add₀ nbase_ne, neg_add_cancel, zpow_zero, mul_one]
  rw [finishFromLsf_spec hprop hx hsign]
  exact or_iff_right hsumPos.ne'

/-- The alignment of a subtraction needs more places than the buffer has. -/
lemma subMagnitudes_far (hane : a.digits ≠ [])
    (hfar : maxNdigits * 2 + 4 ≤ a.weight - min a.below b.below) :
    subMagnitudes a b sign dscale room = none := by
  obtain ⟨d, rest, hdigits⟩ := exists_cons_of_ne_nil hane
  have hnone : accumulate digitBuf a (min a.below b.below) 1 = none := by
    unfold accumulate
    rw [hdigits]
    refine if_neg fun h => ?_
    have hlen : digitBuf.length = maxNdigits * 2 + 4 := length_replicate
    rw [hlen] at h
    omega
  unfold subMagnitudes
  dsimp only
  rw [hnone]
  rfl

/-- **Subtracting a smaller magnitude**, when the buffer has the places. -/
theorem subMagnitudes_spec (dscale room : ℕ) (ha : a.Finite) (hb : b.Finite) (hane : a.digits ≠ [])
    (hbne : b.digits ≠ []) (hlt : b.magnitude < a.magnitude)
    (hnear : a.weight - min a.below b.below < maxNdigits * 2 + 4)
    (hsign : sign = .pos ∨ sign = .neg) :
    ∃ r, subMagnitudes a b sign dscale room = some r ∧
      (Computes room (if sign = .neg then -(a.magnitude - b.magnitude)
          else a.magnitude - b.magnitude) dscale r ↔
        InRange (a.magnitude - b.magnitude) ∨ ¬ Short maxNdigits (a.magnitude - b.magnitude) ∨
          ¬ Short (room / 2) (a.magnitude - b.magnitude)) := by
  have hwt : b.weight ≤ a.weight := by
    by_contra hgt
    exact (ha.magnitude_lt_of_weight hb hane hbne (not_le.mp hgt)).not_gt hlt
  unfold subMagnitudes
  dsimp only
  set lo := min a.below b.below with hlo
  set n := (a.weight - lo).toNat with hn
  have hbelowA := below_lt hane
  have hloA : lo ≤ a.below := min_le_left _ _
  have hloB : lo ≤ b.below := min_le_right _ _
  -- a digit less a digit goes to each slot
  obtain ⟨l₁, hrun₁, hlen₁, hents₁, hvalue₁⟩ :=
    accumulate_spec 1 (· = 0) (fun d => 0 ≤ d ∧ d < nbase) (fun x d hx hd hdb => by rw [hx]; omega)
      ha
      (replicate (maxNdigits * 2 + 4 - (n + 1)) 0) hloA
        (by rw [length_replicate]; push_cast; omega :
      a.weight - lo < (replicate (n + 1) (0 : ℤ)).length) hane (fun y hy => eq_of_mem_replicate hy)
  obtain ⟨l₂, hrun₂, hlen₂, hents₂, hvalue₂⟩ :=
    accumulate_spec (-1) _ (fun d => -nbase < d ∧ d < nbase) (fun x d hx hd hdb => by omega) hb
      (replicate
      (maxNdigits * 2 + 4 - (n + 1)) 0) hloB (by rw [hlen₁, length_replicate]; push_cast; omega :
        b.weight -
      lo < l₁.length) hbne hents₁
  rw [length_replicate] at hlen₁
  rw [hlen₁] at hlen₂
  rw [digitBuf_split (by omega : n + 1 ≤ maxNdigits * 2 + 4), hrun₁]
  simp only [bind_eq_bind, bind_some, hrun₂]
  have hroom : ¬ (l₂ ++ replicate (maxNdigits * 2 + 4 - (n + 1)) 0).length < n + 1 := by
    rw [length_append, hlen₂]
    omega
  rw [if_neg hroom, take_left' hlen₂]
  have htotal : (Positional.value nbase l₂ : ℚ) = (a.magnitude - b.magnitude) * 10000 ^ (-lo) := by
    rw [hvalue₂, hvalue₁, value_zeros]
    push_cast
    ring
  have hkeeps := value_pass borrowStep_keeps 0 l₂
  obtain ⟨hlast, hprop⟩ := pass_forall (fun c => -1 ≤ c ∧ c ≤ 0)
    (fun d => -nbase < d ∧ d < nbase) (fun d => 0 ≤ d ∧ d < nbase)
    (fun c d hc hd => borrowStep_proper hc hd) (show -1 ≤ (0 : ℤ) ∧ (0 : ℤ) ≤ 0 by omega) hents₂
  have hlenDigits := @Positional.length_pass borrowStep 0 l₂
  set digits := (pass borrowStep 0 l₂).1
  set last := (pass borrowStep 0 l₂).2
  -- nothing is left to borrow from, because the difference is not negative
  have hnonneg : 0 ≤ Positional.value nbase l₂ := by
    have hq : (0 : ℚ) ≤ (Positional.value nbase l₂ : ℚ) := by
      rw [htotal]
      exact mul_nonneg (by linarith) (zpow_nonneg (by norm_num) _)
    exact_mod_cast hq
  have hnone : last = 0 := by
    have hdigits := Proper.value_lt (by norm_num) hprop
    rw [hlenDigits] at hdigits
    by_contra hne
    have hborrow : last = -1 := by omega
    rw [hborrow] at hkeeps
    linarith
  rw [hnone, mul_zero, add_zero, add_zero] at hkeeps
  refine ⟨_, rfl, ?_⟩
  have hx : a.magnitude - b.magnitude = (Positional.value nbase digits : ℚ) * 10000 ^ lo := by
    rw [hkeeps, htotal, mul_assoc, ← zpow_add₀ nbase_ne, neg_add_cancel, zpow_zero, mul_one]
  rw [finishFromLsf_spec hprop hx hsign]
  exact or_iff_right (sub_pos.mpr hlt).ne'

end Magnitudes

/-! ## Exactness -/

/-- **The places of a subtraction fit into the buffer.** Magnitudes are subtracted when the signs
differ. -/
def Aligned (a b : Numeric) : Prop :=
  a.digits ≠ [] → b.digits ≠ [] → a.sign ≠ b.sign → a.magnitude ≠ b.magnitude →
    max a.weight b.weight - min a.below b.below < maxNdigits * 2 + 4

/-- **The weight of the number is kept**: it is a 16-bit number, or there are too many digits
anyway. -/
def WeightKept (x : ℚ) : Prop := x = 0 ∨ InRange x ∨ ¬ Short maxNdigits x

/-- The operand of a subtraction with its sign changed. Source: `negb`. -/
def negated (b : Numeric) : Numeric := { b with sign := flip b.sign }

section Exact

variable {a b : Numeric} {room : ℕ}

lemma Finite.negated (h : b.Finite) : b.negated.Finite where
  sign := by rcases h.sign with hs | hs <;> simp [Numeric.negated, flip, hs]
  weight := h.weight
  dscale := h.dscale
  length := h.length
  proper := h.proper
  top := h.top
  low := h.low

lemma Finite.value_negated (h : b.Finite) : b.negated.value = -b.value := by
  have hmag : b.negated.magnitude = b.magnitude := rfl
  rcases h.sign with hs | hs
  · rw [value_of_pos hs, value_of_neg (by simp [Numeric.negated, flip, hs]), hmag]
  · rw [value_of_neg hs, value_of_pos (by simp [Numeric.negated, flip, hs]), hmag, neg_neg]

lemma Finite.fits_iff (h : a.Finite) (hne : a.digits ≠ []) (room : ℕ) :
    InRange a.value ∧ (Fits room a.value ↔ 2 * a.digits.length ≤ room) := by
  have hnormal := h.normal hne
  have hmag : a.magnitude = Positional.value nbase a.digits.reverse * 10000 ^ a.exponent := rfl
  have hwt := h.weight
  have hlen := h.length
  have hrange : InRange a.magnitude := by
    rw [hmag, hnormal.inRange_iff, length_reverse]
    unfold exponent
    omega
  have hfits : Fits room a.magnitude ↔ 2 * a.digits.length ≤ room := by
    rw [hmag, hnormal.fits_iff, length_reverse]
    unfold exponent
    omega
  rcases h.sign with hs | hs
  · rw [value_of_pos hs]
    exact ⟨hrange, hfits⟩
  · rw [value_of_neg hs, inRange_neg, fits_neg]
    exact ⟨hrange, hfits⟩

lemma finish_computes (h : a.Finite) (dscale : ℕ) :
    Computes room a.value dscale (finish a.sign a.weight dscale a.digits room) := by
  unfold finish
  dsimp only
  by_cases hne : a.digits = []
  · rw [hne]
    exact .inl ⟨_, rfl, by rw [value_nil hne, value_nil rfl], rfl⟩
  have hempty : a.digits.isEmpty = false := by simpa using hne
  split
  · exact .inr ⟨rfl, fun hfits => by have := (h.fits_iff hne _).2.mp hfits; omega⟩
  · rw [hempty]
    exact .inl ⟨_, rfl, rfl, rfl⟩

lemma weight_cond_signed (sign : Sign) (y : ℚ) :
    ((if sign = .neg then -y else y) = 0 ∨ InRange (if sign = .neg then -y else y) ∨
        ¬ Short maxNdigits (if sign = .neg then -y else y) ∨
        ¬ Short (room / 2) (if sign = .neg then -y else y)) ↔
      y = 0 ∨ InRange y ∨ ¬ Short maxNdigits y ∨ ¬ Short (room / 2) y := by
  split
  · rw [neg_eq_zero, inRange_neg, short_neg, short_neg]
  · rfl

/-- **What an addition returns**: nothing when the operands are not aligned, and otherwise the exact
sum exactly when its weight is kept. One case per branch of the source. -/
theorem add_spec (ha : a.Finite) (hb : b.Finite) (room : ℕ) :
    (¬ Aligned a b → a.add b room = none) ∧ (Aligned a b → ∃ r, a.add b room = some r ∧
        (Computes room (a.value + b.value) (max a.dscale b.dscale) r ↔
          a.value + b.value = 0 ∨ InRange (a.value + b.value) ∨
            ¬ Short maxNdigits (a.value + b.value) ∨ ¬ Short (room / 2) (a.value + b.value))) := by
  unfold add
  rw [ha.isNan_eq, hb.isNan_eq, ha.isInfinite_eq, hb.isInfinite_eq]
  simp only [Bool.or_self, Bool.false_eq_true, if_false]
  by_cases hane : a.digits = []
  · -- the sum is the second operand
    have haz := ha.isZero_iff.mpr hane
    rw [haz, value_nil hane, zero_add]
    simp only [Bool.or_true, Bool.true_or, if_true]
    refine ⟨fun hnot => absurd (fun h => absurd hane h) hnot, fun _ => ⟨_, rfl, ?_⟩⟩
    refine iff_of_true (finish_computes hb _) ?_
    by_cases hbne : b.digits = []
    · exact .inl (value_nil hbne)
    · exact .inr (.inl (hb.fits_iff hbne room).1)
  have haz : a.isZero = false := by simpa using ha.isZero_iff.not.mpr hane
  rw [haz]
  by_cases hbne : b.digits = []
  · have hbz := hb.isZero_iff.mpr hbne
    rw [hbz, value_nil hbne, add_zero]
    simp only [Bool.or_true, if_true, Bool.false_eq_true, if_false]
    refine ⟨fun hnot => absurd (fun _ h => absurd hbne h) hnot, fun _ => ⟨_, rfl, ?_⟩⟩
    exact iff_of_true (finish_computes ha _) (.inr (.inl (ha.fits_iff hane room).1))
  have hbz : b.isZero = false := by simpa using hb.isZero_iff.not.mpr hbne
  rw [hbz]
  simp only [Bool.or_false, decide_eq_true_eq, Bool.false_eq_true, if_false]
  by_cases hsign : a.sign = b.sign
  · rw [if_pos hsign]
    refine ⟨fun hnot => absurd (fun _ _ h => absurd hsign h) hnot, fun _ => ?_⟩
    have hsum : a.value + b.value =
        if a.sign = .neg then -(a.magnitude + b.magnitude) else a.magnitude + b.magnitude := by
      unfold value
      rw [← hsign]
      split <;> ring
    obtain ⟨r, hr, hiff⟩ := addMagnitudes_spec (max a.dscale b.dscale) room ha hb hane hbne ha.sign
    refine ⟨r, hr, ?_⟩
    rw [hsum, weight_cond_signed, hiff]
    exact (or_iff_right (add_pos (ha.magnitude_pos hane) (hb.magnitude_pos hbne)).ne').symm
  rw [if_neg hsign, ha.compareMagnitude_eq hb hane hbne]
  have hopposite : a.value + b.value =
        (if a.sign = .neg then -(a.magnitude - b.magnitude) else a.magnitude - b.magnitude) ∧
      a.value + b.value =
        if b.sign = .neg then -(b.magnitude - a.magnitude) else b.magnitude - a.magnitude := by
    unfold value
    rcases ha.sign with hs | hs <;> rcases hb.sign with ht | ht <;>
      simp only [hs, ht, reduceCtorEq, if_true, if_false] at hsign ⊢
    · exact absurd trivial hsign
    · constructor <;> ring
    · constructor <;> ring
    · exact absurd trivial hsign
  rcases lt_trichotomy a.magnitude b.magnitude with hlt | heq | hgt
  · rw [compare_lt_iff_lt.mpr hlt]
    have hwt : a.weight ≤ b.weight := by
      by_contra hgt
      exact (hb.magnitude_lt_of_weight ha hbne hane (not_le.mp hgt)).not_gt hlt
    have haligned : Aligned a b ↔ b.weight - min b.below a.below < maxNdigits * 2 + 4 := by
      unfold Aligned
      rw [max_eq_right hwt, min_comm]
      exact ⟨fun h => h hane hbne hsign hlt.ne, fun h _ _ _ _ => h⟩
    rw [haligned]
    refine ⟨fun hfar => subMagnitudes_far hbne (not_lt.mp hfar), fun hnear => ?_⟩
    obtain ⟨r, hr, hiff⟩ :=
      subMagnitudes_spec (max a.dscale b.dscale) room hb ha hbne hane hlt hnear hb.sign
    refine ⟨r, hr, ?_⟩
    rw [hopposite.2, weight_cond_signed, hiff]
    exact (or_iff_right (sub_pos.mpr hlt).ne').symm
  · rw [compare_eq_iff_eq.mpr heq]
    refine ⟨fun hnot => absurd (fun _ _ _ h => absurd heq h) hnot, fun _ => ⟨_, rfl, ?_⟩⟩
    have hzero : a.value + b.value = 0 := by
      rw [hopposite.1, heq, sub_self, neg_zero, ite_self]
    rw [hzero]
    exact iff_of_true (.inl ⟨_, rfl, value_nil rfl, rfl⟩) (.inl rfl)
  rw [compare_gt_iff_gt.mpr hgt]
  have hwt : b.weight ≤ a.weight := by
    by_contra hlt
    exact (ha.magnitude_lt_of_weight hb hane hbne (not_le.mp hlt)).not_gt hgt
  have haligned : Aligned a b ↔ a.weight - min a.below b.below < maxNdigits * 2 + 4 := by
    unfold Aligned
    rw [max_eq_left hwt]
    exact ⟨fun h => h hane hbne hsign hgt.ne', fun h _ _ _ _ => h⟩
  rw [haligned]
  refine ⟨fun hfar => subMagnitudes_far hane (not_lt.mp hfar), fun hnear => ?_⟩
  obtain ⟨r, hr, hiff⟩ :=
    subMagnitudes_spec (max a.dscale b.dscale) room ha hb hane hbne hgt hnear ha.sign
  refine ⟨r, hr, ?_⟩
  rw [hopposite.1, weight_cond_signed, hiff]
  exact (or_iff_right (sub_pos.mpr hgt).ne').symm

lemma add_exact_of (ha : a.Finite) (hb : b.Finite) :
    (∀ room, ∃ r, a.add b room = some r ∧
        Computes room (a.value + b.value) (max a.dscale b.dscale) r) ↔
      Aligned a b ∧ WeightKept (a.value + b.value) := by
  constructor
  · intro h
    obtain ⟨r, hr, hcomputes⟩ := h (2 * maxNdigits)
    obtain ⟨hfar, hnear⟩ := add_spec ha hb (2 * maxNdigits)
    have haligned : Aligned a b := by
      by_contra hnot
      rw [hfar hnot] at hr
      cases hr
    obtain ⟨r', hr', hiff⟩ := hnear haligned
    obtain rfl := some.inj (hr.symm.trans hr')
    refine ⟨haligned, ?_⟩
    rcases hiff.mp hcomputes with hzero | hrange | hlong | hlong
    · exact .inl hzero
    · exact .inr (.inl hrange)
    · exact .inr (.inr hlong)
    · exact .inr (.inr hlong)
  · rintro ⟨haligned, hkept⟩ room
    obtain ⟨r, hr, hiff⟩ := (add_spec ha hb room).2 haligned
    refine ⟨r, hr, hiff.mpr ?_⟩
    rcases hkept with hzero | hrange | hlong
    · exact .inl hzero
    · exact .inr (.inl hrange)
    · exact .inr (.inr (.inl hlong))

/-- **When additions and subtractions are exact.** In every room, the result is the exact sum or
difference at the larger display scale, or the error for a number that does not fit, exactly when
the places of a subtraction of magnitudes fit into the buffer and the weight of the result is kept.
Source: `add`, `sub`. -/
theorem add_sub_exact_iff (ha : a.Finite) (hb : b.Finite) :
    ((∀ room, ∃ r, a.add b room = some r ∧
      Computes room (a.value + b.value) (max a.dscale b.dscale) r) ↔
      Aligned a b ∧ WeightKept (a.value + b.value)) ∧
      ((∀ room, ∃ r, a.sub b room = some r ∧
        Computes room (a.value - b.value) (max a.dscale b.dscale) r) ↔
        Aligned a b.negated ∧ WeightKept (a.value - b.value)) := by
  refine ⟨add_exact_of ha hb, ?_⟩
  have hsub : ∀ room, a.sub b room = a.add b.negated room := fun room => by
    unfold sub
    rw [hb.isNan_eq, if_neg Bool.false_ne_true]
    rfl
  have hvalue : a.value - b.value = a.value + b.negated.value := by
    rw [hb.value_negated]
    ring
  simp only [hsub, hvalue]
  exact add_exact_of ha hb.negated

end Exact

/-! ## Numbers far apart, and numbers at the end of the range -/

/-- A single digit. -/
def ofDigit (d w : ℤ) : Numeric := ⟨.pos, w, 0, [d]⟩

lemma ofDigit_finite {d w : ℤ} (hd : 0 < d ∧ d < nbase) (hw : -32768 ≤ w ∧ w ≤ 32767) :
    (ofDigit d w).Finite where
  sign := .inl rfl
  weight := hw
  dscale := by simp [ofDigit]
  length := by simp [ofDigit]
  proper e he := by
    rw [mem_singleton.mp he]
    exact ⟨hd.1.le, hd.2⟩
  top e he := by
    cases he
    exact hd.1.ne'
  low e he := by
    cases he
    exact hd.1.ne'

/-- **Subtracting one from 10000 to the 2000th panics**, and adding 9999 and 1, both times 10000 to
the 32767th, wraps the weight and gives a number below one. -/
theorem subtraction_panics_and_addition_wraps :
    (ofDigit 1 2000).Finite ∧ (ofDigit 1 0).Finite ∧
      (ofDigit 1 2000).sub (ofDigit 1 0) 1024 = none ∧
      (ofDigit 9999 32767).Finite ∧ (ofDigit 1 32767).Finite ∧
      ∃ n, (ofDigit 9999 32767).add (ofDigit 1 32767) 1024 = some (.ok n) ∧
        n.value ≠ (ofDigit 9999 32767).value + (ofDigit 1 32767).value := by
  have hfin : ∀ {d w : ℤ}, 0 < d → d < 10000 → -32768 ≤ w → w ≤ 32767 → (ofDigit d w).Finite :=
    fun h₁ h₂ h₃ h₄ => ofDigit_finite ⟨h₁, h₂⟩ ⟨h₃, h₄⟩
  have hnines :=
    hfin (d := 9999) (w := 32767) (by norm_num) (by norm_num) (by norm_num) (by norm_num)
  refine ⟨hfin (by norm_num) (by norm_num) (by norm_num) (by norm_num),
    hfin (by norm_num) (by norm_num) (by norm_num) (by norm_num), by decide +kernel, hnines,
    hfin (by norm_num) (by norm_num) (by norm_num) (by norm_num), ofDigit 1 (-32768),
    by decide +kernel, ?_⟩
  -- the result is below one, the operands are not
  have hsmall : (ofDigit 1 (-32768)).value < 1 := by
    rw [value_of_pos rfl]
    exact ((hfin (by norm_num) (by norm_num) (by norm_num) (by norm_num)).weight_spec
      (by simp [ofDigit])).2.trans_le (zpow_le_one_of_nonpos₀ (by norm_num) (by simp [ofDigit]))
  have hlarge : 1 ≤ (ofDigit 9999 32767).value := by
    rw [value_of_pos rfl]
    exact (one_le_zpow₀ (by norm_num) (by simp [ofDigit])).trans
      (hnines.weight_spec (by simp [ofDigit])).1
  have hone : 0 ≤ (ofDigit 1 32767).value := by
    rw [value_of_pos rfl]
    exact (hfin (by norm_num) (by norm_num) (by norm_num) (by norm_num)).magnitude_nonneg
  intro heq
  linarith

lemma inRange_of_lt {x : ℚ} (hone : 1 ≤ x) (hlt : x < 10000) : InRange x := by
  unfold InRange
  rw [abs_of_nonneg (zero_le_one.trans hone)]
  refine ⟨(zpow_le_one_of_nonpos₀ (by norm_num) (by norm_num)).trans hone, hlt.trans_le ?_⟩
  have hpow : (10000 : ℚ) ^ (1 : ℤ) ≤ 10000 ^ (32768 : ℤ) :=
    zpow_le_zpow_right₀ (by norm_num) (by norm_num)
  rwa [zpow_one] at hpow

/-- Two and three. -/
theorem add_sub_exact_two_three :
    (ofDigit 2 0).Finite ∧ (ofDigit 3 0).Finite ∧
      ∃ r, (ofDigit 2 0).add (ofDigit 3 0) 1024 = some r ∧
        Computes 1024 ((ofDigit 2 0).value + (ofDigit 3 0).value) 0 r := by
  have htwo := ofDigit_finite (d := 2) (w := 0) (by norm_num) (by norm_num)
  have hthree := ofDigit_finite (d := 3) (w := 0) (by norm_num) (by norm_num)
  refine ⟨htwo, hthree,
    (add_sub_exact_iff htwo hthree).1.mpr ⟨fun _ _ h => absurd rfl h, .inr (.inl ?_)⟩ 1024⟩
  have hvalue : (ofDigit 2 0).value + (ofDigit 3 0).value = 5 := by
    simp only [value, magnitude, coefficient, exponent, ofDigit, reduceCtorEq, if_false]
    norm_num
  rw [hvalue]
  exact inRange_of_lt (by norm_num) (by norm_num)

end Numeric

end Pos3ql
