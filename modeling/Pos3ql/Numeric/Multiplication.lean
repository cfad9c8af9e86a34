import Pos3ql.Numeric.Addition

/-!
# Multiplication of numerics

The products of the digits are summed in columns, and one carry pass makes the columns digits. A
column is a 32-bit number and nothing bounds how many products it receives; the display scales are
added as 16-bit numbers. What happens then depends on the build: with overflow checks the process
panics, and without them the sum wraps.

* `Build`, `Build.addI32`, `Build.addU16`: the two meanings of an addition.
* `mulRow`, `mulRows`, `carryPass`, `mul`: as in the source, an absent result being a panic.
* `columnSum`, `ColumnsFit`: the columns as sums of products, and when they and their carries fit.
* **`mul_exact_iff`**: when every build returns the exact product or the overflow error.

A product of two digits is below 10000 squared, so the multiplication itself cannot overflow.

Source: `sql/numeric.rs` (`mul`), `Cargo.toml` (the profiles).
-/

namespace Pos3ql

open Foundation List Positional Option

/-- A build with overflow checks, or the release build without. Source: `Cargo.toml`. -/
inductive Build
  | checked
  | wrapping
  deriving DecidableEq, Repr

/-- The largest 32-bit signed number. Source: `i32::MAX`. -/
abbrev maxI32 : ℤ := 2147483647

/-- An addition of 32-bit signed numbers; no result is a panic. -/
def Build.addI32 (build : Build) (x y : ℤ) : Option ℤ :=
  if -maxI32 - 1 ≤ x + y ∧ x + y ≤ maxI32 then some (x + y)
  else match build with
    | .checked => none
    | .wrapping => some ((x + y).bmod 4294967296)

/-- An addition of 16-bit unsigned numbers; no result is a panic. -/
def Build.addU16 (build : Build) (x y : ℕ) : Option ℕ :=
  if x + y ≤ 65535 then some (x + y)
  else match build with
    | .checked => none
    | .wrapping => some ((x + y) % 65536)

section Build

variable {x y : ℤ}

lemma addI32_eq (build : Build) (hnonneg : 0 ≤ x + y) (h : x + y ≤ maxI32) :
    build.addI32 x y = some (x + y) := by
  unfold Build.addI32
  rw [if_pos ⟨by linarith, h⟩]

lemma addI32_panics (h : maxI32 < x + y) : Build.checked.addI32 x y = none := by
  unfold Build.addI32
  rw [if_neg fun hin => absurd hin.2 (not_le.mpr h)]

end Build

namespace Numeric

/-- Add the products with one digit into the buffer, from a weight down. Source: the inner loop of
`mul`. -/
def mulRow (build : Build) (da lo : ℤ) : List ℤ → ℤ → List ℤ → Option (List ℤ)
  | [], _, buffer => some buffer
  | d :: rest, weight, buffer =>
    let index := weight - lo
    if 0 ≤ index ∧ index < buffer.length then do
      let slot ← build.addI32 (buffer.getD index.toNat 0) (da * d)
      mulRow build da lo rest (weight - 1) (buffer.set index.toNat slot)
    else none

/-- Source: the outer loop of `mul`. -/
def mulRows (build : Build) (b : Numeric) (lo : ℤ) : List ℤ → ℤ → List ℤ → Option (List ℤ)
  | [], _, buffer => some buffer
  | da :: rest, weight, buffer => do
      let buffer ← mulRow build da lo b.digits (weight + b.weight) buffer
      mulRows build b lo rest (weight - 1) buffer

/-- Source: the carry loop of `mul`. -/
def carryPass (build : Build) : ℤ → List ℤ → Option (List ℤ)
  | _, [] => some []
  | carry, slot :: rest => do
      let sum ← build.addI32 slot carry
      let digits ← carryPass build (sum.tdiv nbase) rest
      some (sum.tmod nbase :: digits)

/-- Source: `mul`. -/
def mul (build : Build) (a b : Numeric) (room : ℕ) : Option (Except SqlError Numeric) :=
  if a.isNan || b.isNan then some (.ok nan)
  else if a.isInfinite || b.isInfinite then
    if a.isZero || b.isZero then some (.ok nan)
    else some (.ok (if a.isNegative != b.isNegative then negInfinity else posInfinity))
  else if a.isZero || b.isZero then do
    let dscale ← build.addU16 a.dscale b.dscale
    some (.ok ⟨.pos, 0, dscale, []⟩)
  else if maxNdigits * 2 < a.ndigits + b.ndigits + 1 then some (.error overflow)
  else do
    let lo := (a.weight - (a.ndigits - 1)) + (b.weight - (b.ndigits - 1))
    let buffer ← mulRows build b lo a.digits a.weight digitBuf
    let n := a.ndigits + b.ndigits
    let digits ← carryPass build 0 (buffer.take (n + 1))
    let sign := if a.sign = b.sign then .pos else .neg
    let dscale ← build.addU16 a.dscale b.dscale
    some (finishFromLsf sign lo digits dscale room)

/-! ## Columns -/

/-- The products of digits that meet in a column; the digits have the least significant first. -/
def columnSum (u v : List ℤ) (k : ℕ) : ℤ :=
  ∑ i ∈ Finset.range (k + 1), u.getD i 0 * v.getD (k - i) 0

/-- **Every column fits into 32 bits**, with what is carried into it from the columns below. -/
def ColumnsFit (a b : Numeric) : Prop :=
  ∀ c ≤ a.ndigits + b.ndigits, Positional.value nbase
        ((range (c + 1)).map (columnSum a.digits.reverse b.digits.reverse)) / nbase ^ c ≤ maxI32

instance (a b : Numeric) : Decidable (ColumnsFit a b) := by
  unfold ColumnsFit
  infer_instance

section Columns

variable {u v l : List ℤ}

lemma getD_concat (u : List ℤ) (x : ℤ) (k : ℕ) :
    (u ++ [x]).getD k 0 = u.getD k 0 + if k = u.length then x else 0 := by
  induction u generalizing k with
  | nil => cases k <;> simp
  | cons y u ih =>
    cases k with
    | zero => simp
    | succ k => simpa using ih k

lemma columnSum_concat (u v : List ℤ) (x : ℤ) (k : ℕ) :
    columnSum (u ++ [x]) v k =
      columnSum u v k + x * if u.length ≤ k then v.getD (k - u.length) 0 else 0 := by
  unfold columnSum
  simp only [getD_concat, add_mul, ite_mul, zero_mul, Finset.sum_add_distrib]
  congr 1
  rw [Finset.sum_ite_eq']
  simp only [Finset.mem_range, Nat.lt_succ_iff]
  split
  · rfl
  · rw [mul_zero]

lemma getD_addAt {i : ℕ} (hi : i < l.length) (x : ℤ) (k : ℕ) :
    (addAt l i x).getD k 0 = l.getD k 0 + if k = i then x else 0 := by
  unfold addAt
  rw [getD_eq_getElem?_getD]
  by_cases hk : k = i
  · subst hk
    simp [getElem?_eq_getElem hi]
  · simp [Ne.symm hk, hk]

lemma set_eq_addAt (i : ℕ) (x : ℤ) : l.set i (l.getD i 0 + x) = addAt l i x := by
  unfold addAt
  refine ext_getElem? fun k => ?_
  rw [getElem?_modify]
  by_cases hk : i = k
  · subst hk
    by_cases hi : i < l.length
    · simp [hi]
    · simp [hi]
  · simp [hk]

end Columns

/-! ## Rows -/

/-- No slot of the buffer is negative, or over the largest 32-bit number. -/
def Nonneg (l : List ℤ) : Prop := ∀ k, 0 ≤ l.getD k 0

/-- No slot of the buffer is over the largest 32-bit number. -/
def Below (l : List ℤ) : Prop := ∀ k, l.getD k 0 ≤ maxI32

section Rows

variable {lo da weight : ℤ} {l ds : List ℤ} {p : ℕ}

/-- What one row adds, without bounds on the sums. Induction on the digits from the top. -/
lemma accumulateFrom_row (hwt : weight - lo + 1 = p + ds.length)
    (hfits : p + ds.length ≤ l.length) :
    ∃ l', accumulateFrom lo da ds weight l = some l' ∧ l'.length = l.length ∧
      (∀ k, l'.getD k 0 = l.getD k 0 + da * if p ≤ k then ds.reverse.getD (k - p) 0 else 0) ∧
      Positional.value nbase l' =
        Positional.value nbase l + da * (nbase ^ p * Positional.value nbase ds.reverse) := by
  induction ds generalizing l weight with
  | nil => exact ⟨l, rfl, rfl, by simp, by simp⟩
  | cons d ds ih =>
    rw [length_cons] at hwt hfits
    have hindex : weight - lo = ((p + ds.length : ℕ) : ℤ) := by push_cast at hwt ⊢; linarith
    have hlt : p + ds.length < l.length := by omega
    obtain ⟨l', hrun, hlen, hslots, hvalue⟩ :=
      @ih (weight - 1) (addAt l (p + ds.length) (da * d))
        (by push_cast at hindex; linarith) (by rw [length_addAt]; omega)
    refine ⟨l', ?_, by rw [hlen, length_addAt], fun k => ?_, ?_⟩
    · rw [accumulateFrom]
      simp only [hindex, Int.toNat_natCast]
      rw [if_pos ⟨by positivity, by exact_mod_cast hlt⟩]
      exact hrun
    · rw [hslots k, getD_addAt hlt, reverse_cons, add_assoc]
      congr 1
      by_cases hk : p ≤ k
      · rw [if_pos hk, if_pos hk, getD_concat, length_reverse]
        by_cases htop : k = p + ds.length
        · rw [if_pos htop, if_pos (by omega)]
          ring
        · rw [if_neg htop, if_neg (by omega), add_zero, zero_add]
      · rw [if_neg hk, if_neg hk, if_neg (by omega), zero_add]
    · rw [hvalue, value_addAt hlt, value_reverse_cons]
      ring

lemma row_le {l' : List ℤ} (hda : 0 ≤ da) (hds : Proper nbase ds)
    (hslots : ∀ k, l'.getD k 0 = l.getD k 0 + da * if p ≤ k then ds.reverse.getD (k - p) 0 else 0)
    (k : ℕ) :
    l.getD k 0 ≤ l'.getD k 0 := by
  rw [hslots k]
  refine le_add_of_nonneg_right (mul_nonneg hda ?_)
  split
  · by_cases hk : k - p < ds.reverse.length
    · rw [getD_eq_getElem _ _ hk]
      exact (hds.reverse _ (getElem_mem hk)).1
    · rw [getD_eq_default _ _ (not_lt.mp hk)]
  · exact le_rfl

/-- **A row is exact when its sums fit, and panics in a checked build when one does not.** Induction
on the digits; a sum that does not fit stays in the buffer of the exact run. -/
theorem mulRow_spec (hwt : weight - lo + 1 = p + ds.length) (hfits : p + ds.length ≤ l.length)
    (hda : 0 ≤ da) (hds : Proper nbase ds) (hnonneg : Nonneg l) {l' : List ℤ}
    (hrun : accumulateFrom lo da ds weight l = some l') :
    (Below l' → ∀ build, mulRow build da lo ds weight l = some l') ∧
      (Below l → ¬ Below l' → mulRow .checked da lo ds weight l = none) := by
  induction ds generalizing l weight with
  | nil =>
    cases hrun
    exact ⟨fun _ _ => rfl, fun h hnot => absurd h hnot⟩
  | cons d ds ih =>
    obtain ⟨hd, hrest⟩ := hds.cons
    rw [length_cons] at hwt hfits
    have hindex : weight - lo = ((p + ds.length : ℕ) : ℤ) := by push_cast at hwt ⊢; linarith
    have hlt : p + ds.length < l.length := by omega
    have hinside : 0 ≤ ((p + ds.length : ℕ) : ℤ) ∧ ((p + ds.length : ℕ) : ℤ) < (l.length : ℤ) :=
      ⟨by positivity, by exact_mod_cast hlt⟩
    rw [accumulateFrom] at hrun
    simp only [hindex, Int.toNat_natCast] at hrun
    rw [if_pos hinside] at hrun
    have hgrow : 0 ≤ da * d := mul_nonneg hda hd.1
    have hwt' : weight - 1 - lo + 1 = p + ds.length := by push_cast at hindex; linarith
    have hfits' : p + ds.length ≤ (addAt l (p + ds.length) (da * d)).length := by
      rw [length_addAt]
      omega
    have hnonneg' : Nonneg (addAt l (p + ds.length) (da * d)) := fun k => by
      rw [getD_addAt hlt]
      refine add_nonneg (hnonneg k) ?_
      split
      · exact hgrow
      · exact le_rfl
    obtain ⟨hexact, hpanics⟩ := ih hwt' hfits' hrest hnonneg' hrun
    -- the sum stays in the buffer
    obtain ⟨l'', hrun'', -, hslots, -⟩ :=
      @accumulateFrom_row lo da (weight - 1) _ ds p hwt' hfits'
    obtain rfl := some.inj (hrun.symm.trans hrun'')
    have hstays : l.getD (p + ds.length) 0 + da * d ≤ l'.getD (p + ds.length) 0 := by
      have hle := row_le hda hrest hslots (p + ds.length)
      rwa [getD_addAt hlt, if_pos rfl] at hle
    have hsum : 0 ≤ l.getD (p + ds.length) 0 + da * d := add_nonneg (hnonneg _) hgrow
    simp only [mulRow, hindex, Int.toNat_natCast, if_pos hinside, Option.bind_eq_bind]
    constructor
    · intro hbelow build
      rw [addI32_eq build hsum (hstays.trans (hbelow _)), bind_some, set_eq_addAt]
      exact hexact hbelow build
    intro hbefore hnot
    by_cases hover : maxI32 < l.getD (p + ds.length) 0 + da * d
    · rw [addI32_panics hover, bind_none]
    rw [addI32_eq _ hsum (not_lt.mp hover), bind_some, set_eq_addAt]
    refine hpanics (fun k => ?_) hnot
    rw [getD_addAt hlt]
    split
    · rename_i hk
      rw [hk]
      exact not_lt.mp hover
    · rw [add_zero]
      exact hbefore k

/-- **What all rows leave in the buffer**: the columns, when they fit. Induction on the digits of
the first factor from the top. -/
theorem mulRows_spec {b : Numeric} (hb : b.Finite) {as : List ℤ} (has : Proper nbase as)
    (hwt : weight + b.weight - lo + 2 = as.length + b.digits.length)
    (hfits : as.length + b.digits.length ≤ l.length + 1) (hnonneg : Nonneg l) :
    ∃ l', l'.length = l.length ∧ Nonneg l' ∧
      (∀ k, l'.getD k 0 = l.getD k 0 + columnSum as.reverse b.digits.reverse k) ∧
      Positional.value nbase l' =
        Positional.value nbase l +
          Positional.value nbase as.reverse * Positional.value nbase b.digits.reverse ∧
      (∀ k, l.getD k 0 ≤ l'.getD k 0) ∧
      (Below l' → ∀ build, mulRows build b lo as weight l = some l') ∧
      (Below l → ¬ Below l' → mulRows .checked b lo as weight l = none) := by
  induction as generalizing l weight with
  | nil =>
    refine ⟨l, rfl, hnonneg, fun k => ?_, by simp, fun k => le_rfl, fun _ _ => rfl,
      fun h hnot => absurd h hnot⟩
    simp [columnSum]
  | cons d as ih =>
    obtain ⟨hd, hrest⟩ := has.cons
    rw [length_cons] at hwt hfits
    push_cast at hwt
    have hrowWeight : weight + b.weight - lo + 1 = (as.length : ℤ) + b.digits.length := by linarith
    have hrowFits : as.length + b.digits.length ≤ l.length := by omega
    obtain ⟨m, hrow, hlen, hslots, hvalue⟩ :=
      @accumulateFrom_row lo d _ l b.digits as.length hrowWeight hrowFits
    have hgrow := row_le hd.1 hb.proper hslots
    obtain ⟨hexact, hpanics⟩ := mulRow_spec hrowWeight hrowFits hd.1 hb.proper hnonneg hrow
    obtain ⟨l', hlen', hnonneg', hslots', hvalue', hgrow', hexact', hpanics'⟩ :=
      @ih (weight - 1) m hrest (by linarith) (by omega) (fun k => (hnonneg k).trans (hgrow k))
    simp only [mulRows, Option.bind_eq_bind]
    refine ⟨l', hlen'.trans hlen, hnonneg', fun k => ?_, ?_,
      fun k => (hgrow k).trans (hgrow' k), fun hbelow build => ?_, fun hbefore hnot => ?_⟩
    · rw [hslots' k, hslots k, reverse_cons, columnSum_concat, length_reverse]
      ring
    · rw [hvalue', hvalue, value_reverse_cons]
      ring
    · rw [hexact (fun k => (hgrow' k).trans (hbelow k)) build]
      exact hexact' hbelow build
    by_cases hm : Below m
    · rw [hexact hm]
      exact hpanics' hm hnot
    · rw [hpanics hbefore hm, bind_none]

end Rows

/-! ## Carries -/

section Carries

variable {l : List ℤ}

/-- **A carry pass is exact when every column fits with its carry, and panics in a checked build
when one does not.** Induction on the columns from the bottom. -/
theorem carryPass_spec (hl : ∀ d ∈ l, 0 ≤ d) {carry : ℤ} (hcarry : 0 ≤ carry) :
    ((∀ i < l.length, (carry + Positional.value nbase (l.take (i + 1))) / nbase ^ i ≤ maxI32) →
        ∀ build, carryPass build carry l = some (pass carryStep carry l).1) ∧
      (¬ (∀ i < l.length, (carry + Positional.value nbase (l.take (i + 1))) / nbase ^ i ≤ maxI32) →
        carryPass .checked carry l = none) := by
  induction l generalizing carry with
  | nil => exact ⟨fun _ _ => rfl, fun h => absurd nofun h⟩
  | cons d l ih =>
    have hd : 0 ≤ d := hl d mem_cons_self
    have hsum : 0 ≤ d + carry := add_nonneg hd hcarry
    have hdiv : (d + carry).tdiv nbase = (d + carry) / nbase := Int.tdiv_eq_ediv_of_nonneg hsum
    -- the condition, taken apart at the first column
    have hshift : ∀ i,
        (carry + Positional.value nbase ((d :: l).take (i + 1 + 1))) / nbase ^ (i + 1) =
        ((d + carry) / nbase + Positional.value nbase (l.take (i + 1))) / nbase ^ i := fun i => by
      rw [take_succ_cons, value_cons, pow_succ', ← Int.ediv_ediv_of_nonneg (by norm_num),
        show carry + (d + nbase * Positional.value nbase (l.take (i + 1))) =
          d + carry + nbase * Positional.value nbase (l.take (i + 1)) by ring,
        Int.add_mul_ediv_left _ _ (by norm_num)]
    have hsplit : (∀ i < (d :: l).length,
          (carry + Positional.value nbase ((d :: l).take (i + 1))) / nbase ^ i ≤ maxI32) ↔
        d + carry ≤ maxI32 ∧ ∀ i < l.length,
          ((d + carry) / nbase + Positional.value nbase (l.take (i + 1))) / nbase ^ i ≤ maxI32 := by
      constructor
      · intro h
        refine ⟨?_, fun i hi => ?_⟩
        · have hzero := h 0 (by simp)
          simpa [add_comm] using hzero
        · rw [← hshift]
          exact h (i + 1) (by simpa using hi)
      · rintro ⟨hzero, hsucc⟩ (_ | i) hi
        · simpa [add_comm] using hzero
        · rw [hshift]
          exact hsucc i (by simpa using hi)
    obtain ⟨hexact, hpanics⟩ := ih (forall_mem_cons.mp hl).2
      (Int.ediv_nonneg hsum (by norm_num : (0 : ℤ) ≤ nbase))
    rw [hsplit]
    simp only [carryPass, Option.bind_eq_bind]
    constructor
    · rintro ⟨hfirst, hrest⟩ build
      rw [addI32_eq build hsum hfirst, bind_some, hdiv, hexact hrest build, bind_some, pass_cons]
      unfold carryStep
      rw [hdiv]
    intro hnot
    by_cases hfirst : d + carry ≤ maxI32
    · rw [addI32_eq _ hsum hfirst, bind_some, hdiv,
        hpanics fun hrest => hnot ⟨hfirst, hrest⟩, bind_none]
    · rw [addI32_panics (not_le.mp hfirst), bind_none]

end Carries

/-! ## Exactness -/

/-- The exact number at its display scale, or the overflow error. -/
def ExactOrOverflow (x : ℚ) (dscale : ℕ) (r : Except SqlError Numeric) : Prop :=
  (∃ n : Numeric, r = .ok n ∧ n.value = x ∧ n.dscale = dscale) ∨ r = .error overflow

/-- **A product that no build gets wrong**: it is refused for its length, or the display scales, the
columns and the weight all fit. -/
def MulSafe (a b : Numeric) : Prop :=
  maxNdigits * 2 < a.ndigits + b.ndigits + 1 ∨
    a.dscale + b.dscale ≤ 65535 ∧ ColumnsFit a b ∧ WeightKept (a.value * b.value)

section Exact

variable {a b : Numeric} {room : ℕ}

lemma columnSum_beyond {u v : List ℤ} {k : ℕ} (h : u.length + v.length ≤ k) :
    columnSum u v k = 0 := by
  refine Finset.sum_eq_zero fun i _ => ?_
  by_cases hi : i < u.length
  · rw [getD_eq_default v 0 (by omega), mul_zero]
  · rw [getD_eq_default u 0 (not_lt.mp hi), zero_mul]

lemma columnsFit_of_nil (h : a.digits = [] ∨ b.digits = []) : ColumnsFit a b := by
  intro c _
  have hzero : columnSum a.digits.reverse b.digits.reverse = fun _ => 0 := by
    funext k
    rcases h with h | h <;> simp [columnSum, h]
  rw [hzero]
  norm_num

lemma value_nonneg_of_nonneg {l : List ℤ} (h : ∀ d ∈ l, 0 ≤ d) : 0 ≤ Positional.value nbase l := by
  induction l with
  | nil => exact le_rfl
  | cons d l ih =>
    exact add_nonneg (h d mem_cons_self) (mul_nonneg (by norm_num) (ih (forall_mem_cons.mp h).2))

lemma getD_digitBuf (k : ℕ) : digitBuf.getD k 0 = 0 := by
  unfold digitBuf
  rw [getD_eq_getElem?_getD, getElem?_replicate]
  split <;> rfl

lemma take_eq_columns {u v l : List ℤ} (h : ∀ k, l.getD k 0 = columnSum u v k) {c : ℕ}
    (hc : c ≤ l.length) : l.take c = (range c).map (columnSum u v) := by
  refine ext_getElem (by simpa using hc) fun k hk hk' => ?_
  have hlt : k < l.length := by
    rw [length_take] at hk
    omega
  rw [getElem_take, getElem_map, getElem_range, ← h k, getD_eq_getElem _ _ hlt]

lemma below_of_columnsFit (hfit : ColumnsFit a b) {l : List ℤ} (hnonneg : Nonneg l)
    (h : ∀ k, l.getD k 0 = columnSum a.digits.reverse b.digits.reverse k) : Below l := by
  intro k
  by_cases hk : k ≤ a.ndigits + b.ndigits
  · have hpow : (0 : ℤ) < nbase ^ k := by positivity
    refine le_trans ?_ (hfit k hk)
    rw [Int.le_ediv_iff_mul_le hpow, range_succ, map_append, value_append, length_map, length_range,
      map_singleton, value_cons, Positional.value_nil, ← h k]
    have hbelow : 0 ≤ Positional.value nbase
        ((range k).map (columnSum a.digits.reverse b.digits.reverse)) := by
      refine value_nonneg_of_nonneg fun d hd => ?_
      obtain ⟨j, -, rfl⟩ := mem_map.mp hd
      rw [← h j]
      exact hnonneg j
    linarith
  · rw [h k, columnSum_beyond]
    · norm_num
    · simp only [length_reverse]
      unfold ndigits at hk
      omega

/-- **What the columns of a product of nonzero factors come to.** -/
theorem mul_spec (ha : a.Finite) (hb : b.Finite) (hane : a.digits ≠ []) (hbne : b.digits ≠ [])
    (hlength : ¬ maxNdigits * 2 < a.ndigits + b.ndigits + 1) (room : ℕ) :
    (¬ (a.dscale + b.dscale ≤ 65535 ∧ ColumnsFit a b) → mul .checked a b room = none) ∧
      (a.dscale + b.dscale ≤ 65535 → ColumnsFit a b → ∃ r, (∀ build, mul build a b room = some r) ∧
        (Computes room (a.value * b.value) (a.dscale + b.dscale) r ↔
          InRange (a.value * b.value) ∨ ¬ Short maxNdigits (a.value * b.value) ∨
            ¬ Short (room / 2) (a.value * b.value))) := by
  set lo := (a.weight - (a.ndigits - 1)) + (b.weight - (b.ndigits - 1)) with hlo
  have hsize : digitBuf.length = 1028 := length_replicate
  have hshort : a.ndigits + b.ndigits + 1 ≤ 1024 := not_lt.mp hlength
  obtain ⟨l, hlen, hnonneg, hslots, hvalue, -, hrows, hrowsPanic⟩ := @mulRows_spec lo a.weight
    digitBuf b hb a.digits ha.proper (by rw [hlo]; unfold ndigits; ring)
    (by rw [hsize]; unfold ndigits at hshort; omega) (fun k => (getD_digitBuf k).ge)
  have hstart : Below digitBuf := fun k => by rw [getD_digitBuf]; norm_num
  have hcolumns : ∀ k, l.getD k 0 = columnSum a.digits.reverse b.digits.reverse k := fun k => by
    rw [hslots k, getD_digitBuf, zero_add]
  have hzero : Positional.value nbase digitBuf = 0 := value_zeros _
  rw [hzero, zero_add] at hvalue
  -- the columns that the carry pass goes over
  set n := a.ndigits + b.ndigits with hn
  have htake : (l.take (n + 1)).length = n + 1 := by
    rw [length_take]
    omega
  have hslotsNonneg : ∀ d ∈ l.take (n + 1), 0 ≤ d := fun d hd => by
    obtain ⟨k, hk, rfl⟩ := getElem_of_mem (mem_of_mem_take hd)
    have hslot := hnonneg k
    rwa [getD_eq_getElem _ _ hk] at hslot
  obtain ⟨hcarry, hcarryPanic⟩ := carryPass_spec hslotsNonneg le_rfl
  have hfit : (∀ i < (l.take (n + 1)).length,
        (0 + Positional.value nbase ((l.take (n + 1)).take (i + 1))) / nbase ^ i ≤ maxI32) ↔
      ColumnsFit a b := by
    have heach : ∀ i ≤ n,
        Positional.value nbase ((l.take (n + 1)).take (i + 1)) = Positional.value nbase
          ((range (i + 1)).map (columnSum a.digits.reverse b.digits.reverse)) := fun i hi => by
      rw [take_take, min_eq_left (by omega), take_eq_columns hcolumns (by omega)]
    rw [htake]
    constructor
    · intro h c hc
      rw [← heach c hc, ← zero_add (Positional.value _ _)]
      exact h c (by omega)
    · intro h i hi
      rw [zero_add, heach i (by omega)]
      exact h i (by omega)
  rw [hfit] at hcarry hcarryPanic
  have haz : a.isZero = false := by simpa using ha.isZero_iff.not.mpr hane
  have hbz : b.isZero = false := by simpa using hb.isZero_iff.not.mpr hbne
  unfold mul
  simp only [ha.isNan_eq, hb.isNan_eq, ha.isInfinite_eq, hb.isInfinite_eq, haz, hbz, hlength,
    Bool.or_self, Bool.false_eq_true, if_false, ← hlo, ← hn, Option.bind_eq_bind]
  constructor
  · intro hnot
    by_cases hbelow : Below l
    · rw [hrows hbelow, bind_some]
      by_cases hcols : ColumnsFit a b
      · rw [hcarry hcols]
        have hscale : ¬ a.dscale + b.dscale ≤ 65535 := fun h => hnot ⟨h, hcols⟩
        unfold Build.addU16
        rw [if_neg hscale]
        rfl
      · rw [hcarryPanic hcols, bind_none]
    · rw [hrowsPanic hstart hbelow, bind_none]
  intro hscale hcols
  have hbelow := below_of_columnsFit hcols hnonneg hcolumns
  set digits := (pass carryStep 0 (l.take (n + 1))).1 with hdigits
  have hadd : ∀ build : Build, build.addU16 a.dscale b.dscale = some (a.dscale + b.dscale) :=
    fun build => by unfold Build.addU16; rw [if_pos hscale]
  refine ⟨_, fun build => by
    rw [hrows hbelow, bind_some, hcarry hcols, bind_some, hadd, bind_some], ?_⟩
  -- the digits are proper and keep the number
  obtain ⟨hlast, hprop⟩ := pass_forall (fun carry => 0 ≤ carry) (fun d => 0 ≤ d)
    (fun d => 0 ≤ d ∧ d < nbase) (fun _ _ h₁ h₂ => carryStep_proper h₁ h₂) le_rfl hslotsNonneg
  have hpass := @Positional.value_pass nbase _ carryStep_keeps 0 (l.take (n + 1))
  rw [add_zero, htake, ← hdigits, value_take, hvalue] at hpass
  · have hproduct : Positional.value nbase a.digits.reverse *
        Positional.value nbase b.digits.reverse <
        nbase ^ n := by
      have hlt :=
        mul_lt_mul'' (ha.proper.reverse.value_lt (by norm_num)) (hb.proper.reverse.value_lt (by
        norm_num)) ha.proper.reverse.value_nonneg hb.proper.reverse.value_nonneg
      rwa [length_reverse, length_reverse, ← pow_add] at hlt
    have hdigitsNonneg : 0 ≤ Positional.value nbase digits :=
      value_nonneg_of_nonneg fun d hd => (hprop d hd).1
    have hnone : (pass carryStep 0 (l.take (n + 1))).2 = 0 := by
      by_contra hne
      have hone : 1 ≤ (pass carryStep 0 (l.take (n + 1))).2 :=
        lt_of_le_of_ne hlast (Ne.symm hne)
      have hbig : nbase ^ (n + 1) * 1 ≤ nbase ^ (n + 1) * (pass carryStep 0 (l.take (n + 1))).2 :=
        mul_le_mul_of_nonneg_left hone (by positivity)
      have hmono : nbase ^ n ≤ nbase ^ (n + 1) := pow_le_pow_right₀ (by norm_num) (by omega)
      linarith
    rw [hnone, mul_zero, add_zero] at hpass
    have hx : a.magnitude * b.magnitude = Positional.value nbase digits * (10000 : ℚ) ^ lo := by
      rw [hpass]
      unfold magnitude coefficient exponent
      rw [show lo = (a.weight + 1 - a.digits.length) + (b.weight + 1 - b.digits.length) by
        rw [hlo]; unfold ndigits; ring, zpow_add₀ nbase_ne]
      push_cast
      ring
    have hsigned : a.value * b.value =
        if (if a.sign = b.sign then Sign.pos else .neg) = .neg then -(a.magnitude * b.magnitude)
        else a.magnitude * b.magnitude := by
      unfold value
      rcases ha.sign with hs | hs <;> rcases hb.sign with ht | ht <;>
        simp only [hs, ht, reduceCtorEq, if_true, if_false] <;> ring
    have hpos : a.magnitude * b.magnitude ≠ 0 :=
      (mul_pos (ha.magnitude_pos hane) (hb.magnitude_pos hbne)).ne'
    have hsign : (if a.sign = b.sign then Sign.pos else .neg) = .pos ∨
        (if a.sign = b.sign then Sign.pos else .neg) = .neg := by
      split
      · exact .inl rfl
      · exact .inr rfl
    have hspec := @finishFromLsf_spec _ lo digits (a.dscale + b.dscale) room hprop _ hx hsign
    have hcond := @weight_cond_signed room (if a.sign = b.sign then Sign.pos else .neg)
      (a.magnitude * b.magnitude)
    rw [← hsigned] at hspec hcond
    rw [hspec, ← hcond]
    exact or_iff_right fun h => hpos (by
      rcases ha.sign with hs | hs <;> rcases hb.sign with ht | ht <;>
        simpa [value_of_pos, value_of_neg, hs, ht] using h)
  · -- nothing is above the columns
    intro d hd
    obtain ⟨k, hk, rfl⟩ := getElem_of_mem hd
    rw [getElem_drop]
    have hk' : n + 1 + k < l.length := by
      rw [length_drop] at hk
      omega
    rw [← getD_eq_getElem _ 0 hk', hcolumns, columnSum_beyond]
    simp only [length_reverse]
    unfold ndigits at hn
    omega

/-- The overflow error counts as an answer also where the number would fit. -/
lemma exactOrOverflow_iff {x : ℚ} {dscale : ℕ} {r : Except SqlError Numeric}
    (h : Computes room x dscale r ↔ InRange x ∨ ¬ Short maxNdigits x ∨ ¬ Short (room / 2) x)
    (hne : x ≠ 0) :
    ExactOrOverflow x dscale r ↔
      InRange x ∨ ¬ Short maxNdigits x ∨ ¬ Short (room / 2) x := by
  constructor
  · rintro (hexact | herror)
    · exact h.mp (.inl hexact)
    by_cases hin : InRange x
    · exact .inl hin
    refine h.mp (.inr ⟨herror, ?_⟩)
    rintro (hzero | ⟨hrange, -⟩)
    · exact hne hzero
    · exact hin hrange
  · intro hcond
    rcases h.mpr hcond with hexact | ⟨herror, -⟩
    · exact .inl hexact
    · exact .inr herror

/-- **When a multiplication is exact.** In every build and every room, the result is the exact
product with the sum of the display scales, or the overflow error, exactly when the product is
refused for its length or display scales, columns and weight fit. Source: `mul`. -/
theorem mul_exact_iff (ha : a.Finite) (hb : b.Finite) :
    (∀ build room, ∃ r, mul build a b room = some r ∧
        ExactOrOverflow (a.value * b.value) (a.dscale + b.dscale) r) ↔ MulSafe a b := by
  by_cases hnil : a.digits = [] ∨ b.digits = []
  · -- only the display scales are added
    have hzero : a.value * b.value = 0 := by
      rcases hnil with h | h <;> simp [value_nil h]
    have hsome : (a.isZero || b.isZero) = true := by
      rcases hnil with h | h
      · rw [ha.isZero_iff.mpr h, Bool.true_or]
      · rw [hb.isZero_iff.mpr h, Bool.or_true]
    have hlen : ¬ maxNdigits * 2 < a.ndigits + b.ndigits + 1 := by
      have hla := ha.length
      have hlb := hb.length
      rw [show maxNdigits = 512 from rfl] at *
      unfold ndigits
      rcases hnil with h | h <;> rw [h, length_nil] <;> omega
    unfold MulSafe mul
    simp only [ha.isNan_eq, hb.isNan_eq, ha.isInfinite_eq, hb.isInfinite_eq, hsome, Bool.or_self,
      Bool.false_eq_true, if_false, if_true, Option.bind_eq_bind]
    rw [or_iff_right hlen, hzero]
    constructor
    · intro h
      obtain ⟨r, hr, -⟩ := h .checked 0
      refine ⟨?_, columnsFit_of_nil hnil, .inl rfl⟩
      by_contra hscale
      unfold Build.addU16 at hr
      rw [if_neg hscale] at hr
      cases hr
    · rintro ⟨hscale, -⟩ build room
      refine ⟨_, ?_, .inl ⟨⟨.pos, 0, a.dscale + b.dscale, []⟩, rfl, value_nil rfl, rfl⟩⟩
      unfold Build.addU16
      rw [if_pos hscale]
      rfl
  obtain ⟨hane, hbne⟩ := not_or.mp hnil
  have hne : a.value * b.value ≠ 0 := by
    have hmag := mul_ne_zero (ha.magnitude_pos hane).ne' (hb.magnitude_pos hbne).ne'
    rcases ha.sign with hs | hs <;> rcases hb.sign with ht | ht <;>
      simpa [value_of_pos, value_of_neg, hs, ht] using hmag
  unfold MulSafe
  by_cases hlen : maxNdigits * 2 < a.ndigits + b.ndigits + 1
  · refine iff_of_true (fun build room => ⟨.error overflow, ?_, .inr rfl⟩) (.inl hlen)
    have haz : a.isZero = false := by simpa using ha.isZero_iff.not.mpr hane
    have hbz : b.isZero = false := by simpa using hb.isZero_iff.not.mpr hbne
    unfold mul
    rw [ha.isNan_eq, hb.isNan_eq, ha.isInfinite_eq, hb.isInfinite_eq, haz, hbz]
    simp only [Bool.or_self, Bool.false_eq_true, if_false, hlen, if_true]
  rw [or_iff_right hlen]
  constructor
  · intro h
    obtain ⟨r, hr, hexact⟩ := h .checked (2 * maxNdigits)
    obtain ⟨hpanics, hspec⟩ := mul_spec ha hb hane hbne hlen (2 * maxNdigits)
    have hsafe : a.dscale + b.dscale ≤ 65535 ∧ ColumnsFit a b := by
      by_contra hnot
      rw [hpanics hnot] at hr
      cases hr
    obtain ⟨r', hr', hiff⟩ := hspec hsafe.1 hsafe.2
    obtain rfl := some.inj (hr.symm.trans (hr' _))
    refine ⟨hsafe.1, hsafe.2, .inr ?_⟩
    rcases (exactOrOverflow_iff hiff hne).mp hexact with hin | hlong | hlong
    · exact .inl hin
    · exact .inr hlong
    · exact .inr hlong
  · rintro ⟨hscale, hcols, hkept⟩ build room
    obtain ⟨r, hr, hiff⟩ := (mul_spec ha hb hane hbne hlen room).2 hscale hcols
    refine ⟨r, hr build, (exactOrOverflow_iff hiff hne).mpr ?_⟩
    rcases hkept with hzero | hin | hlong
    · exact absurd hzero hne
    · exact .inl hin
    · exact .inr (.inl hlong)

end Exact

/-! ## Nines, and the ends of the ranges -/

/-- An integer of nines. -/
def nines (k : ℕ) : Numeric := ⟨.pos, k - 1, 0, replicate k 9999⟩

lemma nines_finite {k : ℕ} (hk : k ≤ maxNdigits) : (nines k).Finite where
  sign := .inl rfl
  weight := by
    rw [show maxNdigits = 512 from rfl] at hk
    simp only [nines]
    omega
  dscale := by simp [nines]
  length := by simpa [nines] using hk
  proper d hd := by
    rw [eq_of_mem_replicate hd]
    norm_num
  top d hd := by
    rw [eq_of_mem_replicate (mem_of_mem_head? hd)]
    norm_num
  low d hd := by
    rw [eq_of_mem_replicate (mem_of_mem_getLast? hd)]
    norm_num

lemma value_of_integer {n : Numeric} (hsign : n.sign = .pos) (hexponent : n.exponent = 0) :
    n.value = n.coefficient := by
  rw [value_of_pos hsign]
  unfold magnitude
  rw [hexponent, zpow_zero, mul_one]

/-- What the release build returns for the square of 88 nines; one of the digits is negative. -/
def wrappedSquare : Numeric :=
  ⟨.pos, 43, 0, replicate 20 9999 ++ [9957, 502, -7296] ++ replicate 20 0 ++ [1]⟩

/-- **Multiplying two numbers of 88 nines panics** in a checked build, and gives another number in a
release build. -/
theorem multiplication_overflows :
    (nines 22).Finite ∧ mul .checked (nines 22) (nines 22) 1024 = none ∧
      ∃ n, mul .wrapping (nines 22) (nines 22) 1024 = some (.ok n) ∧
        n.value ≠ (nines 22).value * (nines 22).value := by
  refine ⟨nines_finite (by norm_num), by decide +kernel, wrappedSquare, by decide +kernel, ?_⟩
  rw [value_of_integer rfl (by decide), value_of_integer rfl (by decide)]
  rw [← Int.cast_mul]
  exact fun heq => absurd (Int.cast_injective heq) (by decide +kernel)

/-- Two times three. -/
theorem mul_exact_two_three :
    (ofDigit 2 0).Finite ∧ (ofDigit 3 0).Finite ∧
      ∃ r, mul .checked (ofDigit 2 0) (ofDigit 3 0) 1024 = some r ∧
        ExactOrOverflow ((ofDigit 2 0).value * (ofDigit 3 0).value) 0 r := by
  have htwo := ofDigit_finite (d := 2) (w := 0) (by norm_num) (by norm_num)
  have hthree := ofDigit_finite (d := 3) (w := 0) (by norm_num) (by norm_num)
  refine ⟨htwo, hthree,
    (mul_exact_iff htwo hthree).mpr (.inr ⟨by decide, by decide, .inr (.inl ?_)⟩) .checked 1024⟩
  have hvalue : (ofDigit 2 0).value * (ofDigit 3 0).value = 6 := by
    simp only [value, magnitude, coefficient, exponent, ofDigit, reduceCtorEq, if_false]
    norm_num
  rw [hvalue]
  exact inRange_of_lt (by norm_num) (by norm_num)

end Numeric

end Pos3ql
