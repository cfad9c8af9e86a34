import Pos3ql.Foundation.Text
import Pos3ql.Numeric.Multiplication

/-!
# Numerics as decimal text

A text is read into at most 2048 decimal digits, the place of the point and an exponent. The digits
are then put in groups of four around the point. The weight of the first group and the display scale
are narrowed to 16 bits without a check, and the places are 64-bit numbers that an extreme exponent
overflows.

* `trim`, `collectDigits`, `collectExponent`, `parse`, `fromDecimalDigits`: as in the source.
* `DecimalText`: the texts with digits, a point, a sign and an exponent; its number `value`.
* `parse_render`: what the reader makes of such a text.
* `fromDecimalDigits_spec`: the groups of four denote the written number.
* **`DecimalText.reads_iff`**: when a text is read as the written number in every build.

Source: `sql/numeric.rs` (`parse`, `from_decimal_digits`).
-/

namespace Pos3ql

open Foundation List Positional Option

/-- The largest 64-bit signed number. Source: `i64::MAX`. -/
abbrev maxI64 : ℤ := 9223372036854775807

/-- An addition of 64-bit signed numbers; no result is a panic. -/
def Build.addI64 (build : Build) (x y : ℤ) : Option ℤ :=
  if -maxI64 - 1 ≤ x + y ∧ x + y ≤ maxI64 then some (x + y)
  else match build with
    | .checked => none
    | .wrapping => some ((x + y).bmod 18446744073709551616)

lemma addI64_eq (build : Build) {x y : ℤ} (h : -maxI64 - 1 ≤ x + y ∧ x + y ≤ maxI64) :
    build.addI64 x y = some (x + y) := by
  unfold Build.addI64
  rw [if_pos h]

lemma addI64_panics {x y : ℤ} (h : ¬ (-maxI64 - 1 ≤ x + y ∧ x + y ≤ maxI64)) :
    Build.checked.addI64 x y = none := by
  unfold Build.addI64
  rw [if_neg h]

namespace Numeric

/-! ## Reading -/

/-- Source: `char::is_whitespace`. -/
def isWhitespace (c : Char) : Bool :=
  let code := c.toNat
  (9 ≤ code && code ≤ 13) || code == 32 || code == 0x85 || code == 0xA0 || code == 0x1680 ||
    (0x2000 ≤ code && code ≤ 0x200A) || code == 0x2028 || code == 0x2029 || code == 0x202F ||
    code == 0x205F || code == 0x3000

/-- Source: `str::trim`. -/
def trim (s : Text) : Text := (s.dropWhile isWhitespace).rdropWhile isWhitespace

/-- Source: `eq_ignore_ascii_case`. -/
def eqIgnoreAsciiCase (s : Text) (t : String) : Bool := s.map Char.toLower == t.toList

/-- Source: `bad` in `parse`. -/
def bad (s : Text) : SqlError :=
  ⟨.invalidTextRepresentation,
    "invalid input syntax for type numeric: \"" ++ String.ofList s ++ "\""⟩

/-- The number of a digit character. Source: `c - b'0'`. -/
def digitOf (c : Char) : ℤ := c.toNat - 48

/-- An optional sign, and what follows it. Source: the sign tests of `parse`. -/
def takeSign : Text → Bool × Text
  | [] => (false, [])
  | c :: rest => if c = '+' ∨ c = '-' then (decide (c = '-'), rest) else (false, c :: rest)

/-- The digits, the place of the point among them and the rest. Source: the digit loop of
`parse`. -/
def collectDigits : Text → List ℤ → Option ℕ → Except SqlError (List ℤ × Option ℕ × Text)
  | [], dec, pointAt => .ok (dec, pointAt, [])
  | c :: rest, dec, pointAt =>
    if c.isDigit then
      if maxNdigits * decDigits ≤ dec.length then .error overflow
      else collectDigits rest (dec ++ [digitOf c]) pointAt
    else if c = '.' ∧ pointAt = none then collectDigits rest dec (some dec.length)
    else .ok (dec, pointAt, c :: rest)

/-- Source: the loop over the digits of the exponent. -/
def collectExponent : Text → ℤ → Except SqlError (ℤ × Text)
  | [], exp => .ok (exp, [])
  | c :: rest, exp =>
    if c.isDigit then
      if maxI64 < exp * 10 ∨ maxI64 < exp * 10 + digitOf c then .error overflow
      else collectExponent rest (exp * 10 + digitOf c)
    else .ok (exp, c :: rest)

/-- Source: the optional exponent of `parse`. -/
def parseExponent (s : Text) : Text → Except SqlError (ℤ × Text)
  | [] => .ok (0, [])
  | c :: rest =>
    if c = 'e' ∨ c = 'E' then
      let (eneg, digits) := takeSign rest
      match collectExponent digits 0 with
      | .error e => .error e
      | .ok (exp, after) =>
        if after.length = digits.length then .error (bad s)
        else .ok (if eneg then -exp else exp, after)
    else .ok (0, c :: rest)

/-- Groups of four decimal digits. Source: `chunks` in `from_decimal_digits`. -/
def group : List ℤ → List ℤ
  | a :: b :: c :: d :: rest => [a, b, c, d].foldl (fun v digit => v * 10 + digit) 0 :: group rest
  | _ => []

/-- The zeros to put before the first digit, so that the groups meet at the point. Source:
`lead_pad`. -/
def leadPad (firstDw : ℤ) : ℕ := ((3 - (firstDw.tmod 4 + 4).tmod 4 + 4).tmod 4).toNat

/-- Source: `from_decimal_digits`. -/
def fromDecimalDigits (build : Build) (dec : List ℤ) (intLen : ℤ) (dscale : ℕ) (neg : Bool)
    (room : ℕ) : Option (Except SqlError Numeric) :=
  let start := (dec.takeWhile (· == 0)).length
  let sig := trimTop (dec.drop start)
  if sig.isEmpty then some (.ok ⟨.pos, 0, dscale, []⟩)
  else do
    let firstDw ← build.addI64 intLen (-1)
    let firstDw ← build.addI64 firstDw (-start)
    let pad := leadPad firstDw
    let total := pad + sig.length
    let nBase := (total + decDigits - 1) / decDigits
    if maxNdigits < nBase then some (.error overflow)
    else do
      let scratch := replicate pad 0 ++ sig ++ replicate (nBase * decDigits - total) 0
      let buffer := group scratch
      let top ← build.addI64 firstDw pad
      let baseWeight := top / 4
      let kept := trimTop buffer
      let digits := trimLow kept
      let lead := kept.length - digits.length
      if digits.isEmpty then some (.ok ⟨.pos, 0, dscale, []⟩)
      else some ((pack digits room).map fun packed =>
        ⟨if neg then .neg else .pos, wrapI16 (baseWeight - lead), dscale, packed⟩)

/-- Source: `parse`. -/
def parse (build : Build) (s : Text) (room : ℕ) : Option (Except SqlError Numeric) :=
  let t := trim s
  if eqIgnoreAsciiCase t "nan" then some (.ok nan)
  else if eqIgnoreAsciiCase t "infinity" || eqIgnoreAsciiCase t "+infinity" then
    some (.ok posInfinity)
  else if eqIgnoreAsciiCase t "-infinity" then some (.ok negInfinity)
  else
    let (neg, rest) := takeSign t
    match collectDigits rest [] none with
    | .error e => some (.error e)
    | .ok (dec, pointAt, rest) =>
      if dec.isEmpty then some (.error (bad s))
      else match parseExponent s rest with
        | .error e => some (.error e)
        | .ok (exp, rest) =>
          if rest.isEmpty then do
            let point := pointAt.getD dec.length
            let fracDigits := dec.length - point
            let dscaleDec ← build.addI64 fracDigits (-exp)
            let dscale := (max dscaleDec 0).toNat % 65536
            let intLen ← build.addI64 point exp
            fromDecimalDigits build dec intLen dscale neg room
          else some (.error (bad s))

/-! ## Groups of four -/

section Groups

variable {l : List ℤ} {m : ℕ}

lemma exists_four (h : l.length = (m + 1) * 4) :
    ∃ a b c d rest, l = a :: b :: c :: d :: rest ∧ rest.length = m * 4 := by
  rcases l with _ | ⟨a, _ | ⟨b, _ | ⟨c, _ | ⟨d, rest⟩⟩⟩⟩ <;>
    simp only [length_cons, length_nil] at h
  · omega
  · omega
  · omega
  · omega
  · exact ⟨a, b, c, d, rest, rfl, by omega⟩

lemma length_group (h : l.length = m * 4) : (group l).length = m := by
  induction m generalizing l with
  | zero =>
    obtain rfl := length_eq_zero_iff.mp h
    rfl
  | succ m ih =>
    obtain ⟨a, b, c, d, rest, rfl, hrest⟩ := exists_four h
    rw [group, length_cons, ih hrest]

/-- **Grouping keeps the number.** Induction on the number of groups. -/
theorem value_group (h : l.length = m * 4) :
    Positional.value nbase (group l).reverse = Positional.value 10 l.reverse := by
  induction m generalizing l with
  | zero =>
    obtain rfl := length_eq_zero_iff.mp h
    rfl
  | succ m ih =>
    obtain ⟨a, b, c, d, rest, rfl, hrest⟩ := exists_four h
    have hpow : nbase ^ m = 10 ^ (m * 4) := by
      rw [mul_comm, pow_mul]
      norm_num
    rw [group, value_reverse_cons, ih hrest, length_group hrest, hpow]
    simp only [value_reverse_cons, length_cons, hrest, foldl_cons, foldl_nil]
    ring

lemma proper_group (h : Proper 10 l) : Proper nbase (group l) := by
  fun_induction group l with
  | case1 a b c d rest ih =>
    obtain ⟨ha, h⟩ := h.cons
    obtain ⟨hb, h⟩ := h.cons
    obtain ⟨hc, h⟩ := h.cons
    obtain ⟨hd, h⟩ := h.cons
    refine forall_mem_cons.mpr ⟨?_, ih h⟩
    change _ ∧ _ < (10000 : ℤ)
    simp only [foldl_cons, foldl_nil]
    omega
  | case2 => exact fun x hx => absurd hx (not_mem_nil)

lemma leadPad_spec (w : ℤ) : leadPad w ≤ 3 ∧ (w + leadPad w + 1) % 4 = 0 := by
  have hsplit := Int.mul_tdiv_add_tmod w 4
  have hlow := Int.lt_tmod_of_pos w (by norm_num : (0 : ℤ) < 4)
  have hhigh := Int.tmod_lt_of_pos w (by norm_num : (0 : ℤ) < 4)
  unfold leadPad
  rw [Int.tmod_eq_emod_of_nonneg (by omega : 0 ≤ w.tmod 4 + 4),
    Int.tmod_eq_emod_of_nonneg (by omega)]
  omega

lemma trim_eq_self (hhead : ∀ d, l.head? = some d → d ≠ 0)
    (hlast : ∀ d, l.getLast? = some d → d ≠ 0) :
    trimTop l = l ∧ trimLow l = l := by
  constructor
  · unfold trimTop
    rw [rdropWhile_eq_self_iff]
    intro hne
    simpa using hlast _ (getLast?_eq_getLast_of_ne_nil hne)
  unfold trimLow
  rw [dropWhile_eq_self_iff]
  intro hpos
  simpa using hhead _ (head?_eq_getElem? ▸ getElem?_eq_getElem hpos)

lemma exists_significant (dec : List ℤ) :
    ∃ q, dec = replicate (dec.takeWhile (· == 0)).length 0 ++
        (trimTop (dec.drop (dec.takeWhile (· == 0)).length) ++ replicate q 0) ∧
      dec.drop (dec.takeWhile (· == 0)).length = trimLow dec := by
  have hsplit : dec = dec.takeWhile (· == 0) ++ trimLow dec :=
    (takeWhile_append_dropWhile).symm
  have hdrop : dec.drop (dec.takeWhile (· == 0)).length = trimLow dec := by
    refine (congrArg (List.drop _) hsplit).trans ?_
    exact drop_left
  obtain ⟨q, hq⟩ := exists_trimTop (trimLow dec)
  refine ⟨q, ?_, hdrop⟩
  rw [hdrop]
  conv_lhs => rw [hsplit]
  congr 1
  exact eq_replicate_of_mem fun d hd => by simpa using mem_takeWhile_imp hd

lemma value_low_ne_zero {b : ℤ} {d : ℤ} {rest : List ℤ} (hprop : Proper b (d :: rest))
    (hd : d ≠ 0) : ¬ b ∣ Positional.value b (d :: rest) := by
  obtain ⟨hdigit, -⟩ := hprop.cons
  intro hdvd
  have hlow : b ∣ d := (Int.dvd_add_left (Dvd.intro _ rfl)).mp hdvd
  exact hd (Int.eq_zero_of_dvd_of_nonneg_of_lt hdigit.1 hdigit.2 hlow)

/-- **The groups of significant digits have no zero group at either end.** A zero group at the top
would make the number too small, and one at the bottom would make the last digit zero. -/
theorem normal_group {sig : List ℤ} (hsig : Proper 10 sig) (hne : sig ≠ [])
    (hhead : ∀ d, sig.head? = some d → d ≠ 0) (hlast : ∀ d, sig.getLast? = some d → d ≠ 0)
    {pad z : ℕ} (hpad : pad ≤ 3) (hz : z ≤ 3) (hlength : pad + sig.length + z = m * 4) :
    Normal (group (replicate pad 0 ++ sig ++ replicate z 0)).reverse ∧
      Positional.value nbase (group (replicate pad 0 ++ sig ++ replicate z 0)).reverse =
        10 ^ z * Positional.value 10 sig.reverse := by
  set scratch := replicate pad 0 ++ sig ++ replicate z 0 with hscratch
  have hlen : scratch.length = m * 4 := by
    rw [hscratch]
    simp only [length_append, length_replicate]
    exact hlength
  have hprop : Proper 10 scratch :=
    ((proper_zeros (by norm_num) _).append hsig).append (proper_zeros (by norm_num) _)
  have hvalue : Positional.value nbase (group scratch).reverse =
      10 ^ z * Positional.value 10 sig.reverse := by
    rw [value_group hlen, hscratch, reverse_append, reverse_append, reverse_replicate,
      reverse_replicate,
      value_append, value_append, value_zeros, value_zeros, length_replicate]
    ring
  have hpos : 0 < sig.length := length_pos_of_ne_nil hne
  have hgroups := proper_group hprop
  have hcount := length_group hlen
  refine ⟨⟨hgroups.reverse, ?_, fun d hd => ?_, fun d hd => ?_⟩, hvalue⟩
  · intro hnil
    have hzero := congrArg List.length hnil
    rw [length_reverse, hcount, length_nil] at hzero
    omega
  · -- the last group
    rintro rfl
    obtain ⟨rest, hrest⟩ : ∃ rest, (group scratch).reverse = 0 :: rest := by
      cases hr : (group scratch).reverse with
      | nil => rw [hr] at hd; cases hd
      | cons e rest => rw [hr] at hd; obtain rfl := some.inj hd; exact ⟨rest, rfl⟩
    have hdvd : (10 : ℤ) ^ 4 ∣ 10 ^ z * Positional.value 10 sig.reverse := by
      rw [← hvalue, hrest, value_cons, zero_add]
      exact Dvd.intro _ rfl
    have hten : (10 : ℤ) ∣ Positional.value 10 sig.reverse := by
      have hsplit : (10 : ℤ) ^ 4 = 10 ^ z * 10 ^ (4 - z) := by
        rw [← pow_add]
        congr 1
        omega
      rw [hsplit] at hdvd
      have hcancel := (mul_dvd_mul_iff_left (pow_ne_zero z (by norm_num : (10 : ℤ) ≠ 0))).mp hdvd
      exact (dvd_pow_self 10 (by omega)).trans hcancel
    cases hr : sig.reverse with
    | nil => exact hne (by simpa using hr)
    | cons e more =>
      have hsigReverse := hsig.reverse
      rw [hr] at hten hsigReverse
      refine value_low_ne_zero hsigReverse (hlast e ?_) hten
      rw [← head?_reverse, hr]
      rfl
  -- the first group
  rintro rfl
  rw [getLast?_reverse] at hd
  obtain ⟨rest, hrest⟩ : ∃ rest, group scratch = 0 :: rest := by
    cases hr : group scratch with
    | nil => rw [hr] at hd; cases hd
    | cons e rest => rw [hr] at hd; obtain rfl := some.inj hd; exact ⟨rest, rfl⟩
  obtain ⟨top, htop⟩ : ∃ top, sig.head? = some top := by
    cases sig with
    | nil => exact absurd rfl hne
    | cons top _ => exact ⟨top, rfl⟩
  have hlarge :=
    hsig.reverse.le_value (by norm_num) (by rw [getLast?_reverse]; exact htop) (hhead top htop)
  rw [length_reverse] at hlarge
  rw [hrest, value_reverse_cons, mul_zero, add_zero] at hvalue
  have hrestProper : Proper nbase rest := by
    rw [hrest] at hgroups
    exact hgroups.cons.2
  have hsmall := hrestProper.reverse.value_lt (by norm_num)
  have hrestLength : rest.length + 1 = m := by rw [← hcount, hrest, length_cons]
  rw [length_reverse, hvalue] at hsmall
  have hpow : (nbase : ℤ) ^ rest.length = 10 ^ (rest.length * 4) := by
    rw [mul_comm, pow_mul]
    norm_num
  have hle : (10 : ℤ) ^ (rest.length * 4) ≤ 10 ^ z * 10 ^ (sig.length - 1) := by
    rw [← pow_add]
    exact pow_le_pow_right₀ (by norm_num) (by omega)
  have hmul : (10 : ℤ) ^ z * 10 ^ (sig.length - 1) ≤ 10 ^ z * Positional.value 10 sig.reverse :=
    mul_le_mul_of_nonneg_left hlarge (by positivity)
  rw [hpow] at hsmall
  linarith

lemma finishFromLsf_normal {sign : Sign} {lo : ℤ} {u : List ℤ} {dscale room : ℕ} (h : Normal u) :
    finishFromLsf sign lo u dscale room =
      if maxNdigits < u.length then .error overflow
      else (pack u.reverse room).map
        fun packed => ⟨sign, wrapI16 (lo + u.length - 1), dscale, packed⟩ := by
  obtain ⟨htop, hlow⟩ := trim_eq_self h.low h.top
  have hempty : u.isEmpty = false := by simpa using h.ne_nil
  unfold finishFromLsf
  dsimp only
  rw [htop, hlow, hempty]
  rfl

/-- The places of the digits, when there is a nonzero digit, are 64-bit numbers. -/
def PlacesFit (dec : List ℤ) (intLen : ℤ) : Prop :=
  -maxI64 - 1 ≤ intLen - 1 - (dec.takeWhile (· == 0)).length ∧ intLen - 1 ≤ maxI64

/-- **Decimal digits become the number they denote**, up to what the finisher does with it. -/
theorem fromDecimalDigits_spec {dec : List ℤ} (hdec : Proper 10 dec) (intLen : ℤ) (dscale : ℕ)
    (neg : Bool) (room : ℕ) :
    (Positional.value 10 dec.reverse = 0 → ∀ build,
      fromDecimalDigits build dec intLen dscale neg room = some (.ok ⟨.pos, 0, dscale, []⟩)) ∧
    (Positional.value 10 dec.reverse ≠ 0 → PlacesFit dec intLen → ∃ lo buffer, Proper nbase buffer ∧
      (Positional.value 10 dec.reverse : ℚ) * 10 ^ (intLen - dec.length) =
        Positional.value nbase buffer * 10000 ^ lo ∧
      ∀ build, fromDecimalDigits build dec intLen dscale neg room =
        some (finishFromLsf (if neg then .neg else .pos) lo buffer dscale room)) ∧
    (Positional.value 10 dec.reverse ≠ 0 → ¬ PlacesFit dec intLen →
      fromDecimalDigits .checked dec intLen dscale neg room = none) := by
  have hten : (10 : ℚ) ≠ 0 := by norm_num
  obtain ⟨q, hsplit, hdrop⟩ := exists_significant dec
  set start := (dec.takeWhile (· == 0)).length with hstart
  set sig := trimTop (dec.drop start) with hsigDef
  have hsig : Proper 10 sig :=
    hdec.of_sublist ((sublist_trimTop _).trans (drop_sublist _ _))
  have hvalue : Positional.value 10 dec.reverse = 10 ^ q * Positional.value 10 sig.reverse := by
    rw [hsplit, reverse_append, reverse_append, reverse_replicate, reverse_replicate, value_append,
      value_append, value_zeros, value_zeros, length_replicate]
    ring
  have hlast : ∀ d, sig.getLast? = some d → d ≠ 0 := fun d hd => trimTop_ne_zero hd
  have hhead : ∀ d, sig.head? = some d → d ≠ 0 := fun d hd => by
    refine trimLow_ne_zero (l := dec) ?_
    rw [← hdrop]
    obtain ⟨k, hk⟩ := exists_trimTop (dec.drop start)
    rw [hk, head?_append, ← hsigDef, hd]
    rfl
  by_cases hnil : sig = []
  · have hzero : Positional.value 10 dec.reverse = 0 := by
      rw [hvalue, hnil, reverse_nil, Positional.value_nil, mul_zero]
    refine ⟨fun _ build => ?_, fun h => absurd hzero h, fun h => absurd hzero h⟩
    unfold fromDecimalDigits
    simp only [← hstart, ← hsigDef, hnil, isEmpty_nil, if_true]
  have hempty : sig.isEmpty = false := by simpa using hnil
  have hpositive : 0 < Positional.value 10 sig.reverse := by
    obtain ⟨top, htop⟩ : ∃ top, sig.head? = some top := by
      cases hs : sig with
      | nil => exact absurd hs hnil
      | cons top _ => exact ⟨top, rfl⟩
    exact (pow_pos (by norm_num) _).trans_le (hsig.reverse.le_value (by norm_num)
      (by rw [getLast?_reverse]; exact htop) (hhead top htop))
  have hnonzero : Positional.value 10 dec.reverse ≠ 0 := by
    rw [hvalue]
    positivity
  have hlen : dec.length = start + (sig.length + q) := by
    have h := congrArg List.length hsplit
    simpa only [length_append, length_replicate] using h
  unfold fromDecimalDigits
  simp only [← hstart, ← hsigDef, hempty, Bool.false_eq_true, if_false, Option.bind_eq_bind]
  refine ⟨fun h => absurd h hnonzero, fun _ hfit => ?_, fun _ hnot => ?_⟩
  · obtain ⟨hlow, hhigh⟩ := hfit
    set w := intLen - 1 - (start : ℤ) with hw
    obtain ⟨hpad, hmod⟩ := leadPad_spec w
    have hplaces : -maxI64 - 1 ≤ w + leadPad w ∧ w + leadPad w ≤ maxI64 := by
      rw [show maxI64 = 9223372036854775807 from rfl] at hlow hhigh ⊢
      omega
    set pad := leadPad w with hpadDef
    set m := (pad + sig.length + decDigits - 1) / decDigits with hm
    have hgroups : pad + sig.length + (m * 4 - (pad + sig.length)) = m * 4 ∧
        m * 4 - (pad + sig.length) ≤ 3 := by
      rw [hm, show decDigits = 4 from rfl]
      omega
    obtain ⟨hnormal, hbuf⟩ := normal_group hsig hnil hhead hlast hpad hgroups.2 hgroups.1
    set z := m * 4 - (pad + sig.length) with hz
    set buffer := group (replicate pad 0 ++ sig ++ replicate z 0) with hbufferDef
    have hcount : buffer.length = m := length_group (by
      simp only [length_append, length_replicate]
      exact hgroups.1)
    obtain ⟨htop, hlowTrim⟩ := trim_eq_self (l := buffer)
      (fun d hd => hnormal.top d (by rwa [getLast?_reverse]))
      (fun d hd => hnormal.low d (by rwa [head?_reverse]))
    have hbufferEmpty : buffer.isEmpty = false := by
      have hne := hnormal.ne_nil
      simpa using hne
    refine ⟨(w + pad) / 4 + 1 - m, buffer.reverse, hnormal.proper, ?_, fun build => ?_⟩
    · -- both sides are the significant digits at their place
      rw [hbuf, hvalue, show (10000 : ℚ) = (10 : ℚ) ^ (4 : ℤ) by norm_num, ← zpow_mul]
      push_cast
      rw [mul_assoc, mul_assoc, mul_left_comm, mul_left_comm ((10 : ℚ) ^ z), ← zpow_natCast,
        ← zpow_natCast, ← zpow_add₀ hten, ← zpow_add₀ hten]
      congr 2
      have hdiv : 4 * ((w + pad) / 4 + 1) = w + pad + 1 := by omega
      have hzcast : (z : ℤ) = m * 4 - (pad + sig.length) := by omega
      rw [hlen, hzcast]
      push_cast
      linarith
    rw [addI64_eq _ (by omega), bind_some, addI64_eq _ (by omega), bind_some]
    have hwEq : intLen + -1 + -(start : ℤ) = w := by rw [hw]; ring
    rw [hwEq]
    simp only [← hpadDef, show decDigits = 4 from rfl] at hm ⊢
    rw [← hm, ← hz, ← hbufferDef, htop, hlowTrim, hbufferEmpty, finishFromLsf_normal hnormal,
      length_reverse, hcount, reverse_reverse]
    by_cases hlong : maxNdigits < m
    · rw [if_pos hlong, if_pos hlong]
    · rw [if_neg hlong, if_neg hlong, addI64_eq _ hplaces, bind_some, Nat.sub_self]
      simp only [Bool.false_eq_true, if_false, Nat.cast_zero, sub_zero]
      rw [show (w + pad) / 4 + 1 - (m : ℤ) + m - 1 = (w + pad) / 4 by ring]
  · unfold PlacesFit at hnot
    rw [← hstart] at hnot
    by_cases hfirst : -maxI64 - 1 ≤ intLen + -1 ∧ intLen + -1 ≤ maxI64
    · rw [addI64_eq _ hfirst, bind_some, addI64_panics (by omega), bind_none]
    · rw [addI64_panics hfirst, bind_none]

end Groups

/-! ## Decimal texts -/

/-- **A decimal text**: digits, an optional point, an optional sign and an optional exponent. -/
structure DecimalText where
  /-- A minus is `some true`, a plus `some false`. -/
  sign : Option Bool
  whole : List (Fin 10)
  fraction : Option (List (Fin 10))
  /-- Capital letter or not, the sign as above, and the digits. -/
  exponent : Option (Bool × Option Bool × List (Fin 10))
  some_digit : whole ++ fraction.getD [] ≠ []
  exponent_digit : ∀ e, exponent = some e → e.2.2 ≠ []

namespace DecimalText

def digitChar (d : Fin 10) : Char := Char.ofNat (48 + d)

def signChars : Option Bool → Text
  | none => []
  | some false => ['+']
  | some true => ['-']

def exponentChars : Option (Bool × Option Bool × List (Fin 10)) → Text
  | none => []
  | some (capital, sign, digits) =>
    (if capital then 'E' else 'e') :: (signChars sign ++ digits.map digitChar)

def fractionChars : Option (List (Fin 10)) → Text
  | none => []
  | some digits => '.' :: digits.map digitChar

/-- The characters of the text. -/
def render (t : DecimalText) : Text :=
  signChars t.sign ++
    (t.whole.map digitChar ++ (fractionChars t.fraction ++ exponentChars t.exponent))

/-- All digits, the most significant first. -/
def digits (t : DecimalText) : List ℤ := (t.whole ++ t.fraction.getD []).map fun d => (d.val : ℤ)

/-- The digits as one number. -/
def mantissa (t : DecimalText) : ℤ := Positional.value 10 t.digits.reverse

/-- The number of an exponent without its sign. -/
def power (t : DecimalText) : ℤ :=
  match t.exponent with
  | none => 0
  | some (_, _, digits) => Positional.value 10 (digits.map fun d => (d.val : ℤ)).reverse

/-- The exponent. -/
def scale (t : DecimalText) : ℤ :=
  match t.exponent with
  | some (_, some true, _) => -t.power
  | _ => t.power

/-- **The number that is written.** -/
def value (t : DecimalText) : ℚ :=
  (if t.sign = some true then -1 else 1) * t.mantissa *
    (10 : ℚ) ^ (t.scale - (t.fraction.getD []).length)

/-! ## Reading a decimal text -/

section Reading

variable {t : DecimalText} {c : Char}

/-- A character that is neither white space nor part of a special value. -/
def Plain (c : Char) : Prop := isWhitespace c = false ∧ c.toLower ≠ 'n'

instance (c : Char) : Decidable (Plain c) := by
  unfold Plain
  infer_instance

lemma digitChar_spec (d : Fin 10) :
    Plain (digitChar d) ∧ (digitChar d).isDigit ∧
      digitOf (digitChar d) = d.val ∧ digitChar d ≠ '+' ∧ digitChar d ≠ '-' := by
  revert d
  decide

lemma plain_digits {ds : List (Fin 10)} (h : c ∈ ds.map digitChar) : Plain c := by
  obtain ⟨d, -, rfl⟩ := mem_map.mp h
  exact (digitChar_spec d).1

lemma plain_sign {sign : Option Bool} (h : c ∈ signChars sign) : Plain c := by
  rcases sign with _ | (_ | _)
  · exact absurd h (not_mem_nil)
  · rw [mem_singleton.mp h]
    decide
  · rw [mem_singleton.mp h]
    decide

lemma plain_render (h : c ∈ t.render) : Plain c := by
  unfold render at h
  simp only [mem_append] at h
  rcases h with h | h | h | h
  · exact plain_sign h
  · exact plain_digits h
  · cases hf : t.fraction with
    | none => rw [hf] at h; exact absurd h (not_mem_nil)
    | some digits =>
      rw [hf] at h
      rcases mem_cons.mp h with rfl | h
      · decide
      · exact plain_digits h
  cases he : t.exponent with
  | none => rw [he] at h; exact absurd h (not_mem_nil)
  | some e =>
    obtain ⟨capital, sign, digits⟩ := e
    rw [he] at h
    rcases mem_cons.mp h with rfl | h
    · cases capital <;> decide
    · rcases mem_append.mp h with h | h
      · exact plain_sign h
      · exact plain_digits h

lemma trim_render : trim t.render = t.render := by
  have hplain : ∀ c ∈ t.render, ¬ isWhitespace c := fun c hc => by
    rw [(plain_render hc).1]
    exact Bool.false_ne_true
  have hdrop : t.render.dropWhile isWhitespace = t.render := by
    rw [dropWhile_eq_self_iff]
    exact fun hne => hplain _ (getElem_mem hne)
  unfold trim
  rw [hdrop, rdropWhile_eq_self_iff]
  exact fun hne => hplain _ (getLast_mem hne)

lemma render_not_special {word : String} (hword : 'n' ∈ word.toList) :
    eqIgnoreAsciiCase t.render word = false := by
  unfold eqIgnoreAsciiCase
  rw [beq_eq_false_iff_ne]
  intro heq
  rw [← heq] at hword
  obtain ⟨c, hc, hn⟩ := mem_map.mp hword
  exact (plain_render hc).2 hn

lemma takeSign_signChars (sign : Option Bool) {rest : Text}
    (hrest : ∀ c, rest.head? = some c → c ≠ '+' ∧ c ≠ '-') :
    takeSign (signChars sign ++ rest) = (decide (sign = some true), rest) := by
  rcases sign with _ | (_ | _)
  · cases rest with
    | nil => rfl
    | cons c rest =>
      obtain ⟨hplus, hminus⟩ := hrest c rfl
      simp [signChars, takeSign, hplus, hminus]
  · rfl
  · rfl

/-- Digits are collected while there is room for them. Induction on the digits. -/
lemma collectDigits_digits (ds : List (Fin 10)) (rest : Text) (dec : List ℤ) (pointAt : Option ℕ)
    (hdec : dec.length ≤ maxNdigits * decDigits) :
    collectDigits (ds.map digitChar ++ rest) dec pointAt =
      if maxNdigits * decDigits < dec.length + ds.length then .error overflow
      else collectDigits rest (dec ++ ds.map fun d => (d.val : ℤ)) pointAt := by
  induction ds generalizing dec with
  | nil => simp [hdec]
  | cons d ds ih =>
    obtain ⟨-, hdigit, hvalue, -⟩ := digitChar_spec d
    rw [map_cons, cons_append, collectDigits, if_pos hdigit, length_cons]
    by_cases hfull : maxNdigits * decDigits ≤ dec.length
    · rw [if_pos hfull, if_pos (by omega)]
    · rw [if_neg hfull, ih _ (by simp only [length_append, length_singleton]; omega)]
      simp only [length_append, length_singleton, hvalue, map_cons,
        append_assoc, singleton_append, add_assoc, add_comm 1]

lemma collectDigits_exponent (e : Option (Bool × Option Bool × List (Fin 10))) (dec : List ℤ)
    (pointAt : Option ℕ) :
    collectDigits (exponentChars e) dec pointAt = .ok (dec, pointAt, exponentChars e) := by
  rcases e with _ | ⟨_ | _, sign, digits⟩
  · rfl
  · rfl
  · rfl

/-- **The digits of a decimal text and its point.** -/
theorem collectDigits_body :
    collectDigits
      (t.whole.map digitChar ++ (fractionChars t.fraction ++ exponentChars t.exponent)) [] none =
    if maxNdigits * decDigits < t.digits.length then .error overflow
    else .ok (t.digits, t.fraction.map fun _ => t.whole.length, exponentChars t.exponent) := by
  have hdigits : t.digits.length = t.whole.length + (t.fraction.getD []).length := by
    simp [digits]
  rw [collectDigits_digits _ _ _ _ (by simp), length_nil, zero_add, nil_append]
  cases hf : t.fraction with
  | none =>
    rw [hf] at hdigits
    simp only [getD_none, length_nil, add_zero] at hdigits
    rw [← hdigits]
    split
    · rfl
    · rw [fractionChars, nil_append, collectDigits_exponent]
      simp [digits, hf]
  | some fraction =>
    rw [hf, getD_some] at hdigits
    by_cases hwhole : maxNdigits * decDigits < t.whole.length
    · rw [if_pos hwhole, if_pos (by omega)]
    rw [if_neg hwhole, fractionChars, cons_append, collectDigits, if_neg (by decide),
      if_pos ⟨rfl, rfl⟩,
      collectDigits_digits _ _ _ _ (by simpa using hwhole), length_map, ← hdigits]
    split
    · rfl
    · rw [collectDigits_exponent]
      simp [digits, hf]

lemma value_digits_nonneg (ds : List (Fin 10)) :
    0 ≤ Positional.value 10 (ds.map fun d => (d.val : ℤ)).reverse := by
  refine Proper.value_nonneg (fun d hd => ?_)
  obtain ⟨e, -, rfl⟩ := mem_map.mp (mem_reverse.mp hd)
  exact ⟨by positivity, by exact_mod_cast e.isLt⟩

/-- The exponent is refused exactly when it is no 64-bit number. Induction on the digits. -/
lemma collectExponent_digits (ds : List (Fin 10)) {exp : ℤ} (hexp : 0 ≤ exp ∧ exp ≤ maxI64) :
    collectExponent (ds.map digitChar) exp =
      if maxI64 <
          exp * 10 ^ ds.length + Positional.value 10 (ds.map fun d => (d.val : ℤ)).reverse then
        .error overflow
      else .ok
        (exp * 10 ^ ds.length + Positional.value 10 (ds.map fun d => (d.val : ℤ)).reverse, []) := by
  induction ds generalizing exp with
  | nil => simp [collectExponent, hexp.2]
  | cons d ds ih =>
    obtain ⟨-, hdigit, hvalue, -⟩ := digitChar_spec d
    have hsplit : exp * 10 ^ (d :: ds).length +
          Positional.value 10 ((d :: ds).map fun d => (d.val : ℤ)).reverse =
        (exp * 10 + d.val) * 10 ^ ds.length +
          Positional.value 10 (ds.map fun d => (d.val : ℤ)).reverse := by
      rw [map_cons, value_reverse_cons, length_map, length_cons]
      ring
    rw [hsplit, map_cons, collectExponent, if_pos hdigit, hvalue]
    by_cases hover : maxI64 < exp * 10 + d.val
    · rw [if_pos (.inr hover), if_pos]
      have hgrow : exp * 10 + d.val ≤ (exp * 10 + d.val) * 10 ^ ds.length :=
        le_mul_of_one_le_right (by linarith) (one_le_pow₀ (by norm_num))
      have hrest := value_digits_nonneg ds
      linarith
    · rw [if_neg (by omega), ih ⟨by linarith, not_lt.mp hover⟩]

lemma power_nonneg : 0 ≤ t.power := by
  unfold power
  split
  · exact le_rfl
  · exact value_digits_nonneg _

lemma head_digits {ds : List (Fin 10)} (rest : Text) (hne : ds ≠ [])
    (hc : (ds.map digitChar ++ rest).head? = some c) : c ≠ '+' ∧ c ≠ '-' := by
  obtain ⟨d, ds, rfl⟩ := exists_cons_of_ne_nil hne
  cases hc
  exact (digitChar_spec d).2.2.2

/-- **The exponent of a decimal text.** -/
theorem parseExponent_exponentChars (s : Text) :
    parseExponent s (exponentChars t.exponent) =
      if maxI64 < t.power then .error overflow else .ok (t.scale, []) := by
  cases he : t.exponent with
  | none => simp [exponentChars, parseExponent, power, scale, he]
  | some e =>
    obtain ⟨capital, sign, ds⟩ := e
    have hne : ds ≠ [] := t.exponent_digit _ he
    have hpower : t.power = Positional.value 10 (ds.map fun d => (d.val : ℤ)).reverse := by
      simp [power, he]
    have hletter : (if capital then 'E' else 'e') = 'e' ∨ (if capital then 'E' else 'e') = 'E' := by
      cases capital
      · exact .inl rfl
      · exact .inr rfl
    have htake : takeSign (signChars sign ++ ds.map digitChar) =
        (decide (sign = some true), ds.map digitChar) :=
      takeSign_signChars sign fun c hc => head_digits [] hne (by simpa using hc)
    rw [exponentChars, parseExponent, if_pos hletter, htake]
    simp only
    rw [collectExponent_digits ds ⟨le_rfl, by norm_num⟩, zero_mul, zero_add, ← hpower]
    by_cases hover : maxI64 < t.power
    · rw [if_pos hover, if_pos hover]
    rw [if_neg hover, if_neg hover]
    have hlen : ¬ ([] : Text).length = (ds.map digitChar).length := fun h =>
      hne (length_eq_zero_iff.mp (by simpa using h.symm))
    simp only [hlen, if_false]
    rcases sign with _ | (_ | _) <;> simp [scale, he]

/-- **What is read from a decimal text**, up to the grouping of its digits. -/
theorem parse_render (build : Build) (room : ℕ) :
    parse build t.render room =
    if maxNdigits * decDigits < t.digits.length then some (.error overflow)
    else if maxI64 < t.power then some (.error overflow)
    else
      (build.addI64 (t.fraction.getD []).length (-t.scale)).bind fun dscaleDec =>
        (build.addI64 t.whole.length t.scale).bind fun intLen =>
          fromDecimalDigits build t.digits intLen ((max dscaleDec 0).toNat % 65536)
            (decide (t.sign = some true)) room := by
  have hhead : ∀ c, (t.whole.map digitChar ++
      (fractionChars t.fraction ++
        exponentChars t.exponent)).head? = some c → c ≠ '+' ∧ c ≠ '-' := by
    intro c hc
    by_cases hwhole : t.whole = []
    · cases hf : t.fraction with
      | none =>
        refine absurd ?_ t.some_digit
        simp [hwhole, hf]
      | some fraction =>
        rw [hwhole, hf] at hc
        cases hc
        exact ⟨by decide, by decide⟩
    · exact head_digits _ hwhole hc
  have hdigits : t.digits.isEmpty = false := by
    have hne := t.some_digit
    simpa [digits] using hne
  have hlen : t.digits.length = t.whole.length + (t.fraction.getD []).length := by
    simp [digits]
  have htake : takeSign t.render = (decide (t.sign = some true), t.whole.map digitChar ++
      (fractionChars t.fraction ++ exponentChars t.exponent)) := takeSign_signChars _ hhead
  have hspec : ∀ word : String, 'n' ∈ word.toList → eqIgnoreAsciiCase t.render word = false :=
    fun _ => render_not_special
  unfold parse
  dsimp only
  rw [trim_render, hspec _ (by decide), hspec _ (by decide), hspec _ (by decide),
    hspec _ (by decide), htake]
  simp only [Bool.or_self, Bool.false_eq_true, if_false, collectDigits_body]
  by_cases hlong : maxNdigits * decDigits < t.digits.length
  · rw [if_pos hlong, if_pos hlong]
  rw [if_neg hlong, if_neg hlong]
  simp only [hdigits, Bool.false_eq_true, if_false, parseExponent_exponentChars]
  by_cases hover : maxI64 < t.power
  · rw [if_pos hover, if_pos hover]
  rw [if_neg hover, if_neg hover]
  simp only
  cases hf : t.fraction with
  | none =>
    have hwhole : t.digits.length = t.whole.length := by simpa [hf] using hlen
    simp only [map_none, getD_none, hwhole, Nat.sub_self, length_nil]
    rfl
  | some fraction =>
    have hfrac : t.digits.length - t.whole.length = fraction.length := by
      rw [hlen, hf, getD_some]
      omega
    simp only [map_some, getD_some, hfrac]
    rfl

end Reading

/-! ## Faithful reading -/

/-- The places of the digits are 64-bit numbers. -/
def Steady (t : DecimalText) : Prop :=
  (t.fraction.getD []).length - t.scale ≤ maxI64 ∧ t.whole.length + t.scale ≤ maxI64 ∧
    (t.mantissa ≠ 0 → PlacesFit t.digits (t.whole.length + t.scale))

/-- **A text that no build reads as another number**: it is refused for its length or its exponent,
or its places and the weight of its number fit. -/
def Faithful (t : DecimalText) : Prop :=
  maxNdigits * decDigits < t.digits.length ∨ maxI64 < t.power ∨ t.Steady ∧ WeightKept t.value

/-- An error, or a finite value that is the number. -/
def ReadsAs (x : ℚ) (r : Except SqlError Numeric) : Prop :=
  ∀ n, r = .ok n → n.isSpecial = false ∧ n.value = x

section Faithful

variable {t : DecimalText}

lemma finite_zero {dscale : ℕ} (h : dscale ≤ 65535) : Finite ⟨.pos, 0, dscale, []⟩ where
  sign := .inl rfl
  weight := by norm_num
  dscale := h
  length := by simp
  proper d hd := absurd hd (not_mem_nil)
  top d hd := by cases hd
  low d hd := by cases hd

/-- The finisher returns a finite value at the scale it was given, or the overflow error. -/
lemma finishFromLsf_cases {sign : Sign} (hsign : sign = .pos ∨ sign = .neg) (lo : ℤ)
    {buffer : List ℤ} (hprop : Proper nbase buffer) {dscale : ℕ}
    (hscale : dscale ≤ 65535) (room : ℕ) :
    (∃ n, finishFromLsf sign lo buffer dscale room = .ok n ∧ n.Finite ∧ n.dscale = dscale) ∨
      finishFromLsf sign lo buffer dscale room = .error overflow := by
  unfold finishFromLsf
  dsimp only
  split
  · exact .inl ⟨_, rfl, finite_zero hscale, rfl⟩
  rename_i hempty
  have hnormal := normal_trim hprop (by simpa using hempty)
  split
  · exact .inr rfl
  rename_i hlen
  unfold pack
  split
  · exact .inr rfl
  split
  · exact .inr rfl
  refine .inl ⟨_, rfl, ⟨hsign, wrapI16_range _, hscale, ?_, hnormal.proper.reverse, ?_, ?_⟩, rfl⟩
  · rw [length_reverse]
    exact not_lt.mp hlen
  · intro d hd
    rw [head?_reverse] at hd
    exact hnormal.top d hd
  · intro d hd
    rw [getLast?_reverse] at hd
    exact hnormal.low d hd

lemma value_eq_signed :
    t.value = if (if decide (t.sign = some true) then Sign.neg else .pos) = .neg
    then -((Positional.value 10 t.digits.reverse : ℚ) *
      (10 : ℚ) ^ (t.whole.length + t.scale - t.digits.length))
    else (Positional.value 10 t.digits.reverse : ℚ) *
      (10 : ℚ) ^ (t.whole.length + t.scale - t.digits.length) := by
  have hplaces : (t.whole.length : ℤ) + t.scale - t.digits.length =
      t.scale - (t.fraction.getD []).length := by
    have hlen : t.digits.length = t.whole.length + (t.fraction.getD []).length := by
      simp [digits]
    rw [hlen]
    push_cast
    ring
  unfold value mantissa
  rw [hplaces]
  by_cases hsign : t.sign = some true
  · simp only [hsign, decide_true, if_true]
    ring
  · simp only [hsign, decide_false, if_false, reduceCtorEq]
    ring

lemma digits_proper : Proper 10 t.digits := fun d hd => by
  obtain ⟨e, -, rfl⟩ := mem_map.mp hd
  exact ⟨by positivity, by exact_mod_cast e.isLt⟩

lemma scale_bounds (h : ¬ maxI64 < t.power) : -maxI64 ≤ t.scale ∧ t.scale ≤ maxI64 := by
  have hnonneg := power_nonneg (t := t)
  unfold scale
  split <;> omega

/-- **What is read from a text whose places fit.** -/
theorem parse_steady (hlong : ¬ maxNdigits * decDigits < t.digits.length)
    (hover : ¬ maxI64 < t.power) (hsteady : t.Steady) (room : ℕ) :
    ∃ r, (∀ build, parse build t.render room = some r) ∧
      (Computes room t.value ((max ((t.fraction.getD []).length - t.scale) 0).toNat % 65536) r ↔
        t.value = 0 ∨ InRange t.value ∨ ¬ Short maxNdigits t.value ∨ ¬ Short (room / 2) t.value) ∧
      ((∃ n, r = .ok n ∧ n.Finite ∧
          n.dscale = (max ((t.fraction.getD []).length - t.scale) 0).toNat % 65536) ∨
        r = .error overflow) := by
  obtain ⟨hlow, hhigh⟩ := scale_bounds hover
  obtain ⟨hfrac, hwhole, hplaces⟩ := hsteady
  obtain ⟨hzero, hfits, -⟩ := fromDecimalDigits_spec digits_proper (t.whole.length + t.scale)
    ((max ((t.fraction.getD []).length - t.scale) 0).toNat % 65536) (decide (t.sign = some true))
      room
  have hparse : ∀ build, parse build t.render room = fromDecimalDigits build t.digits
      (t.whole.length + t.scale) ((max ((t.fraction.getD []).length - t.scale) 0).toNat % 65536)
      (decide (t.sign = some true)) room := fun build => by
    rw [parse_render, if_neg hlong, if_neg hover, addI64_eq _ (by omega), bind_some,
      addI64_eq _ (by omega), bind_some, sub_eq_add_neg]
  have hscale : (max ((t.fraction.getD []).length - t.scale) 0).toNat % 65536 ≤ 65535 := by omega
  by_cases hmantissa : Positional.value 10 t.digits.reverse = 0
  · have hvalue : t.value = 0 := by
      unfold value mantissa
      rw [hmantissa, Int.cast_zero, mul_zero, zero_mul]
    refine ⟨_, fun build => (hparse build).trans (hzero hmantissa build), ?_,
      .inl ⟨_, rfl, finite_zero hscale, rfl⟩⟩
    rw [hvalue]
    exact iff_of_true (.inl ⟨_, rfl, value_nil rfl, rfl⟩) (.inl rfl)
  obtain ⟨lo, buffer, hprop, hx, hrun⟩ := hfits hmantissa (hplaces hmantissa)
  have hsign : (if decide (t.sign = some true) then Sign.neg else .pos) = .pos ∨
      (if decide (t.sign = some true) then Sign.neg else .pos) = .neg := by
    split
    · exact .inr rfl
    · exact .inl rfl
  refine ⟨_, fun build => (hparse build).trans (hrun build), ?_,
    finishFromLsf_cases hsign lo hprop hscale room⟩
  rw [value_eq_signed, finishFromLsf_spec hprop hx hsign, weight_cond_signed]

lemma parse_panics (hlong : ¬ maxNdigits * decDigits < t.digits.length) (hover : ¬ maxI64 < t.power)
    (hnot : ¬ t.Steady) (room : ℕ) : parse .checked t.render room = none := by
  obtain ⟨hlow, hhigh⟩ := scale_bounds hover
  rw [parse_render, if_neg hlong, if_neg hover]
  by_cases hfrac : (t.fraction.getD []).length - t.scale ≤ maxI64
  · rw [addI64_eq _ (by omega), bind_some]
    by_cases hwhole : t.whole.length + t.scale ≤ maxI64
    · rw [addI64_eq _ (by omega)]
      have hmantissa : ¬ (t.mantissa ≠ 0 → PlacesFit t.digits (t.whole.length + t.scale)) :=
        fun h => hnot ⟨hfrac, hwhole, h⟩
      obtain ⟨hne, hplaces⟩ := Classical.not_imp.mp hmantissa
      exact (fromDecimalDigits_spec digits_proper _ _ _ _).2.2 hne hplaces
    · rw [addI64_panics (by omega), bind_none]
  · rw [addI64_panics (by omega), bind_none]

/-- **When a text is read faithfully.** In every build and room the text is refused with an error or
read as the written number, exactly when it is refused for its length or exponent, or its places and
the weight of its number fit. Source: `parse`. -/
theorem reads_iff :
    (∀ build room, ∃ r, parse build t.render room = some r ∧ ReadsAs t.value r) ↔
      t.Faithful := by
  by_cases hlong : maxNdigits * decDigits < t.digits.length
  · refine iff_of_true (fun build room => ⟨.error overflow, ?_, fun n hn => by cases hn⟩)
      (.inl hlong)
    rw [parse_render, if_pos hlong]
  by_cases hover : maxI64 < t.power
  · refine iff_of_true (fun build room => ⟨.error overflow, ?_, fun n hn => by cases hn⟩)
      (.inr (.inl hover))
    rw [parse_render, if_neg hlong, if_pos hover]
  unfold Faithful
  rw [or_iff_right hlong, or_iff_right hover]
  constructor
  · intro h
    obtain ⟨r, hr, hreads⟩ := h .checked (2 * maxNdigits)
    have hsteady : t.Steady := by
      by_contra hnot
      rw [parse_panics hlong hover hnot] at hr
      cases hr
    obtain ⟨r', hr', hiff, hcases⟩ := parse_steady hlong hover hsteady (2 * maxNdigits)
    obtain rfl := some.inj (hr.symm.trans (hr' _))
    refine ⟨hsteady, ?_⟩
    by_cases hkept : t.value = 0 ∨ InRange t.value
    · exact hkept.elim .inl (fun h => .inr (.inl h))
    -- the number is out of range, so an error would be right
    have hcomputes : Computes (2 * maxNdigits) t.value
        ((max ((t.fraction.getD []).length - t.scale) 0).toNat % 65536) r := by
      rcases hcases with ⟨n, hn, -, hscale⟩ | herror
      · exact .inl ⟨n, hn, (hreads n hn).2, hscale⟩
      refine .inr ⟨herror, ?_⟩
      rintro (hzero | ⟨hrange, -⟩)
      · exact hkept (.inl hzero)
      · exact hkept (.inr hrange)
    rcases hiff.mp hcomputes with hzero | hrange | hlen | hlen
    · exact .inl hzero
    · exact .inr (.inl hrange)
    · exact .inr (.inr hlen)
    · exact .inr (.inr hlen)
  · rintro ⟨hsteady, hkept⟩ build room
    obtain ⟨r, hr, hiff, hcases⟩ := parse_steady hlong hover hsteady room
    refine ⟨r, hr build, fun n hn => ?_⟩
    have hcomputes := hiff.mpr (by
      rcases hkept with hzero | hrange | hlen
      · exact .inl hzero
      · exact .inr (.inl hrange)
      · exact .inr (.inr (.inl hlen)))
    rcases hcases with ⟨m, hm, hfin, -⟩ | herror
    · obtain rfl := Except.ok.inj (hn.symm.trans hm)
      rcases hcomputes with ⟨k, hk, hvalue, -⟩ | ⟨herror, -⟩
      · obtain rfl := Except.ok.inj (hn.symm.trans hk)
        exact ⟨hfin.isSpecial_eq, hvalue⟩
      · rw [hn] at herror
        cases herror
    · rw [hn] at herror
      cases herror

end Faithful

end DecimalText

end Numeric

end Pos3ql
