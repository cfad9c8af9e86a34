import Pos3ql.Foundation.Bytes

/-!
# Numbers and lines in a text

Texts are lists of characters. A record is written as lines, each with a keyword and numbers; this
module has the pieces to write and read them, and for each piece the law that reading takes back
what was written.

* `decimal`, `hex`: numbers as text; `parseNumber` reads both. **`parseNumber_decimal`**,
  **`parseNumber_hex`**.
* `lines` cuts a text at its line ends, `lines_append` reads one line back.
* `toUtf8`, `ofUtf8`: a text in a byte string.
* `splitOn` cuts at a character, `stripPrefix` removes a keyword.
-/

namespace Pos3ql.Foundation

open List

/-- A text. -/
abbrev Text := List Char

namespace Text

/-- The bytes of a text. -/
def toUtf8 (text : Text) : Bytes := (String.ofList text).toUTF8.data.toList

/-- The text in a byte string, if it is one. -/
def ofUtf8 (raw : Bytes) : Option Text := (String.fromUTF8? ⟨raw.toArray⟩).map String.toList

/-- A text is read back. -/
lemma ofUtf8_toUtf8 (text : Text) : ofUtf8 text.toUtf8 = some text := by
  have hutf (s : String) : String.fromUTF8? ⟨s.toUTF8.data.toList.toArray⟩ = some s := by
    simp [String.fromUTF8?, String.fromUTF8, s.isValidUTF8]
  unfold ofUtf8 toUtf8
  rw [hutf, Option.map_some, String.toList_ofList]

/-- Bytes are written back. -/
lemma toUtf8_of_ofUtf8 {raw : Bytes} {text : Text} (h : ofUtf8 raw = some text) :
    text.toUtf8 = raw := by
  obtain ⟨found, hfound, rfl⟩ := Option.map_eq_some_iff.mp h
  unfold String.fromUTF8? at hfound
  split_ifs at hfound with hvalid
  cases hfound
  simp [toUtf8, String.fromUTF8]

/-! ## Numbers -/

/-- The value of a digit in bases up to 36. -/
def digitValue (c : Char) : Option ℕ :=
  if '0' ≤ c ∧ c ≤ '9' then some (c.toNat - 48)
  else if 'a' ≤ c ∧ c ≤ 'z' then some (c.toNat - 87)
  else if 'A' ≤ c ∧ c ≤ 'Z' then some (c.toNat - 55)
  else none

/-- One more digit. -/
def pushDigit (radix value : ℕ) (c : Char) : Option ℕ :=
  match digitValue c with
  | none => none
  | some digit => if digit < radix then some (value * radix + digit) else none

/-- The digits of a number, after an optional sign. -/
def parseDigits (radix limit : ℕ) (digits : Text) : Option ℕ :=
  if digits = [] then none
  else
    match digits.foldlM (pushDigit radix) 0 with
    | none => none
    | some value => if value ≤ limit then some value else none

/-- A number of at most `limit`. -/
def parseNumber (radix limit : ℕ) : Text → Option ℕ
  | '+' :: digits => parseDigits radix limit digits
  | digits => parseDigits radix limit digits

/-- A number in base ten. -/
def decimal (n : ℕ) : Text := Nat.toDigits 10 n

/-- A number in base sixteen, with zeros in front up to a width. -/
def hex (width n : ℕ) : Text :=
  replicate (width - (Nat.toDigits 16 n).length) '0' ++ Nat.toDigits 16 n

/-- A digit is read back. -/
lemma digitValue_digitChar {d : ℕ} (h : d < 16) : digitValue (Nat.digitChar d) = some d := by
  revert d
  decide

lemma digitChar_plain {d : ℕ} (h : d < 16) :
    Nat.digitChar d ≠ '+' ∧ Nat.digitChar d ≠ '\n' ∧ Nat.digitChar d ≠ '\r' ∧
      Nat.digitChar d ≠ ' ' := by
  revert d
  decide

variable {radix limit n : ℕ} {c : Char} {text : Text}

/-- Every character of a number is a digit. Strong induction on the number. -/
lemma mem_toDigits (hlow : 2 ≤ radix) (n : ℕ)
    (hc : c ∈ Nat.toDigits radix n) : ∃ d < radix, c = Nat.digitChar d := by
  induction n using Nat.strongRecOn with
  | _ n ih =>
    rcases lt_or_ge n radix with hlt | hge
    · rw [Nat.toDigits_of_lt_base hlt] at hc
      exact ⟨n, hlt, mem_singleton.mp hc⟩
    rw [Nat.toDigits_of_base_le (by omega) hge] at hc
    rcases mem_append.mp hc with hc | hc
    · exact ih (n / radix) (Nat.div_lt_self (by omega) (by omega)) hc
    · exact ⟨n % radix, Nat.mod_lt _ (by omega), mem_singleton.mp hc⟩

/-- The digits of a number, read back after some value. Strong induction on the number. -/
lemma foldlM_toDigits (hlow : 2 ≤ radix) (hhigh : radix ≤ 16) (n : ℕ) :
    (Nat.toDigits radix n).foldlM (pushDigit radix) 0 = some n := by
  have hpush : ∀ value d, d < radix →
      pushDigit radix value (Nat.digitChar d) = some (value * radix + d) := by
    intro value d hd
    unfold pushDigit
    rw [digitValue_digitChar (by omega)]
    exact if_pos hd
  induction n using Nat.strongRecOn with
  | _ n ih =>
    rcases lt_or_ge n radix with hlt | hge
    · rw [Nat.toDigits_of_lt_base hlt, foldlM_cons, hpush 0 n hlt, zero_mul, zero_add]
      rfl
    rw [Nat.toDigits_of_base_le (by omega) hge, foldlM_append,
      ih (n / radix) (Nat.div_lt_self (by omega) (by omega))]
    have hmod : n % radix < radix := Nat.mod_lt _ (by omega)
    change [Nat.digitChar (n % radix)].foldlM (pushDigit radix) (n / radix) = some n
    rw [foldlM_cons, hpush (n / radix) (n % radix) hmod, Nat.div_add_mod']
    rfl

/-- Zeros in front change nothing. Induction on their number. -/
lemma foldlM_zeros (hlow : 2 ≤ radix) (width : ℕ) (digits : Text) :
    (replicate width '0' ++ digits).foldlM (pushDigit radix) 0 =
      digits.foldlM (pushDigit radix) 0 := by
  induction width with
  | zero => rfl
  | succ width ih =>
    have hzero : pushDigit radix 0 '0' = some 0 := by
      unfold pushDigit
      rw [show digitValue '0' = some 0 from rfl]
      rw [zero_mul]
      exact if_pos (by omega)
    rw [replicate_succ, cons_append, foldlM_cons, hzero]
    exact ih

/-- Without a sign. -/
lemma parseNumber_of_plain (h : '+' ∉ text) :
    parseNumber radix limit text = parseDigits radix limit text := by
  rcases text with _ | ⟨c, rest⟩
  · rfl
  unfold parseNumber
  split
  · rename_i digits heq
    obtain ⟨rfl, -⟩ := List.cons.inj heq
    exact absurd mem_cons_self h
  · rfl

/-- Digits within the limit. -/
lemma parseDigits_of_fold {value : ℕ} (hne : text ≠ [])
    (hfold : text.foldlM (pushDigit radix) 0 = some value) (hlimit : value ≤ limit) :
    parseDigits radix limit text = some value := by
  unfold parseDigits
  rw [if_neg hne, hfold]
  exact if_pos hlimit

lemma mem_decimal (hc : c ∈ decimal n) : c ≠ '+' ∧ c ≠ '\n' ∧ c ≠ '\r' ∧ c ≠ ' ' := by
  obtain ⟨d, hd, rfl⟩ := mem_toDigits (by decide) n hc
  exact digitChar_plain (by omega)

lemma mem_hex {width : ℕ} (hc : c ∈ hex width n) : c ≠ '+' ∧ c ≠ '\n' ∧ c ≠ '\r' ∧ c ≠ ' ' := by
  rcases mem_append.mp hc with hc | hc
  · rw [eq_of_mem_replicate hc]
    decide
  · obtain ⟨d, hd, rfl⟩ := mem_toDigits (by decide) n hc
    exact digitChar_plain hd

/-- **A decimal number read back.** -/
theorem parseNumber_decimal (h : n ≤ limit) : parseNumber 10 limit (decimal n) = some n := by
  rw [parseNumber_of_plain fun hmem => (mem_decimal hmem).1 rfl]
  exact parseDigits_of_fold Nat.toDigits_ne_nil (foldlM_toDigits (by decide) (by decide) n) h

/-- **A hexadecimal number read back.** -/
theorem parseNumber_hex (width : ℕ) (h : n ≤ limit) :
    parseNumber 16 limit (hex width n) = some n := by
  rw [parseNumber_of_plain fun hmem => (mem_hex hmem).1 rfl]
  refine parseDigits_of_fold ?_ ?_ h
  · intro hnil
    exact Nat.toDigits_ne_nil (append_eq_nil_iff.mp hnil).2
  · rw [hex, foldlM_zeros (by decide), foldlM_toDigits (by decide) (by decide)]

/-! ## Lines and words -/

/-- The lines of a text; a line ends with a line feed, or with a carriage return and a line feed. -/
def lines : Text → List Text
  | [] => []
  | '\n' :: rest => [] :: lines rest
  | '\r' :: '\n' :: rest => [] :: lines rest
  | c :: rest =>
    match lines rest with
    | [] => [[c]]
    | line :: more => (c :: line) :: more

/-- A line read back, whatever follows it. Induction on the line. -/
lemma lines_append {line : Text} (hplain : ∀ c ∈ line, c ≠ '\n' ∧ c ≠ '\r') (rest : Text) :
    lines (line ++ '\n' :: rest) = line :: lines rest := by
  induction line with
  | nil => rw [nil_append, lines]
  | cons c line ih =>
    obtain ⟨hfeed, hreturn⟩ := hplain c mem_cons_self
    have htail := ih (forall_mem_cons.mp hplain).2
    rw [cons_append, lines, htail]
    · exact hfeed
    · intro rest' hc
      exact absurd hc hreturn

/-- The parts of a text between occurrences of a character. -/
def splitOn (separator : Char) : Text → List Text
  | [] => [[]]
  | c :: rest =>
    if c = separator then [] :: splitOn separator rest
    else
      match splitOn separator rest with
      | [] => [[c]]
      | part :: more => (c :: part) :: more

/-- Without a separator. -/
lemma splitOn_of_not_mem {separator : Char} (h : separator ∉ text) :
    splitOn separator text = [text] := by
  induction text with
  | nil => rfl
  | cons c rest ih =>
    have hne : c ≠ separator := fun hc => h (hc ▸ mem_cons_self)
    rw [splitOn, if_neg hne, ih fun hmem => h (mem_cons_of_mem _ hmem)]

/-- A part read back, whatever follows it. Induction on the part. -/
lemma splitOn_append {separator : Char} {part : Text} (h : separator ∉ part) (rest : Text) :
    splitOn separator (part ++ separator :: rest) = part :: splitOn separator rest := by
  induction part with
  | nil => rw [nil_append, splitOn, if_pos rfl]
  | cons c part ih =>
    have hne : c ≠ separator := fun hc => h (hc ▸ mem_cons_self)
    rw [cons_append, splitOn, if_neg hne, ih fun hmem => h (mem_cons_of_mem _ hmem)]

/-- What follows a keyword. -/
def stripPrefix (keyword text : Text) : Option Text :=
  if keyword <+: text then some (text.drop keyword.length) else none

/-- A keyword is cut off. -/
@[simp]
lemma stripPrefix_append (keyword rest : Text) :
    stripPrefix keyword (keyword ++ rest) = some rest := by
  unfold stripPrefix
  rw [if_pos (prefix_append ..), drop_left]

end Text

end Pos3ql.Foundation
