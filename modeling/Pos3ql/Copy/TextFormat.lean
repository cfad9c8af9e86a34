import Pos3ql.Copy.Lines

/-!
# COPY text format

COPY TO escapes the backslash and six control bytes of a value, and joins the values by the
delimiter. COPY FROM finds the end of a field with backslashed bytes skipped, tests it against
the NULL string, and then undoes the escapes.

* `encodeFieldBytes`, `encodeRowText`: the writer. The delimiter is not among the escaped bytes.
* `fieldSpan`, `unescape`, `decodeField`, `parseFieldText`: the reader.
* `fieldSpan_encode`, `decodeField_encode`: the reader on what the writer wrote.
* **`copyText_roundTrip_iff`**: the rows come back exactly when they have fields and no text
  holds the delimiter.

Source: `sql/copy.rs`.
-/

namespace Pos3ql.Copy

open Foundation List

/-! ## Writing -/

/-- The byte after the backslash: `\\`, `\t`, `\n`, `\r`, `\b`, `\f`, `\v`.
Source: `escape` in `encode_field_bytes`. -/
def escapeLetter : UInt8 → Option UInt8
  | 92 => some 92
  | 9 => some 116
  | 10 => some 110
  | 13 => some 114
  | 8 => some 98
  | 12 => some 102
  | 11 => some 118
  | _ => none

/-- Source: `encode_field_bytes`. -/
def encodeFieldBytes (bytes : Bytes) : Bytes :=
  bytes.flatMap fun b => match escapeLetter b with
    | some e => [92, e]
    | none => [b]

/-- Source: the text branch of `emit_copy_out_row`. -/
def encodeField (null : Bytes) : Option Text → Bytes
  | none => null
  | some text => encodeFieldBytes text.toUtf8

/-- Source: `emit_copy_out_row`, text format. -/
def encodeRowText (delimiter : UInt8) (null : Bytes) : Row → Bytes :=
  encodeRow delimiter (encodeField null)

/-! ## Reading -/

/-- The raw bytes of the first field. Source: the first pass of `decode_row_text`. -/
def fieldSpan (delimiter : UInt8) : Bytes → Bytes
  | [] => []
  | [b] => if b = delimiter then [] else [b]
  | b :: e :: rest =>
    if b = delimiter then []
    else if b = 92 then b :: e :: fieldSpan delimiter rest
    else b :: fieldSpan delimiter (e :: rest)

/-- The value of a hexadecimal digit. Source: `char::to_digit(16)`. -/
def hexDigit (b : UInt8) : Option ℕ :=
  (Text.digitValue (Char.ofNat b.toNat)).filter (· < 16)

/-- The byte an escape stands for, and how many digits after its letter it takes.
Source: `decoded_byte` in `decode_row_text`. -/
def escapeByte (e : UInt8) (rest : Bytes) : UInt8 × ℕ :=
  match e with
  | 98 => (8, 0)
  | 102 => (12, 0)
  | 110 => (10, 0)
  | 114 => (13, 0)
  | 116 => (9, 0)
  | 118 => (11, 0)
  | 120 =>
    let digits := ((rest.take 2).map hexDigit).takeWhile Option.isSome
    if digits = [] then (120, 0)
    else (UInt8.ofNat (digits.foldl (fun value d => value * 16 + d.getD 0) 0), digits.length)
  | _ =>
    if 48 ≤ e ∧ e ≤ 55 then
      let digits := (rest.take 2).takeWhile fun d => 48 ≤ d ∧ d ≤ 55
      (UInt8.ofNat (digits.foldl (fun value d => value * 8 + (d.toNat - 48)) (e.toNat - 48)),
        digits.length)
    else (e, 0)

/-- Source: `literal_carriage_return`. -/
def literalCarriageReturn : SqlError :=
  ⟨.badCopyFileFormat, "literal carriage return found in data"⟩

/-- Source: the loop over `raw` in `decode_row_text`. -/
def unescape : Bytes → Except SqlError Bytes
  | [] => pure []
  | b :: rest =>
    if b ≠ 92 then
      if b = 13 then throw literalCarriageReturn else return b :: (← unescape rest)
    else match rest with
      | [] => throw ⟨.badCopyFileFormat, "end-of-copy marker corrupt"⟩
      | e :: rest =>
        return (escapeByte e rest).1 :: (← unescape (rest.drop (escapeByte e rest).2))
  termination_by raw => raw.length
  decreasing_by all_goals (simp only [length_cons, length_drop]; omega)

/-- The bytes of a field that is not NULL. Source: `decode_row_text`. -/
def decodeBytes (raw : Bytes) : Except SqlError Bytes :=
  if 92 ∈ raw then unescape raw
  else if 13 ∈ raw then throw literalCarriageReturn
  else pure raw

/-- Source: the `from_utf8` of the decoders. -/
def decodeText (bytes : Bytes) : Except SqlError (Option Text) :=
  match Text.ofUtf8 bytes with
  | some text => pure (some text)
  | none => throw ⟨.characterNotInRepertoire, "invalid byte sequence for encoding \"UTF8\""⟩

/-- One field from its raw bytes. Source: `decode_row_text`. -/
def decodeField (null raw : Bytes) : Except SqlError (Option Text) :=
  if raw = null then pure none else decodeBytes raw >>= decodeText

/-- The first field of a line and what follows it. Source: `decode_row_text`. -/
def parseFieldText (delimiter : UInt8) (null line : Bytes) :
    Except SqlError (Option Text × Option Bytes) := do
  let raw := fieldSpan delimiter line
  return (← decodeField null raw, afterDelimiter (line.drop raw.length))

/-- Source: the `position` of `b'\n'` in `copy_data_chunk`. -/
def textLineEnd (readable : Bytes) : Option ℕ := readable.findIdx? (· == 10)

/-- COPY TO in text format. -/
def copyToText (delimiter : UInt8) (null : Bytes) (rows : List Row) : Bytes :=
  copyTo (encodeRowText delimiter null) rows

/-- COPY FROM in text format into the given columns, with a buffer of the given capacity. -/
def copyFromText (delimiter : UInt8) (null : Bytes) (columns : List String) (capacity : ℕ)
    (pieces : List Bytes) : Except SqlError (List Row) :=
  copyFrom capacity textLineEnd
    (copyRow columns (decodeRow (parseFieldText delimiter null) columns.length)) pieces

/-- The default NULL string `\N`. Source: `CopyFmt`. -/
def defaultNull : Bytes := [92, 78]

/-- Source: `u8::is_ascii_punctuation`. -/
def isAsciiPunctuation (b : UInt8) : Bool :=
  (33 ≤ b && b ≤ 47) || (58 ≤ b && b ≤ 64) || (91 ≤ b && b ≤ 96) || (123 ≤ b && b ≤ 126)

/-! ## Escapes undone -/

section Escapes

variable {b e d : UInt8} {bytes rest : Bytes}

/-- A byte that needs no escape. -/
lemma encodeFieldBytes_none (h : escapeLetter b = none) :
    encodeFieldBytes (b :: bytes) = b :: encodeFieldBytes bytes := by
  simp [encodeFieldBytes, h]

/-- A byte that is escaped. -/
lemma encodeFieldBytes_some (h : escapeLetter b = some e) :
    encodeFieldBytes (b :: bytes) = 92 :: e :: encodeFieldBytes bytes := by
  simp [encodeFieldBytes, h]

/-- An escape letter stands for its byte. -/
lemma escapeByte_escapeLetter (h : escapeLetter b = some e) (rest : Bytes) :
    escapeByte e rest = (b, 0) ∧ e ≠ 10 ∧ e ≠ 78 := by
  unfold escapeLetter at h
  split at h <;> simp only [Option.some.injEq, reduceCtorEq] at h <;> subst h <;>
    simp [escapeByte]

/-- The bytes that are always escaped. -/
lemma ne_of_escapeLetter_none (h : escapeLetter b = none) : b ≠ 92 ∧ b ≠ 10 ∧ b ≠ 13 := by
  refine ⟨?_, ?_, ?_⟩ <;> rintro rfl <;> simp [escapeLetter] at h

/-- One escape is read after the other. -/
lemma unescape_cons :
    unescape (92 :: e :: rest) =
      (do return (escapeByte e rest).1 :: (← unescape (rest.drop (escapeByte e rest).2))) := by
  rw [unescape.eq_def]
  simp

/-- What was escaped is read back. -/
lemma unescape_encode (bytes : Bytes) : unescape (encodeFieldBytes bytes) = .ok bytes := by
  induction bytes with
  | nil => rw [encodeFieldBytes, flatMap_nil, unescape]; rfl
  | cons b bytes ih =>
    cases h : escapeLetter b with
    | none =>
      obtain ⟨hback, -, hreturn⟩ := ne_of_escapeLetter_none h
      rw [encodeFieldBytes_none h, unescape.eq_def]
      simp only [hback, hreturn, ne_eq, if_false, ih]
      rfl
    | some e =>
      rw [encodeFieldBytes_some h, unescape_cons]
      simp only [(escapeByte_escapeLetter h _).1, drop_zero, ih]
      rfl

/-- Without a backslash nothing was escaped. -/
lemma encodeFieldBytes_of_plain (h : 92 ∉ encodeFieldBytes bytes) :
    encodeFieldBytes bytes = bytes ∧ 13 ∉ bytes := by
  induction bytes with
  | nil => exact ⟨rfl, not_mem_nil⟩
  | cons b bytes ih =>
    cases hb : escapeLetter b with
    | none =>
      rw [encodeFieldBytes_none hb] at h ⊢
      obtain ⟨heq, hreturn⟩ := ih (not_mem_of_not_mem_cons h)
      exact ⟨by rw [heq],
        not_mem_cons_of_ne_of_not_mem (ne_of_escapeLetter_none hb).2.2.symm hreturn⟩
    | some e =>
      rw [encodeFieldBytes_some hb] at h
      exact absurd mem_cons_self h

/-- An escaped value is never the NULL string: no escape has the letter `N`. -/
lemma encodeFieldBytes_ne_defaultNull : encodeFieldBytes bytes ≠ defaultNull := by
  intro h
  match bytes with
  | [] => cases h
  | b :: bytes =>
    cases hb : escapeLetter b with
    | none =>
      rw [encodeFieldBytes_none hb] at h
      exact (ne_of_escapeLetter_none hb).1 (cons.inj h).1
    | some e =>
      rw [encodeFieldBytes_some hb] at h
      exact (escapeByte_escapeLetter hb []).2.2 (cons.inj (cons.inj h).2).1

/-- **The reader undoes the writer on one field**, and then asks for UTF-8. -/
theorem decodeField_encode :
    decodeField defaultNull (encodeFieldBytes bytes) = decodeText bytes := by
  have hbytes : decodeBytes (encodeFieldBytes bytes) = .ok bytes := by
    unfold decodeBytes
    split_ifs with hback hreturn
    · exact unescape_encode bytes
    · obtain ⟨heq, hno⟩ := encodeFieldBytes_of_plain hback
      exact absurd (heq ▸ hreturn) hno
    · rw [(encodeFieldBytes_of_plain hback).1]
      rfl
  rw [decodeField, if_neg encodeFieldBytes_ne_defaultNull, hbytes]
  rfl

/-- A text is decoded from its UTF-8. -/
lemma decodeText_ok_iff {text : Text} :
    decodeText bytes = .ok (some text) ↔ text.toUtf8 = bytes := by
  unfold decodeText
  constructor
  · intro h
    split at h
    · next found hfound =>
      cases h
      exact Text.toUtf8_of_ofUtf8 hfound
    · cases h
  · rintro rfl
    rw [Text.ofUtf8_toUtf8]
    rfl

/-- No line end is written. -/
lemma newline_not_mem_encode : (10 : UInt8) ∉ encodeFieldBytes bytes := by
  induction bytes with
  | nil => exact not_mem_nil
  | cons b bytes ih =>
    cases h : escapeLetter b with
    | none =>
      rw [encodeFieldBytes_none h]
      exact not_mem_cons_of_ne_of_not_mem (ne_of_escapeLetter_none h).2.1.symm ih
    | some e =>
      rw [encodeFieldBytes_some h]
      refine not_mem_cons_of_ne_of_not_mem (by decide) ?_
      exact not_mem_cons_of_ne_of_not_mem (escapeByte_escapeLetter h []).2.1.symm ih

/-! ## Fields found -/

/-- A delimiter ends a field. -/
@[simp]
lemma fieldSpan_self : fieldSpan d (d :: rest) = [] := by
  cases rest <;> simp [fieldSpan]

/-- A plain byte belongs to the field. -/
lemma fieldSpan_cons (hd : b ≠ d) (hback : b ≠ 92) :
    fieldSpan d (b :: rest) = b :: fieldSpan d rest := by
  cases rest <;> simp [fieldSpan, hd, hback]

/-- **A written value is cut at its first delimiter**, whether the writer put it there or it stands
in the value. -/
theorem fieldSpan_encode (hd : escapeLetter d = none)
    (hrest : rest = [] ∨ ∃ more, rest = d :: more) :
    fieldSpan d (encodeFieldBytes bytes ++ rest) = encodeFieldBytes (bytes.takeWhile (· ≠ d)) := by
  induction bytes with
  | nil =>
    rcases hrest with rfl | ⟨more, rfl⟩
    · rfl
    · simp [encodeFieldBytes]
  | cons b bytes ih =>
    by_cases hb : b = d
    · subst hb
      rw [encodeFieldBytes_none hd]
      simp [encodeFieldBytes]
    rw [takeWhile_cons_of_pos (by simpa using hb)]
    cases h : escapeLetter b with
    | none =>
      rw [encodeFieldBytes_none h, encodeFieldBytes_none h, cons_append,
        fieldSpan_cons hb (ne_of_escapeLetter_none h).1, ih]
    | some e =>
      have hback : (92 : UInt8) ≠ d := (ne_of_escapeLetter_none hd).1.symm
      rw [encodeFieldBytes_some h, encodeFieldBytes_some h, cons_append, cons_append,
        fieldSpan, if_neg hback, if_pos rfl, ih]

end Escapes

/-! ## Rows -/

section Rows

variable {d : UInt8} {row : Row}

/-- Punctuation is not escaped. -/
lemma escapeLetter_delimiter (hd : isAsciiPunctuation d) (hback : d ≠ 92) :
    escapeLetter d = none := by
  unfold escapeLetter
  split <;> first | rfl | exact absurd rfl hback | simp [isAsciiPunctuation] at hd

section

variable (hd : escapeLetter d = none)
include hd

/-- The NULL string is one field. -/
lemma fieldSpan_null {rest : Bytes} (hrest : rest = [] ∨ ∃ more, rest = d :: more) :
    fieldSpan d (defaultNull ++ rest) = defaultNull := by
  have hback : (92 : UInt8) ≠ d := (ne_of_escapeLetter_none hd).1.symm
  rcases hrest with rfl | ⟨more, rfl⟩ <;> simp [defaultNull, fieldSpan, hback]

/-- No written row is the marker. -/
lemma isEndMarker_encodeRowText (row : Row) :
    isEndMarker (encodeRowText d defaultNull row) = false := by
  rw [isEndMarker, beq_eq_false_iff_ne]
  intro h
  have hback : (92 : UInt8) ≠ d := (ne_of_escapeLetter_none hd).1.symm
  have hmarker : fieldSpan d [92, 46] = [92, 46] := by simp [fieldSpan, hback]
  match row with
  | [] => cases h
  | none :: row =>
    rw [encodeRowText, encodeRow_cons, encodeField] at h
    rw [← h, fieldSpan_null hd (afterFirst_eq row), h] at hmarker
    cases hmarker
  | some text :: row =>
    rw [encodeRowText, encodeRow_cons, encodeField] at h
    rw [← h, fieldSpan_encode hd (afterFirst_eq row), h] at hmarker
    -- the marker undone is a lone dot, which is not written with a backslash
    have hdot := unescape_encode (text.toUtf8.takeWhile (· ≠ d))
    have hundone : unescape [92, 46] = .ok [46] := by
      rw [unescape_cons]
      simp [escapeByte, unescape, bind, Except.bind, pure, Except.pure]
    rw [hmarker, hundone] at hdot
    rw [← Except.ok.inj hdot] at hmarker
    simp [encodeFieldBytes, escapeLetter] at hmarker

/-- A written row has no line end. -/
lemma newline_not_mem_encodeRowText (row : Row) :
    (10 : UInt8) ∉ encodeRowText d defaultNull row := by
  induction row with
  | nil => exact not_mem_nil
  | cons field row ih =>
    rw [encodeRowText, encodeRow_cons, mem_append, not_or]
    constructor
    · cases field with
      | none => simp [encodeField, defaultNull]
      | some text => exact newline_not_mem_encode
    cases row with
    | nil => exact not_mem_nil
    | cons next row =>
      exact not_mem_cons_of_ne_of_not_mem (ne_of_escapeLetter_none hd).2.1.symm ih

omit hd in
/-- A line without a line end inside is cut where it ends. -/
lemma textLineEnd_append {line : Bytes} (h : (10 : UInt8) ∉ line) (rest : Bytes) :
    textLineEnd (line ++ 10 :: rest) = some line.length := by
  have hnone : line.findIdx? (· == 10) = none := by
    rw [findIdx?_eq_none_iff]
    intro b hb
    simpa using fun (heq : b = 10) => h (heq ▸ hb)
  rw [textLineEnd, findIdx?_append, hnone]
  simp [findIdx?_cons]

omit hd in
/-- The end of a line is found once its line end has come. -/
lemma textLineEnd_stable {bytes : Bytes} {stop : ℕ} (h : textLineEnd bytes = some stop) :
    stop < bytes.length ∧ ∀ more, textLineEnd (bytes ++ more) = some stop := by
  unfold textLineEnd at h ⊢
  refine ⟨(findIdx?_eq_some_iff_findIdx_eq.mp h).1, fun more => ?_⟩
  rw [findIdx?_append, h]
  rfl

/-- A written field is read back. -/
lemma parseFieldText_encode {field : Option Text} {rest : Bytes}
    (hrest : rest = [] ∨ ∃ more, rest = d :: more)
    (hfield : ∀ text, field = some text → d ∉ text.toUtf8) :
    parseFieldText d defaultNull (encodeField defaultNull field ++ rest) =
      .ok (field, afterDelimiter rest) := by
  have hspan : fieldSpan d (encodeField defaultNull field ++ rest) =
      encodeField defaultNull field := by
    cases field with
    | none => exact fieldSpan_null hd hrest
    | some text =>
      have hall : text.toUtf8.takeWhile (· ≠ d) = text.toUtf8 :=
        takeWhile_eq_self_iff.mpr fun b hb => by
          simpa using fun (heq : b = d) => hfield text rfl (heq ▸ hb)
      rw [encodeField, fieldSpan_encode hd hrest, hall]
  have hdecode : decodeField defaultNull (encodeField defaultNull field) = .ok field := by
    cases field with
    | none => rfl
    | some text => exact decodeField_encode.trans (decodeText_ok_iff.mpr rfl)
  rw [parseFieldText, hspan, hdecode, drop_left]
  rfl

/-- A value with the delimiter: what comes first in the line is a shorter value. -/
lemma parseFieldText_ne {text : Text} {rest : Bytes} {next : Option Bytes}
    (hrest : rest = [] ∨ ∃ more, rest = d :: more) (hmem : d ∈ text.toUtf8) :
    parseFieldText d defaultNull (encodeField defaultNull (some text) ++ rest) ≠
      .ok (some text, next) := by
  intro h
  rw [encodeField, parseFieldText, fieldSpan_encode hd hrest, decodeField_encode] at h
  obtain ⟨first, hfirst, h⟩ := ok_of_bind_ok h
  rw [(Prod.mk.inj (Except.ok.inj h)).1, decodeText_ok_iff] at hfirst
  have hall := takeWhile_eq_self_iff.mp hfirst.symm d hmem
  simp at hall

end

/-- **COPY text gives the rows back exactly when the pieces fit the buffer, every row has fields and
no text holds the delimiter**, however the data is cut into pieces; a written row is never the
end-of-data marker. -/
theorem copyText_roundTrip_iff (delimiter : UInt8) (hpunct : isAsciiPunctuation delimiter = true)
    (hback : delimiter ≠ 92) (columns : List String) (rows : List Row)
    (hrows : ∀ row ∈ rows, row.length = columns.length) (capacity : ℕ) (pieces : List Bytes)
    (hpieces : pieces.flatten = copyToText delimiter defaultNull rows) :
    (∀ row ∈ rows, isEndMarker (encodeRowText delimiter defaultNull row) = false) ∧
      (copyFromText delimiter defaultNull columns capacity pieces = .ok rows ↔
        Fits capacity (rows.map (encodeRowText delimiter defaultNull)) 0 pieces ∧
          ∀ row ∈ rows, row ≠ [] ∧ ∀ text, some text ∈ row → delimiter ∉ text.toUtf8) := by
  have hd := escapeLetter_delimiter hpunct hback
  have hcuts : Cuts textLineEnd (rows.map (encodeRowText delimiter defaultNull)) := by
    refine ⟨fun l hl => ?_, textLineEnd_stable⟩
    obtain ⟨row, -, rfl⟩ := mem_map.mp hl
    exact textLineEnd_append (newline_not_mem_encodeRowText hd row)
  refine ⟨fun row _ => isEndMarker_encodeRowText hd row, ?_⟩
  rw [copyFromText, copyFrom_copyTo_iff hcuts hpieces]
  have hmarker := isEndMarker_encodeRowText hd
  simp only [hmarker, true_and]
  refine and_congr_right fun _ => forall₂_congr fun row hrow => ?_
  rw [copyRow_ok_iff (hrows row hrow), ← hrows row hrow, encodeRowText,
    decodeRow_encodeRow_iff (fun _ _ hgood hrest => parseFieldText_encode hd hrest hgood)]
  · simp only [ne_eq, and_congr_right_iff]
    exact fun _ => ⟨fun h text htext => h _ htext text rfl,
      fun h field hfield text htext => h text (htext ▸ hfield)⟩
  intro field rest next hbad hrest
  push Not at hbad
  obtain ⟨text, rfl, hmem⟩ := hbad
  exact parseFieldText_ne hd hrest hmem

/-- Two rows in pieces of five bytes, with a buffer of eight. -/
theorem copyText_roundTrip_pieces :
    copyFromText 44 defaultNull ["name", "note"] 8
        [[97, 44, 92, 78, 10], [98, 44, 99, 100, 10]] =
      .ok [[some ['a'], none], [some ['b'], some ['c', 'd']]] := by
  refine ((copyText_roundTrip_iff 44 rfl (by decide) ["name", "note"]
    [[some ['a'], none], [some ['b'], some ['c', 'd']]] (by simp) 8 _ (by decide)).2).mpr ⟨?_, ?_⟩
  · simp only [Fits, map_cons, map_nil]
    decide
  · simp only [mem_cons, not_mem_nil, or_false, forall_eq_or_imp, forall_eq]
    simp
    decide

/-- A text with the delimiter is written as two fields, and the reader refuses the second. -/
theorem copyText_delimiter_in_text :
    copyFromText 44 defaultNull ["name"] 64 [copyToText 44 defaultNull [[some ['a', ',', 'b']]]] =
      .error ⟨.badCopyFileFormat, "extra data after last expected column"⟩ := by
  rfl

end Rows

end Pos3ql.Copy
