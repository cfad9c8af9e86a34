import Pos3ql.Copy.TextFormat

/-!
# COPY CSV format

COPY TO quotes a value that is the NULL string or holds a delimiter, a quote or a line break. COPY
FROM cuts its buffer into rows with the quotes in view, but tests each row for the end-of-data
marker as in text format.

* `encodeFieldCsv`: the writer. `parseFieldCsv`, `csvRowLen`: the reader and the row cutter.
* `quotedBody_escape`, `csvRowLen_escape`: both on a quoted value.
* **`copyCsv_roundTrip_iff`**: the rows come back exactly when they have fields and none is
  written as the marker `\.`.

Source: `sql/copy.rs`.
-/

namespace Pos3ql.Copy

open Foundation List

/-- The CSV options. Source: `CopyFmt`. -/
structure CsvFmt where
  delimiter : UInt8
  quote : UInt8
  escape : UInt8
  null : Text

namespace CsvFmt

variable (fmt : CsvFmt)

/-! ## Writing -/

/-- Source: `needs_quote` in `encode_field_csv_bytes`, without `FORCE_QUOTE`. -/
def needsQuote (bytes : Bytes) : Bool :=
  bytes ==
    fmt.null.toUtf8 || bytes.any fun b => b == fmt.delimiter || b == fmt.quote || b == 10 || b == 13

/-- The inside of a quoted value. -/
def escaped (bytes : Bytes) : Bytes :=
  bytes.flatMap fun b => if b = fmt.quote ∨ b = fmt.escape then [fmt.escape, b] else [b]

/-- Source: `encode_field_csv_bytes`. -/
def encodeFieldCsv : Option Text → Bytes
  | none => fmt.null.toUtf8
  | some text =>
    if fmt.needsQuote text.toUtf8 then fmt.quote :: (fmt.escaped text.toUtf8 ++ [fmt.quote])
    else text.toUtf8

/-! ## Reading -/

/-- The content of a quoted field and what follows its closing quote.
Source: the `loop` of `parse_quoted_csv`. -/
def quotedBody : Bytes → Except SqlError (Bytes × Bytes)
  | [] => throw ⟨.badCopyFileFormat, "unterminated CSV quoted field"⟩
  | [c] =>
    if c = fmt.quote then pure ([], [])
    else throw ⟨.badCopyFileFormat, "unterminated CSV quoted field"⟩
  | c :: x :: rest =>
    if fmt.escape ≠ fmt.quote ∧ c = fmt.escape then
      (quotedBody rest).map fun (content, after) => (x :: content, after)
    else if c = fmt.quote then
      if fmt.escape = fmt.quote ∧ x = fmt.quote then
        (quotedBody rest).map fun (content, after) => (fmt.quote :: content, after)
      else pure ([], x :: rest)
    else (quotedBody (x :: rest)).map fun (content, after) => (c :: content, after)

/-- Source: the end of `parse_quoted_csv`. -/
def afterQuote : Bytes → Except SqlError (Option Bytes)
  | [] => pure none
  | b :: rest =>
    if b = fmt.delimiter then pure (some rest)
    else throw ⟨.badCopyFileFormat, "extra data after last expected column"⟩

/-- Source: `parse_quoted_csv`, after the opening quote. -/
def parseQuotedCsv (line : Bytes) : Except SqlError (Option Text × Option Bytes) := do
  let (content, after) ← fmt.quotedBody line
  let text ← decodeText content
  return (text, ← fmt.afterQuote after)

/-- Source: `parse_unquoted_csv`, and the NULL test of `decode_row_csv`. -/
def parseUnquotedCsv (line : Bytes) : Except SqlError (Option Text × Option Bytes) :=
  let span := line.takeWhile (· ≠ fmt.delimiter)
  if 13 ∈ span then throw literalCarriageReturn
  else (decodeText span).map fun text =>
    (if text = some fmt.null then none else text, afterDelimiter (line.drop span.length))

/-- One field, without `FORCE_NULL` and `FORCE_NOT_NULL`. Source: `decode_row_csv`. -/
def parseFieldCsv (line : Bytes) : Except SqlError (Option Text × Option Bytes) :=
  if line.head? = some fmt.quote then fmt.parseQuotedCsv line.tail else fmt.parseUnquotedCsv line

/-- Source: `decode_row_csv`. -/
def decodeRowCsv (room : ℕ) (line : Bytes) : Except SqlError Row :=
  decodeRow fmt.parseFieldCsv room (if line.getLast? = some 13 then line.dropLast else line)

/-- Source: `csv_row_len`, from inside or outside of quotes. -/
def csvRowLen : Bool → Bytes → Option ℕ
  | _, [] => none
  | true, [_] => none
  | true, c :: x :: rest =>
    if fmt.escape ≠ fmt.quote ∧ c = fmt.escape then (csvRowLen true rest).map (· + 2)
    else (csvRowLen (c ≠ fmt.quote) (x :: rest)).map (· + 1)
  | false, c :: rest =>
    if c = fmt.quote then (csvRowLen true rest).map (· + 1)
    else if c = 10 then some 0
    else (csvRowLen false rest).map (· + 1)

/-- COPY TO in CSV format. -/
def copyToCsv (rows : List Row) : Bytes := copyTo (encodeRow fmt.delimiter fmt.encodeFieldCsv) rows

/-- COPY FROM in CSV format into the given columns, with a buffer of the given capacity. -/
def copyFromCsv (columns : List String) (capacity : ℕ) (pieces : List Bytes) :
    Except SqlError (List Row) :=
  copyFrom capacity (fmt.csvRowLen false) (copyRow columns (fmt.decodeRowCsv columns.length)) pieces

/-- The options of the format are usable: punctuation, the delimiter apart from the others, and the
NULL string without any of them and without a line break. -/
structure Usable : Prop where
  punctuation : ∀ b ∈ [fmt.delimiter, fmt.quote, fmt.escape], isAsciiPunctuation b = true
  quote : fmt.delimiter ≠ fmt.quote
  escape : fmt.delimiter ≠ fmt.escape
  null : ∀ b ∈ [fmt.delimiter, fmt.quote, fmt.escape, 10, 13], b ∉ fmt.null.toUtf8

/-- The field is written as the given bytes, without quotes. -/
def Bare (field : Option Text) (bytes : Bytes) : Prop :=
  field.elim (fmt.null.toUtf8 = bytes)
    fun text => text.toUtf8 = bytes ∧ fmt.needsQuote bytes = false

/-- A row of bare fields that spell the end-of-data marker. -/
def SpellsMarker : Row → Prop
  | [field] => fmt.Bare field [92, 46]
  | [field, next] => fmt.delimiter = 46 ∧ fmt.Bare field [92] ∧ fmt.Bare next [] ∨
      fmt.delimiter = 92 ∧ fmt.Bare field [] ∧ fmt.Bare next [46]
  | _ => False

variable {fmt} {bytes : Bytes}

/-! ## Quoted values -/

/-- A plain byte in quotes. -/
lemma quotedBody_cons {b : UInt8} (hquote : b ≠ fmt.quote) (hescape : b ≠ fmt.escape) (l : Bytes) :
    fmt.quotedBody (b :: l) =
      (fmt.quotedBody l).map fun (content, after) => (b :: content, after) := by
  cases l <;> simp [quotedBody, hquote, hescape, throw, throwThe, MonadExceptOf.throw, Except.map]

/-- One byte is escaped after the other. -/
lemma escaped_cons (b : UInt8) (bytes : Bytes) :
    fmt.escaped (b :: bytes) =
      (if b = fmt.quote ∨ b = fmt.escape then [fmt.escape, b] else [b]) ++ fmt.escaped bytes := rfl

/-- What was escaped is read back. -/
lemma quotedBody_escape {rest : Bytes} (hrest : rest.head? ≠ some fmt.quote) (bytes : Bytes) :
    fmt.quotedBody (fmt.escaped bytes ++ fmt.quote :: rest) = .ok (bytes, rest) := by
  induction bytes with
  | nil =>
    cases rest <;>
      simp_all [escaped, quotedBody, pure, Except.pure, @eq_comm _ fmt.quote fmt.escape]
  | cons b bytes ih =>
    rw [escaped_cons]
    split_ifs with hb
    · by_cases hsame : fmt.escape = fmt.quote
      · obtain rfl : b = fmt.quote := by simpa [hsame] using hb
        simp [quotedBody, hsame, ih, Except.map]
      · simp [quotedBody, hsame, ih, Except.map]
    · rw [not_or] at hb
      simp [quotedBody_cons hb.1 hb.2, ih, Except.map]

/-- An escaped field ends no row. -/
lemma csvRowLen_escape (bytes rest : Bytes) :
    fmt.csvRowLen true (fmt.escaped bytes ++ fmt.quote :: rest) =
      (fmt.csvRowLen false rest).map (· + ((fmt.escaped bytes).length + 1)) := by
  induction bytes with
  | nil => cases rest <;> simp [escaped, csvRowLen, @eq_comm _ fmt.quote fmt.escape]
  | cons b bytes ih =>
    rw [escaped_cons]
    split_ifs with hb
    · by_cases hsame : fmt.escape = fmt.quote
      · obtain rfl : b = fmt.quote := by simpa [hsame] using hb
        simp [csvRowLen, hsame, ih, Function.comp_def, add_assoc]
      · simp [csvRowLen, hsame, ih, Function.comp_def, add_assoc]
    rw [not_or] at hb
    obtain ⟨x, l, hl⟩ : ∃ x l, fmt.escaped bytes ++ fmt.quote :: rest = x :: l :=
      exists_cons_of_ne_nil (by simp)
    rw [hl] at ih
    simp [hl, csvRowLen, hb.1, hb.2, ih, Function.comp_def, add_assoc]

/-! ## Fields -/

/-- What is written without quotes. -/
lemma needsQuote_eq_false (h : fmt.needsQuote bytes = false) :
    bytes ≠ fmt.null.toUtf8 ∧ fmt.delimiter ∉ bytes ∧ fmt.quote ∉ bytes ∧ 10 ∉ bytes ∧
      13 ∉ bytes := by
  simp only [needsQuote, Bool.or_eq_false_iff, beq_eq_false_iff_ne, any_eq_false, Bool.or_eq_true,
    beq_iff_eq, not_or] at h
  exact ⟨h.1, fun hb => (h.2 _ hb).1.1.1 rfl, fun hb => (h.2 _ hb).1.1.2 rfl,
    fun hb => (h.2 _ hb).1.2 rfl, fun hb => (h.2 _ hb).2 rfl⟩

section

variable (hu : fmt.Usable)
include hu

/-- What a field is written as: bare bytes without special ones, or quoted. -/
lemma encodeFieldCsv_cases (field : Option Text) :
    (∃ bytes, fmt.encodeFieldCsv field = bytes ∧ fmt.Bare field bytes ∧ fmt.delimiter ∉ bytes ∧
      fmt.quote ∉ bytes ∧ 10 ∉ bytes ∧ 13 ∉ bytes) ∨
    ∃ text : Text, field = some text ∧
      fmt.encodeFieldCsv field = fmt.quote :: (fmt.escaped text.toUtf8 ++ [fmt.quote]) := by
  cases field with
  | none =>
    exact .inl ⟨_, rfl, rfl, hu.null _ (by simp), hu.null _ (by simp), hu.null _ (by simp),
      hu.null _ (by simp)⟩
  | some text =>
    rw [encodeFieldCsv]
    split_ifs with hquote
    · exact .inr ⟨text, rfl, rfl⟩
    · rw [Bool.not_eq_true] at hquote
      exact .inl ⟨_, rfl, ⟨rfl, hquote⟩, (needsQuote_eq_false hquote).2⟩

omit hu in
/-- Plain bytes end no row. -/
lemma csvRowLen_plain (hquote : fmt.quote ∉ bytes) (hline : 10 ∉ bytes) (rest : Bytes) :
    fmt.csvRowLen false (bytes ++ rest) = (fmt.csvRowLen false rest).map (· + bytes.length) := by
  induction bytes with
  | nil => simp
  | cons b bytes ih =>
    rw [mem_cons, not_or] at hquote hline
    rw [cons_append, csvRowLen, if_neg (Ne.symm hquote.1), if_neg (Ne.symm hline.1),
      ih hquote.2 hline.2]
    simp

/-- No written field ends a row. -/
lemma csvRowLen_field (field : Option Text) (rest : Bytes) :
    fmt.csvRowLen false (fmt.encodeFieldCsv field ++ rest) =
      (fmt.csvRowLen false rest).map (· + (fmt.encodeFieldCsv field).length) := by
  rcases encodeFieldCsv_cases hu field with ⟨bytes, heq, -, -, hquote, hline, -⟩ | ⟨text, -, heq⟩
  · rw [heq, csvRowLen_plain hquote hline]
  · rw [heq]
    simp [csvRowLen, csvRowLen_escape]

/-- The special bytes are no line ends. -/
lemma Usable.ne_control {b : UInt8} (hb : b ∈ [fmt.delimiter, fmt.quote, fmt.escape]) :
    b ≠ 10 ∧ b ≠ 13 := by
  have := hu.punctuation b hb
  constructor <;> rintro rfl <;> simp [isAsciiPunctuation] at this

/-- A written row ends at its line end. -/
lemma csvRowLen_row (row : Row) (rest : Bytes) :
    fmt.csvRowLen false (encodeRow fmt.delimiter fmt.encodeFieldCsv row ++ 10 :: rest) =
      some (encodeRow fmt.delimiter fmt.encodeFieldCsv row).length := by
  have hquote := (hu.ne_control (b := fmt.quote) (by simp)).1
  have hdelimiter := (hu.ne_control (b := fmt.delimiter) (by simp)).1
  induction row with
  | nil => simp [encodeRow, csvRowLen, hquote.symm]
  | cons field row ih =>
    rw [encodeRow_cons, append_assoc, csvRowLen_field hu]
    cases row with
    | nil => simp [afterFirst, csvRowLen, hquote.symm]
    | cons next row =>
      rw [afterFirst, cons_append, csvRowLen, if_neg hu.quote, if_neg hdelimiter, ih]
      simp
      omega

omit hu in
/-- The end of a row is found once its line end has come. Induction as the scan goes. -/
lemma csvRowLen_stable {quoted : Bool} {stop : ℕ} (h : fmt.csvRowLen quoted bytes = some stop) :
    stop < bytes.length ∧ ∀ more, fmt.csvRowLen quoted (bytes ++ more) = some stop := by
  fun_induction csvRowLen fmt quoted bytes generalizing stop with
  | case1 => cases h
  | case2 => cases h
  | case3 c x rest hescape ih =>
    obtain ⟨k, hk, rfl⟩ := Option.map_eq_some_iff.mp h
    obtain ⟨hlt, hmore⟩ := ih hk
    exact ⟨by simp only [length_cons]; omega, fun more => by simp [csvRowLen, hescape, hmore]⟩
  | case4 c x rest hescape ih =>
    obtain ⟨k, hk, rfl⟩ := Option.map_eq_some_iff.mp h
    obtain ⟨hlt, hmore⟩ := ih hk
    refine ⟨by simpa using hlt, fun more => ?_⟩
    rw [cons_append, cons_append, csvRowLen, if_neg hescape, ← cons_append, hmore]
    rfl
  | case5 rest ih =>
    obtain ⟨k, hk, rfl⟩ := Option.map_eq_some_iff.mp h
    obtain ⟨hlt, hmore⟩ := ih hk
    exact ⟨by simpa using hlt, fun more => by simp [csvRowLen, hmore]⟩
  | case6 rest hquote =>
    cases h
    exact ⟨by simp, fun more => by simp [csvRowLen, hquote]⟩
  | case7 c rest hquote hline ih =>
    obtain ⟨k, hk, rfl⟩ := Option.map_eq_some_iff.mp h
    obtain ⟨hlt, hmore⟩ := ih hk
    exact ⟨by simpa using hlt, fun more => by simp [csvRowLen, hquote, hline, hmore]⟩

/-- **The reader finds a written field.** -/
lemma parseFieldCsv_encode (field : Option Text) {rest : Bytes}
    (hrest : rest = [] ∨ ∃ more, rest = fmt.delimiter :: more) :
    fmt.parseFieldCsv (fmt.encodeFieldCsv field ++ rest) = .ok (field, afterDelimiter rest) := by
  have hhead : rest.head? ≠ some fmt.quote := by
    rcases hrest with rfl | ⟨more, rfl⟩ <;> simp [hu.quote]
  rcases encodeFieldCsv_cases hu field with
    ⟨bytes, heq, hbare, hdelimiter, hquote, -, hreturn⟩ | ⟨text, rfl, heq⟩
  · have hspan : (bytes ++ rest).takeWhile (· ≠ fmt.delimiter) = bytes := by
      rw [takeWhile_append_of_pos fun b hb => by
        simpa using fun (h : b = fmt.delimiter) => hdelimiter (h ▸ hb)]
      rcases hrest with rfl | ⟨more, rfl⟩ <;> simp
    have hbytes : (bytes ++ rest).head? ≠ some fmt.quote := by
      cases bytes with
      | nil => exact hhead
      | cons b bytes => simpa using fun (h : b = fmt.quote) => hquote (h ▸ mem_cons_self)
    rw [heq, parseFieldCsv, if_neg hbytes, parseUnquotedCsv, hspan, if_neg hreturn]
    cases field with
    | none =>
      rw [← show fmt.null.toUtf8 = bytes from hbare, decodeText_ok_iff.mpr rfl]
      simp [Except.map]
    | some text =>
      obtain ⟨htext, hplain⟩ := hbare
      have hnull : text ≠ fmt.null := by
        rintro rfl
        exact (needsQuote_eq_false hplain).1 htext.symm
      rw [decodeText_ok_iff.mpr htext]
      simp [Except.map, hnull]
  · rw [heq, parseFieldCsv, if_pos (by simp), cons_append, tail_cons, append_assoc,
      singleton_append, parseQuotedCsv, quotedBody_escape hhead]
    rcases hrest with rfl | ⟨more, rfl⟩ <;>
      simp [bind, Except.bind, decodeText_ok_iff.mpr rfl, afterQuote, afterDelimiter, pure,
        Except.pure]

/-! ## Rows -/

/-- It does not end in a carriage return. -/
lemma getLast?_encodeRow (row : Row) :
    (encodeRow fmt.delimiter fmt.encodeFieldCsv row).getLast? ≠ some 13 := by
  have hquote := (hu.ne_control (b := fmt.quote) (by simp)).2
  have hdelimiter := (hu.ne_control (b := fmt.delimiter) (by simp)).2
  induction row with
  | nil => simp [encodeRow]
  | cons field row ih =>
    rw [encodeRow_cons]
    cases row with
    | nil =>
      rw [afterFirst, append_nil]
      rcases encodeFieldCsv_cases hu field with ⟨bytes, heq, -, -, -, -, hreturn⟩ | ⟨text, -, heq⟩
      · rw [heq]
        exact fun h => hreturn (mem_of_getLast? h)
      · rw [heq, ← cons_append, getLast?_concat]
        simpa using hquote
    | cons next row =>
      rw [afterFirst, getLast?_append_of_ne_nil _ (cons_ne_nil _ _), getLast?_cons]
      cases h : (encodeRow fmt.delimiter fmt.encodeFieldCsv (next :: row)).getLast? with
      | none => simpa using hdelimiter
      | some b => simpa [h] using ih

end

/-- Bytes that no quotes surround are a bare field. -/
lemma encodeFieldCsv_eq_iff {field : Option Text} (hbytes : ∀ b l, bytes ≠ b :: (l ++ [b])) :
    fmt.encodeFieldCsv field = bytes ↔ fmt.Bare field bytes := by
  cases field with
  | none => rfl
  | some text =>
    rw [encodeFieldCsv]
    split_ifs with hquote
    · refine iff_of_false (fun h => hbytes _ _ h.symm) (fun h => ?_)
      rw [h.1, h.2] at hquote
      cases hquote
    · exact ⟨fun h => ⟨h, h ▸ Bool.eq_false_iff.mpr hquote⟩, fun h => h.1⟩

/-- The rows that are taken for the marker. -/
lemma isEndMarker_encodeRow_iff (row : Row) :
    isEndMarker (encodeRow fmt.delimiter fmt.encodeFieldCsv row) ↔ fmt.SpellsMarker row := by
  have happend : ∀ l r : Bytes, l ++ fmt.delimiter :: r = [92, 46] ↔
      fmt.delimiter = 46 ∧ l = [92] ∧ r = [] ∨ fmt.delimiter = 92 ∧ l = [] ∧ r = [46] := by
    intro l r
    match l with
    | [] => simp
    | [a] => simp; tauto
    | a :: b :: l => simp
  have hbare : ∀ (field : Option Text) (bytes : Bytes), bytes ∈ [[], [46], [92], [92, 46]] →
      (fmt.encodeFieldCsv field = bytes ↔ fmt.Bare field bytes) := by
    intro field bytes hmem
    refine encodeFieldCsv_eq_iff fun b l h => ?_
    cases l <;> simp [h] at hmem
    grind
  rw [isEndMarker, beq_iff_eq]
  rcases row with _ | ⟨field, _ | ⟨next, _ | ⟨other, row⟩⟩⟩
  · simp [encodeRow, SpellsMarker]
  · exact hbare field _ (by simp)
  · rw [encodeRow, encodeRow, happend, hbare field _ (by simp), hbare next _ (by simp),
      hbare field _ (by simp), hbare next _ (by simp)]
    rfl
  rw [encodeRow, happend, encodeRow]
  refine iff_of_false ?_ id
  rintro (⟨-, -, h⟩ | ⟨h92, -, h⟩)
  · simp at h
  · cases hnext : fmt.encodeFieldCsv next <;> simp [hnext, h92] at h

/-- **COPY CSV gives the rows back exactly when the pieces fit the buffer, every row has fields and
none spells the end-of-data marker**, however the data is cut into pieces. -/
theorem copyCsv_roundTrip_iff (fmt : CsvFmt) (hu : fmt.Usable) (columns : List String)
    (rows : List Row) (hrows : ∀ row ∈ rows, row.length = columns.length) (capacity : ℕ)
    (pieces : List Bytes) (hpieces : pieces.flatten = fmt.copyToCsv rows) :
    fmt.copyFromCsv columns capacity pieces = .ok rows ↔
      Fits capacity (rows.map (encodeRow fmt.delimiter fmt.encodeFieldCsv)) 0 pieces ∧
        ∀ row ∈ rows, row ≠ [] ∧ ¬ fmt.SpellsMarker row := by
  have hcuts : Cuts (fmt.csvRowLen false)
      (rows.map (encodeRow fmt.delimiter fmt.encodeFieldCsv)) := by
    refine ⟨fun l hl => ?_, csvRowLen_stable⟩
    obtain ⟨row, -, rfl⟩ := mem_map.mp hl
    exact csvRowLen_row hu row
  rw [copyFromCsv, copyFrom_copyTo_iff hcuts hpieces]
  refine and_congr_right fun _ => forall₂_congr fun row hrow => ?_
  rw [copyRow_ok_iff (hrows row hrow), ← hrows row hrow, decodeRowCsv,
    if_neg (getLast?_encodeRow hu row), ← Bool.not_eq_true, isEndMarker_encodeRow_iff,
    @decodeRow_encodeRow_iff _ _ (fun _ => True) _
      (fun field _ _ hrest => parseFieldCsv_encode hu field hrest) fun _ _ _ h => absurd trivial h]
  simp [and_comm]

/-- The default options. -/
def standard : CsvFmt := ⟨44, 34, 34, []⟩

/-- A quoted field with a line break inside, cut at the line break. -/
theorem copyCsv_roundTrip_quoted :
    standard.copyFromCsv ["name"] 8 [[34, 97, 10], [44, 34, 34, 34, 10]] =
      .ok [[some ['a', '\n', ',', '"']]] := by
  have husable : standard.Usable := by
    refine ⟨?_, by decide, by decide, fun b _ h => nomatch (show b ∈ ([] : Bytes) from h)⟩
    intro b hb
    simp only [standard, mem_cons, not_mem_nil, or_false] at hb
    rcases hb with rfl | rfl | rfl <;> rfl
  refine (copyCsv_roundTrip_iff standard husable ["name"] [[some ['a', '\n', ',', '"']]]
    (by simp) 8 _ (by decide)).mpr ⟨?_, ?_⟩
  · simp only [Fits, map_cons, map_nil]
    decide
  · simp only [mem_singleton, forall_eq, SpellsMarker, Bare, Option.elim]
    decide

/-- The text `\.` is written without quotes, taken for the end of the data, and lost. -/
theorem copyCsv_marker_in_text :
    standard.copyFromCsv ["name"] 64 [standard.copyToCsv [[some ['\\', '.']]]] = .ok [] := by
  rfl

end CsvFmt

end Pos3ql.Copy
