import Pos3ql.Foundation.Text
import Pos3ql.SqlError

/-!
# COPY data as lines of rows

COPY TO writes one line per row. COPY FROM gets the data in pieces of any size. It appends each to a
buffer of fixed capacity and cuts the buffer into lines, stops at the end-of-data marker, and drains
the rest after the marker or after a first error; a piece that does not fit and a line that fills
the buffer are such errors.

* `CopyInProgress.chunk` takes one piece, `drain` is its loop over the buffer, for either format.
* `Fits`: the pieces never overflow the buffer.
* **`copyFrom_copyTo_iff`**: when every written line is cut where it ends, reading back gives the
  rows exactly if the pieces fit, no line is the marker and every line decodes to its own row.

The arena has room for every row; header lines, `ON_ERROR ignore` and the coercions of `copy_row`
are left out.

Source: `pg/conn.rs`, `pg/respond.rs`, `sql/copy.rs`, `sql/exec/mod.rs`.
-/

namespace Pos3ql.Copy

open Foundation List

/-- A value per column, `none` for NULL. -/
abbrev Row := List (Option Text)

/-- Source: `is_end_marker`. -/
def isEndMarker (line : Bytes) : Bool := line == [92, 46]

/-- What COPY FROM has read, and what it has not cut into lines yet. Source: `CopyInProgress`
(`count` is the length of `rows`) with `copy_buf`. -/
structure CopyInProgress where
  rows : List Row
  endSeen : Bool
  failed : Option SqlError
  buffer : Bytes

/-- The columns a decoded line must reach. Source: `copy_row`, up to its coercions. -/
def copyRow (columns : List String) (decode : Bytes → Except SqlError Row) (line : Bytes) :
    Except SqlError Row := do
  let fields ← decode line
  match columns[fields.length]? with
  | some name => throw ⟨.badCopyFileFormat, s!"missing data for column \"{name}\""⟩
  | none => pure fields

/-- What follows a field in a line: nothing, or a delimiter and more fields. -/
def afterDelimiter : Bytes → Option Bytes
  | [] => none
  | _ :: rest => some rest

/-- The fields of a line, at most as many as there is room for.
Source: the `loop` of `decode_row_text` and of `decode_row_csv`. -/
def decodeRow (parseField : Bytes → Except SqlError (Option Text × Option Bytes)) :
    ℕ → Bytes → Except SqlError Row
  | 0, _ => throw ⟨.badCopyFileFormat, "extra data after last expected column"⟩
  | room + 1, line => do
    let (field, next) ← parseField line
    match next with
    | none => pure [field]
    | some rest => return field :: (← decodeRow parseField room rest)

/-- What the server answers at the end of the data. -/
def CopyInProgress.outcome (copy : CopyInProgress) : Except SqlError (List Row) :=
  match copy.failed with
  | some err => .error err
  | none => .ok copy.rows

/-- The fields of a row and the delimiter between them.
Source: the closure `emit_copy_out_row` gives to `copy_data_row`. -/
def encodeRow (delimiter : UInt8) (encode : Option Text → Bytes) : Row → Bytes
  | [] => []
  | [field] => encode field
  | field :: next :: row => encode field ++ delimiter :: encodeRow delimiter encode (next :: row)

/-- The rest of a line after its first value. -/
def afterFirst (delimiter : UInt8) (encode : Option Text → Bytes) : Row → Bytes
  | [] => []
  | field :: row => delimiter :: encodeRow delimiter encode (field :: row)

section Rows

variable {d : UInt8} {encode : Option Text → Bytes}

/-- The first field and the rest. -/
lemma encodeRow_cons (field : Option Text) (row : Row) :
    encodeRow d encode (field :: row) = encode field ++ afterFirst d encode row := by
  cases row <;> simp [encodeRow, afterFirst]

/-- The rest starts with a delimiter. -/
lemma afterFirst_eq (row : Row) :
    afterFirst d encode row = [] ∨ ∃ more, afterFirst d encode row = d :: more := by
  cases row <;> simp [afterFirst]

/-- **The reader finds the fields of a written row** when it finds each of them before a delimiter
or the end of the line. -/
theorem decodeRow_encodeRow_iff {Good : Option Text → Prop}
    {parseField : Bytes → Except SqlError (Option Text × Option Bytes)}
    (hgood : ∀ field rest, Good field → rest = [] ∨ (∃ more, rest = d :: more) →
      parseField (encode field ++ rest) = .ok (field, afterDelimiter rest))
    (hbad : ∀ field rest next, ¬ Good field → rest = [] ∨ (∃ more, rest = d :: more) →
      parseField (encode field ++ rest) ≠ .ok (field, next)) (row : Row) :
    decodeRow parseField row.length (encodeRow d encode row) = .ok row ↔
      row ≠ [] ∧ ∀ field ∈ row, Good field := by
  induction row with
  | nil => simp [decodeRow, throw, throwThe, MonadExceptOf.throw]
  | cons field row ih =>
    rw [length_cons, encodeRow_cons, decodeRow, forall_mem_cons]
    by_cases hfield : Good field
    · rw [hgood field _ hfield (afterFirst_eq row)]
      cases row with
      | nil => simp [afterFirst, afterDelimiter, bind, Except.bind, pure, Except.pure, hfield]
      | cons next row =>
        simp only [ne_eq, reduceCtorEq, true_and, hfield] at ih ⊢
        rw [← ih]
        simp only [afterFirst, afterDelimiter, bind, Except.bind]
        cases decodeRow parseField (next :: row).length (encodeRow d encode (next :: row)) with
        | error err => simp
        | ok found => simp [pure, Except.pure]
    · refine iff_of_false (fun h => ?_) (fun h => hfield h.2.1)
      obtain ⟨⟨found, next⟩, hfound, h⟩ := ok_of_bind_ok h
      have hsame : found = field := by
        cases next with
        | none => exact (cons.inj (Except.ok.inj h)).1
        | some rest =>
          obtain ⟨others, -, h⟩ := ok_of_bind_ok h
          exact (cons.inj (Except.ok.inj h)).1
      exact hbad field _ next hfield (afterFirst_eq row) (hsame ▸ hfound)

/-- A row of the right length is stored if it decodes. -/
lemma copyRow_ok_iff {columns : List String} {decode : Bytes → Except SqlError Row} {line : Bytes}
    {row : Row} (h : row.length = columns.length) :
    copyRow columns decode line = .ok row ↔ decode line = .ok row := by
  rw [copyRow]
  constructor
  · intro hrow
    obtain ⟨fields, hfields, hrow⟩ := ok_of_bind_ok hrow
    split at hrow
    · cases hrow
    · cases hrow
      exact hfields
  · intro hrow
    rw [hrow]
    simp [bind, Except.bind, pure, Except.pure, h]

end Rows

/-- COPY TO: each row and a line end. Source: `copy_data_row`. -/
def copyTo (encodeRow : Row → Bytes) (rows : List Row) : Bytes :=
  rows.flatMap fun row => encodeRow row ++ [10]

/-- The error of a full buffer. Source: `copy_data_chunk`. -/
def rowTooLong (capacity : ℕ) : SqlError :=
  ⟨.programLimitExceeded, s!"COPY row exceeds copy_line_bytes ({capacity})"⟩

/-- A full buffer; an error that came before stays. Source: `copy_data_chunk`. -/
def CopyInProgress.refuse (capacity : ℕ) (copy : CopyInProgress) : CopyInProgress :=
  { copy with failed := copy.failed.or (some (rowTooLong capacity)) }

section Loop

variable (capacity : ℕ) (lineEnd : Bytes → Option ℕ) (store : Bytes → Except SqlError Row)

/-- One complete line. Source: `copy_data_chunk`, without a header line. -/
def CopyInProgress.line (copy : CopyInProgress) (line : Bytes) : CopyInProgress :=
  -- draining: what follows the marker or an error is dropped
  if copy.endSeen || copy.failed.isSome then copy
  else if isEndMarker line then { copy with endSeen := true }
  else match store line with
    | .ok row => { copy with rows := copy.rows ++ [row] }
    | .error err => { copy with failed := some err }

/-- The loop over the buffer; each round but the last consumes a byte at least, which bounds the
rounds. Source: the `loop` of `copy_data_chunk`. -/
def CopyInProgress.drain : ℕ → CopyInProgress → CopyInProgress
  | 0, copy => copy
  | rounds + 1, copy =>
    match lineEnd copy.buffer with
    | none => if copy.buffer.length = capacity then copy.refuse capacity else copy
    | some stop =>
      drain rounds
        { copy.line store (copy.buffer.take stop) with buffer := copy.buffer.drop (stop + 1) }

/-- The buffer with one more piece of the data, or an error. Source: the `append` of
`copy_data_chunk`. -/
def CopyInProgress.receive (copy : CopyInProgress) (payload : Bytes) : CopyInProgress :=
  if copy.buffer.length + payload.length ≤ capacity then
    { copy with buffer := copy.buffer ++ payload }
  else copy.refuse capacity

/-- One piece of the data. Source: `copy_data_chunk`. -/
def CopyInProgress.chunk (copy : CopyInProgress) (payload : Bytes) : CopyInProgress :=
  CopyInProgress.drain capacity lineEnd store ((copy.receive capacity payload).buffer.length + 1)
    (copy.receive capacity payload)

/-- A last line without a line end is still a line. Source: `copy_finish`. -/
def CopyInProgress.finish (copy : CopyInProgress) : CopyInProgress :=
  if copy.buffer = [] then copy else copy.line store copy.buffer

/-- COPY FROM over all the data, as the pieces bring it. -/
def copyFrom (pieces : List Bytes) : Except SqlError (List Row) :=
  ((pieces.foldl (CopyInProgress.chunk capacity lineEnd store) ⟨[], false, none, []⟩).finish
    store).outcome

variable {capacity lineEnd store} {enc : Row → Bytes} {rows : List Row}

/-- Lines after the end or an error are dropped. -/
lemma foldl_line_stopped {copy : CopyInProgress} (h : (copy.endSeen || copy.failed.isSome))
    (lines : List Bytes) : lines.foldl (CopyInProgress.line store) copy = copy := by
  induction lines with
  | nil => rfl
  | cons line lines ih => rw [foldl_cons, CopyInProgress.line, if_pos h, ih]

/-- Rows are only added. -/
lemma foldl_line_rows (copy : CopyInProgress) (lines : List Bytes) :
    copy.rows <+: (lines.foldl (CopyInProgress.line store) copy).rows := by
  induction lines generalizing copy with
  | nil => exact prefix_rfl
  | cons line lines ih =>
    refine IsPrefix.trans ?_ (ih _)
    unfold CopyInProgress.line
    split_ifs
    · exact prefix_rfl
    · exact prefix_rfl
    · split
      · exact prefix_append _ _
      · exact prefix_rfl

/-- A refusal is an error. -/
lemma refuse_failed (copy : CopyInProgress) : (copy.refuse capacity).failed.isSome := by
  simp [CopyInProgress.refuse]

/-- After an error a line is dropped. -/
lemma line_failed {copy : CopyInProgress} (h : copy.failed.isSome) (line : Bytes) :
    copy.line store line = copy :=
  if_pos (by rw [h, Bool.or_true])

/-- An error is never forgotten. -/
lemma drain_failed {n : ℕ} {copy : CopyInProgress} (h : copy.failed.isSome) :
    (copy.drain capacity lineEnd store n).failed.isSome := by
  induction n generalizing copy with
  | zero => exact h
  | succ n ih =>
    rw [CopyInProgress.drain]
    split
    · split_ifs
      · exact refuse_failed copy
      · exact h
    · refine ih ?_
      rw [line_failed h]
      exact h

/-- With an error nothing is read back. Induction on the pieces. -/
lemma outcome_failed {copy : CopyInProgress} (h : copy.failed.isSome) (pieces : List Bytes) :
    ((pieces.foldl (CopyInProgress.chunk capacity lineEnd store) copy).finish store).outcome ≠
      .ok rows := by
  induction pieces generalizing copy with
  | nil =>
    have hfinish : copy.finish store = copy := by
      rw [CopyInProgress.finish, line_failed h, ite_self]
    obtain ⟨err, herr⟩ := Option.isSome_iff_exists.mp h
    rw [foldl_nil, hfinish, CopyInProgress.outcome, herr]
    exact nofun
  | cons piece pieces ih =>
    refine ih (drain_failed ?_)
    rw [CopyInProgress.receive]
    split_ifs
    · exact h
    · exact refuse_failed copy

/-! ## Lines that are begun -/

/-- The written lines, each with its line end. -/
def linesText (lines : List Bytes) : Bytes := lines.flatMap (· ++ [10])

/-- The bytes of the line that is begun when so many bytes of the lines have come. -/
def begun : List Bytes → ℕ → ℕ
  | [], received => received
  | line :: lines, received =>
    if line.length < received then begun lines (received - (line.length + 1)) else received

/-- **The pieces fit the buffer**: each one behind the line that is begun before it, and no line
that is begun fills the buffer. -/
def Fits (capacity : ℕ) (lines : List Bytes) : ℕ → List Bytes → Prop
  | _, [] => True
  | received, piece :: pieces =>
    begun lines received + piece.length ≤ capacity ∧
      begun lines (received + piece.length) ≠ capacity ∧
      Fits capacity lines (received + piece.length) pieces

/-- The bytes are at most the first of the lines. -/
def Opens (bytes : Bytes) (lines : List Bytes) : Prop :=
  ∀ l ls, lines = l :: ls → bytes.length ≤ l.length

/-- At most the first line has begun. -/
lemma Opens.begun_eq {bytes : Bytes} {lines : List Bytes} (h : Opens bytes lines) :
    begun lines bytes.length = bytes.length := by
  cases lines with
  | nil => rfl
  | cons l ls => rw [begun, if_neg (h l ls rfl).not_gt]

/-- How the lines are cut: one that is complete at its end, and what is found stays found. -/
structure Cuts (lineEnd : Bytes → Option ℕ) (lines : List Bytes) : Prop where
  complete : ∀ l ∈ lines, ∀ rest, lineEnd (l ++ 10 :: rest) = some l.length
  stable : ∀ {bytes : Bytes} {stop : ℕ}, lineEnd bytes = some stop →
    stop < bytes.length ∧ ∀ more, lineEnd (bytes ++ more) = some stop

/-- A line that is begun has no end yet. -/
lemma Cuts.open_eq_none {bytes rest : Bytes} {lines : List Bytes} (h : Cuts lineEnd lines)
    (hdata : bytes ++ rest = linesText lines) (hopen : Opens bytes lines) :
    lineEnd bytes = none := by
  rcases hend : lineEnd bytes with _ | stop
  · rfl
  obtain ⟨hlt, hmore⟩ := h.stable hend
  cases lines with
  | nil =>
    have hnil : bytes ++ rest = [] := hdata
    rw [(append_eq_nil_iff.mp hnil).1] at hlt
    cases hlt
  | cons l ls =>
    have hcut := h.complete l mem_cons_self (linesText ls)
    have hsplit : l ++ 10 :: linesText ls = bytes ++ rest := by simp [hdata, linesText]
    rw [hsplit, hmore, Option.some.injEq] at hcut
    have := hopen l ls rfl
    omega

/-- **The loop over the buffer** takes the complete lines and leaves the one that is begun.
Induction on the lines. -/
lemma drain_lines {lines : List Bytes} (hcuts : Cuts lineEnd lines) {bytes rest : Bytes}
    (hdata : bytes ++ rest = linesText lines) {n : ℕ} (hn : bytes.length < n)
    (copy : CopyInProgress) :
    ∃ done todo left, lines = done ++ todo ∧ left ++ rest = linesText todo ∧ Opens left todo ∧
      (∀ k, begun lines (bytes.length + k) = begun todo (left.length + k)) ∧
      CopyInProgress.drain capacity lineEnd store n { copy with buffer := bytes } =
        if left.length = capacity then
          { done.foldl (CopyInProgress.line store) copy with buffer := left }.refuse capacity
        else { done.foldl (CopyInProgress.line store) copy with buffer := left } := by
  obtain ⟨n, rfl⟩ : ∃ m, n = m + 1 := ⟨n - 1, by omega⟩
  induction lines generalizing bytes copy n with
  | nil =>
    have hopen : Opens bytes [] := fun l ls h => nomatch h
    exact ⟨[], [], bytes, rfl, hdata, hopen, fun k => rfl, by
      rw [CopyInProgress.drain, hcuts.open_eq_none hdata hopen]; rfl⟩
  | cons l ls ih =>
    by_cases hlong : l.length < bytes.length
    · -- the first line is complete
      have hcons : linesText (l :: ls) = l ++ 10 :: linesText ls := by simp [linesText]
      obtain ⟨more, rfl, hmore⟩ : ∃ more, bytes = l ++ 10 :: more ∧
          more ++ rest = linesText ls := by
        rw [hcons] at hdata
        obtain ⟨tail, rfl, htail⟩ | ⟨tail, rfl, -⟩ := append_eq_append_iff.mp hdata.symm
        · rcases tail with _ | ⟨b, tail⟩
          · simp at hlong
          · obtain ⟨rfl, hmore⟩ := cons.inj htail
            exact ⟨tail, rfl, hmore.symm⟩
        · simp at hlong
      have hrest : Cuts lineEnd ls := ⟨(forall_mem_cons.mp hcuts.complete).2, hcuts.stable⟩
      simp only [length_append, length_cons] at hn
      obtain ⟨n, rfl⟩ : ∃ m, n = m + 1 := ⟨n - 1, by omega⟩
      obtain ⟨done, todo, left, hsplit, hleft, hopen, hbegun, hdrain⟩ :=
        ih hrest hmore (copy.line store l) n (by omega)
      refine ⟨l :: done, todo, left, by rw [hsplit]; rfl, hleft, hopen, fun k => ?_, ?_⟩
      · rw [begun, if_pos (by simp only [length_append, length_cons]; omega), ← hbegun k]
        congr 1
        simp only [length_append, length_cons]
        omega
      · rw [CopyInProgress.drain, hcuts.complete l mem_cons_self]
        simp only [take_left', drop_append, drop_eq_nil_of_le (Nat.le_succ _),
          Nat.add_sub_cancel_left,
          nil_append, drop_succ_cons, drop_zero, foldl_cons]
        rw [← hdrain]
        congr 1
        unfold CopyInProgress.line
        dsimp only
        split_ifs
        · rfl
        · rfl
        · split <;> rfl
    · have hopen : Opens bytes (l :: ls) := by
        rintro _ _ ⟨⟩
        omega
      exact ⟨[], l :: ls, bytes, rfl, hdata, hopen, fun k => rfl, by
        rw [CopyInProgress.drain, hcuts.open_eq_none hdata hopen]; rfl⟩

/-- **The pieces bring the lines when they fit, and an error when they do not.** Induction on the
pieces; `received` bytes came before, of which `left` is the line that is begun. -/
lemma foldl_chunk {lines todo pieces : List Bytes} {left : Bytes} {received : ℕ}
    (hcuts : Cuts lineEnd todo) (hdata : left ++ pieces.flatten = linesText todo)
    (hopen : Opens left todo)
    (hbegun : ∀ k, begun lines (received + k) = begun todo (left.length + k))
    (copy : CopyInProgress) :
    (Fits capacity lines received pieces ∧
      pieces.foldl (CopyInProgress.chunk capacity lineEnd store) { copy with buffer := left } =
        { todo.foldl (CopyInProgress.line store) copy with buffer := [] }) ∨
      ¬Fits capacity lines received pieces ∧
        ((pieces.foldl (CopyInProgress.chunk capacity lineEnd store)
          { copy with buffer := left }).finish store).outcome ≠ .ok rows := by
  induction pieces generalizing todo left received copy with
  | nil =>
    rw [flatten_nil, append_nil] at hdata
    rcases todo with _ | ⟨l, ls⟩
    · exact .inl ⟨trivial, by rw [hdata]; rfl⟩
    · have := hopen l ls rfl
      simp [hdata, linesText] at this
  | cons piece pieces ih =>
    have hleft : begun lines received = left.length := (hbegun 0).trans hopen.begun_eq
    rw [foldl_cons, Fits, hleft, CopyInProgress.chunk, CopyInProgress.receive]
    by_cases hfits : left.length + piece.length ≤ capacity
    · rw [flatten_cons, ← append_assoc] at hdata
      obtain ⟨done, todo', left', rfl, hdata', hopen', hbegun', hdrain⟩ :=
        drain_lines hcuts hdata (Nat.lt_succ_self _) copy
      have hnow : begun lines (received + piece.length) = left'.length := by
        rw [hbegun, ← length_append, ← add_zero (left ++ piece).length, hbegun', add_zero,
          hopen'.begun_eq]
      rw [if_pos hfits, hdrain, and_iff_right hfits, hnow]
      by_cases hfull : left'.length = capacity
      · rw [if_pos hfull]
        exact .inr ⟨fun h => h.1 hfull, outcome_failed (refuse_failed _) pieces⟩
      · rw [if_neg hfull, and_iff_right hfull, foldl_append]
        refine ih ⟨fun l hl => hcuts.complete l (mem_append_right _ hl), hcuts.stable⟩ hdata' hopen'
          (fun k => ?_) _
        rw [add_assoc, hbegun, ← hbegun', length_append, add_assoc]
    · rw [if_neg hfits]
      exact .inr ⟨fun h => hfits h.1, outcome_failed (drain_failed (refuse_failed _)) pieces⟩

/-- The lines one by one. Induction on the rows. -/
lemma outcome_foldl_iff (acc : List Row) :
    ((rows.map enc).foldl (CopyInProgress.line store) ⟨acc, false, none, []⟩).outcome =
      .ok (acc ++ rows) ↔
      ∀ row ∈ rows, isEndMarker (enc row) = false ∧ store (enc row) = .ok row := by
  induction rows generalizing acc with
  | nil => simp [CopyInProgress.outcome]
  | cons row rows ih =>
    rw [map_cons, foldl_cons, forall_mem_cons]
    cases hend : isEndMarker (enc row) with
    | true =>
      -- the marker is not a row, and nothing after it is one
      have hline : CopyInProgress.line store ⟨acc, false, none, []⟩ (enc row) =
          ⟨acc, true, none, []⟩ := by
        simp [CopyInProgress.line, hend]
      rw [hline, foldl_line_stopped rfl]
      simp [CopyInProgress.outcome]
    | false =>
      cases hstore : store (enc row) with
      | error err =>
        have hline : CopyInProgress.line store ⟨acc, false, none, []⟩ (enc row) =
            ⟨acc, false, some err, []⟩ := by simp [CopyInProgress.line, hend, hstore]
        rw [hline, foldl_line_stopped rfl]
        simp [CopyInProgress.outcome]
      | ok found =>
        have hline : CopyInProgress.line store ⟨acc, false, none, []⟩ (enc row) =
            ⟨acc ++ [found], false, none, []⟩ := by simp [CopyInProgress.line, hend, hstore]
        rw [hline]
        by_cases hfound : found = row
        · subst hfound
          have := ih (acc ++ [found])
          rw [append_assoc, singleton_append] at this
          rw [this]
          simp
        -- the row stored at this place stays there
        refine iff_of_false (fun h => ?_) (fun h => hfound (by simpa using h.1.2))
        obtain ⟨more, hmore⟩ :=
          @foldl_line_rows store ⟨acc ++ [found], false, none, []⟩ (rows.map enc)
        unfold CopyInProgress.outcome at h
        split at h
        · cases h
        · rw [← hmore] at h
          simp [hfound] at h

/-- **Reading the written data gives the rows back exactly if the pieces fit, every line decodes to
its row and none is the marker.** -/
theorem copyFrom_copyTo_iff (hcuts : Cuts lineEnd (rows.map enc)) {pieces : List Bytes}
    (hpieces : pieces.flatten = copyTo enc rows) :
    copyFrom capacity lineEnd store pieces = .ok rows ↔ Fits capacity (rows.map enc) 0 pieces ∧
      ∀ row ∈ rows, isEndMarker (enc row) = false ∧ store (enc row) = .ok row := by
  have hdata : [] ++ pieces.flatten = linesText (rows.map enc) := by
    rw [hpieces, copyTo, linesText, flatMap_map]
    rfl
  rcases @foldl_chunk capacity lineEnd store rows (rows.map enc) _ _ [] 0 hcuts hdata
    (fun _ _ _ => zero_le)
    (fun k => rfl) ⟨[], false, none, []⟩ with ⟨hfits, hfold⟩ | ⟨hfits, hne⟩
  · have houtcome := @outcome_foldl_iff store enc rows []
    unfold CopyInProgress.outcome at houtcome
    rw [copyFrom, hfold, CopyInProgress.finish, if_pos rfl, CopyInProgress.outcome,
      and_iff_right hfits,
      ← houtcome]
    rfl
  · exact iff_of_false hne fun h => hfits h.1

end Loop

end Pos3ql.Copy
