import Pos3ql.SqlError

/-!
# LIKE

Both LIKE matchers walk text and pattern side by side. At a percent sign they save their place; at
a mismatch they return to the last one saved and let it take one more unit.

* `likeArm`, `byteArm`: what one pattern unit does. Both test for wildcards before the escape.
* `likeLoop`: the loop, with a bound on its rounds.
* `LikeMatches`: the meaning of a pattern, in which the escape comes first.
* `likeLoop_spec`: with arms that follow a meaning, earlier percent signs need not be retried.
* **`like_correct_iff`**: for each text, pattern and escape, both matchers are right exactly when
  the escape is not a wildcard or the text does not tell it from one.

A position is the list of what comes after it. Source: `sql/eval/pattern.rs`.
-/

namespace Pos3ql.Pattern

open List

variable {α : Type}

/-! ## The matchers -/

/-- What the matchers do at the current units. -/
inductive Arm (α : Type)
  /-- A percent sign before the given pattern. -/
  | star (pattern : List α)
  /-- One text unit matched. -/
  | next (text pattern : List α)
  | matched
  | mismatch
  | badEscape

/-- Where a matcher stands: the text and pattern to come, and those saved at the last percent
sign. Source: `t`, `p`, `star` in `like_match`. -/
structure LikeState (α : Type) where
  text : List α
  pattern : List α
  star : Option (List α × List α)

/-- The `loop` of both matchers, for at most the given number of rounds.
Source: `like_match`, `like_match_bytes`. -/
def likeLoop (arm : List α → List α → Arm α) : ℕ → LikeState α → Option (Except SqlError Bool)
  | 0, _ => none
  | rounds + 1, s =>
    match arm s.text s.pattern with
    | .star pattern => likeLoop arm rounds ⟨s.text, pattern, some (pattern, s.text)⟩
    | .next text pattern => likeLoop arm rounds ⟨text, pattern, s.star⟩
    | .matched => some (.ok true)
    | .badEscape =>
        some (.error ⟨.invalidEscapeSequence, "LIKE pattern must not end with escape character"⟩)
    | .mismatch =>
      match s.star with
      | some (pattern, _ :: text) => likeLoop arm rounds ⟨text, pattern, some (pattern, text)⟩
      | _ => some (.ok false)

section Arms

variable (same : α → α → Bool)

/-- Any one text unit. -/
def anyArm (text after : List α) : Arm α :=
  match text with
  | _ :: text => .next text after
  | [] => .mismatch

/-- One text unit against one wanted unit. -/
def literalArm (text : List α) (want : α) (after : List α) : Arm α :=
  match text with
  | c :: text => if same c want then .next text after else .mismatch
  | [] => .mismatch

/-- The unit after the escape stands for itself. -/
def escapeArm (text : List α) : List α → Arm α
  | want :: after => literalArm same text want after
  | [] => .badEscape

/-- Pattern exhausted. -/
def endArm (text : List α) : Arm α := if text.isEmpty then .matched else .mismatch

end Arms

/-- Source: `eq` in `like_match`; `toLowercase` is `char::to_lowercase`. -/
def sameChar (toLowercase : Char → List Char) (caseInsensitive : Bool) (a b : Char) : Bool :=
  if caseInsensitive then toLowercase a == toLowercase b else a == b

/-- Source: the `match pc` of `like_match`, where the wildcards are `%` and `_`. -/
def likeArm [DecidableEq α] (percent underscore : α) (same : α → α → Bool) (escape : Option α)
    (text : List α) : List α → Arm α
  | [] => endArm text
  | pc :: pattern =>
    if pc = percent then .star pattern
    else if pc = underscore then anyArm text pattern
    else if some pc = escape then escapeArm same text pattern
    else literalArm same text pc pattern

/-- Source: the `match byte` of `like_match_bytes`. -/
def byteArm (escape : Option UInt8) (text : List UInt8) : List UInt8 → Arm UInt8
  | [] => endArm text
  | byte :: pattern =>
    if byte = 37 then .star pattern
    -- the guard is part of the arm: at the end of the text the arms below are tried
    else if byte = 95 ∧ text ≠ [] then .next text.tail pattern
    else if some byte = escape then escapeArm (· == ·) text pattern
    else literalArm (· == ·) text byte pattern

/-- Source: `like_match`. -/
def likeMatch (toLowercase : Char → List Char) (caseInsensitive : Bool) (escape : Option Char)
    (text pattern : List Char) (rounds : ℕ) : Option (Except SqlError Bool) :=
  likeLoop (likeArm '%' '_' (sameChar toLowercase caseInsensitive) escape) rounds
    ⟨text, pattern, none⟩

/-- Source: `like_match_bytes`. -/
def likeMatchBytes (escape : Option UInt8) (text pattern : List UInt8) (rounds : ℕ) :
    Option (Except SqlError Bool) :=
  likeLoop (byteArm escape) rounds ⟨text, pattern, none⟩

/-! ## Meaning of a pattern -/

/-- The texts of a pattern: the escape first, then the wildcards, then the unit itself. -/
def LikeMatches [DecidableEq α] (percent underscore : α) (same : α → α → Bool)
    (escape : Option α) : List α → List α → Prop
  | [], text => text = []
  | x :: pattern, text =>
    if some x = escape then
      match pattern with
      | [] => False
      | want :: after => ∃ c rest, text = c :: rest ∧ same c want = true ∧
          LikeMatches percent underscore same escape after rest
    else if x = percent then
      ∃ rest, rest <:+ text ∧ LikeMatches percent underscore same escape pattern rest
    else if x = underscore then
      ∃ c rest, text = c :: rest ∧ LikeMatches percent underscore same escape pattern rest
    else ∃ c rest, text = c :: rest ∧ same c x = true ∧
      LikeMatches percent underscore same escape pattern rest

/-- A matcher answers within a number of rounds that text and pattern length bound, and what it
answers without an error is the meaning of the pattern exactly under the condition. -/
def RightWhen (condition : Prop) (run : ℕ → Option (Except SqlError Bool))
    (meaning : List α → List α → Prop) (text pattern : List α) : Prop :=
  ∃ r, run ((text.length + 2) * (pattern.length + 1)) = some r ∧
    ∀ answer, r = .ok answer → ((answer = true ↔ meaning pattern text) ↔ condition)

/-- The escape is no wildcard, or the text does not tell it from one: it matches the pattern with
the escape exactly if it matches the pattern without any. -/
def EscapeHarmless [DecidableEq α] (percent underscore : α) (same : α → α → Bool)
    (escape : Option α) (text pattern : List α) :
    Prop :=
  escape ≠ some percent ∧ escape ≠ some underscore ∨
    (LikeMatches percent underscore same escape pattern text ↔
      LikeMatches percent underscore same none pattern text)

/-! ## The loop follows its arms -/

/-- What an arm says of a meaning `M`. -/
def Follows (M : List α → List α → Prop) (t p : List α) : Arm α → Prop
  | .star p' => p'.length < p.length ∧ ∀ u, M p u ↔ ∃ v, v <:+ u ∧ M p' v
  | .next t' p' => p'.length < p.length ∧ t' = t.tail ∧ (M p t ↔ M p' t') ∧ ∀ u, M p u → M p' u.tail
  | .matched => M p t
  | .mismatch => ¬ M p t
  | .badEscape => True

/-- A match in which the saved percent sign takes more than it has. -/
def Later (M : List α → List α → Prop) : Option (List α × List α) → Prop
  | some (p, _ :: t) => ∃ u, u <:+ t ∧ M p u
  | _ => False

/-- Between two rounds: the answer is a match from here or one with more for the last percent
sign, and the pattern since then takes the same number of units of every text. -/
structure LikeInv (M : List α → List α → Prop) (T P : List α) (s : LikeState α) : Prop where
  answer : M P T ↔ M s.pattern s.text ∨ Later M s.star
  text : s.text.length ≤ T.length
  pattern : s.pattern.length ≤ P.length
  saved : ∀ p t, s.star = some (p, t) → p.length ≤ P.length ∧ t.length ≤ T.length ∧
    ∃ n, s.text = t.drop n ∧ ∀ u, M p u → M s.pattern (u.drop n)

/-- What the rounds use up: text left for the last percent sign, then pattern. -/
def likeMeasure (T P : List α) (s : LikeState α) : ℕ :=
  (match s.star with
    | some (_, t) => t.length
    | none => T.length + 1) * (P.length + 1) + s.pattern.length

section Loop

variable {arm : List α → List α → Arm α} {M : List α → List α → Prop} {T P t p t' p' : List α}
  {s : LikeState α}

/-- Suffixes after a drop. -/
lemma drop_suffix_drop {u : List α} (h : u <:+ t) (n : ℕ) : u.drop n <:+ t.drop n := by
  rw [suffix_iff_eq_drop.mp h, drop_drop, add_comm, ← drop_drop]
  exact drop_suffix _ _

/-- The last percent sign has no more text than the one before, and no more than the whole text. -/
lemma LikeInv.starLength (h : LikeInv M T P s) :
    s.text.length * (P.length + 1) + s.pattern.length ≤ likeMeasure T P s := by
  refine Nat.add_le_add_right (Nat.mul_le_mul_right _ ?_) _
  match hs : s.star with
  | none => exact Nat.le_succ_of_le h.text
  | some (p, t) =>
    obtain ⟨-, -, n, htext, -⟩ := h.saved p t hs
    rw [htext, length_drop]
    exact Nat.sub_le _ _

/-- A new percent sign: what an earlier one could still take, this one can. -/
lemma LikeInv.star (h : LikeInv M T P s) (harms : ∀ t p, Follows M t p (arm t p))
    (harm : arm s.text s.pattern = .star p') :
    LikeInv M T P ⟨s.text, p', some (p', s.text)⟩ ∧
      likeMeasure T P ⟨s.text, p', some (p', s.text)⟩ < likeMeasure T P s := by
  obtain ⟨hlength, hstar⟩ := harm ▸ harms s.text s.pattern
  have hpattern := h.pattern
  have hlater : Later M s.star → M s.pattern s.text := by
    match hs : s.star with
    | none => exact False.elim
    | some (_, []) => exact False.elim
    | some (p, c :: t) =>
      rintro ⟨u, hu, hmatch⟩
      obtain ⟨-, -, n, htext, htakes⟩ := h.saved _ _ hs
      obtain ⟨v, hv, hmatch⟩ := (hstar _).mp (htakes u hmatch)
      rw [htext]
      exact (hstar _).mpr ⟨v, hv.trans (drop_suffix_drop (hu.trans (suffix_cons c t)) n), hmatch⟩
  refine ⟨⟨?_, h.text, by simp only; omega, ?_⟩, ?_⟩
  · rw [h.answer, or_iff_left_of_imp hlater, hstar]
    cases s.text with
    | nil => simp [Later]
    | cons c t => simp [Later, suffix_cons_iff]
  · intro p t heq
    cases heq
    exact ⟨by omega, h.text, 0, by simp⟩
  · have := h.starLength
    simp only [likeMeasure] at this ⊢
    omega

/-- A matched unit. -/
lemma LikeInv.next (h : LikeInv M T P s) (harms : ∀ t p, Follows M t p (arm t p))
    (harm : arm s.text s.pattern = .next t' p') :
    LikeInv M T P ⟨t', p', s.star⟩ ∧ likeMeasure T P ⟨t', p', s.star⟩ < likeMeasure T P s := by
  obtain ⟨hlength, rfl, hmatch, htakes⟩ := harm ▸ harms s.text s.pattern
  have hpattern := h.pattern
  have htext := h.text
  refine ⟨⟨by rw [h.answer, hmatch], by simp only [length_tail]; omega, by simp only; omega, ?_⟩,
    ?_⟩
  · intro p t hs
    obtain ⟨hp, ht, n, htext, htake⟩ := h.saved p t hs
    refine ⟨hp, ht, n + 1, by simp only [htext, tail_drop], fun u hu => ?_⟩
    rw [← tail_drop]
    exact htakes _ (htake u hu)
  · simp only [likeMeasure]
    omega

/-- A mismatch after a percent sign that can take more. -/
lemma LikeInv.back {c : α} (h : LikeInv M T P s) (hno : ¬ M s.pattern s.text)
    (hs : s.star = some (p, c :: t)) :
    LikeInv M T P ⟨t, p, some (p, t)⟩ ∧
      likeMeasure T P ⟨t, p, some (p, t)⟩ < likeMeasure T P s := by
  obtain ⟨hp, ht, -⟩ := h.saved _ _ hs
  rw [length_cons] at ht
  refine ⟨⟨?_, by simp only; omega, hp, ?_⟩, ?_⟩
  · rw [h.answer, or_iff_right hno, hs]
    cases t with
    | nil => simp [Later]
    | cons d t => simp [Later, suffix_cons_iff]
  · intro q u heq
    cases heq
    exact ⟨hp, by omega, 0, by simp⟩
  · simp only [likeMeasure, hs, length_cons, Nat.succ_mul]
    omega

/-- **The loop finds what its arms mean**, in as many rounds as its measure says. -/
theorem likeLoop_spec (harms : ∀ t p, Follows M t p (arm t p)) {rounds : ℕ} (h : LikeInv M T P s)
    (hrounds : likeMeasure T P s < rounds) :
    ∃ r, likeLoop arm rounds s = some r ∧
      ∀ answer, r = .ok answer → (answer ↔ M P T) := by
  induction rounds generalizing s with
  | zero => omega
  | succ rounds ih =>
    rw [likeLoop]
    split
    · next harm =>
      obtain ⟨hinv, hless⟩ := h.star harms harm
      exact ih hinv (by omega)
    · next harm =>
      obtain ⟨hinv, hless⟩ := h.next harms harm
      exact ih hinv (by omega)
    · next harm =>
      have hmatch : M s.pattern s.text := by
        simpa only [harm, Follows] using harms s.text s.pattern
      exact ⟨_, rfl, by simp [h.answer, hmatch]⟩
    · exact ⟨_, rfl, by simp⟩
    next harm =>
    have hno : ¬ M s.pattern s.text := by
      simpa only [harm, Follows] using harms s.text s.pattern
    split
    · next hs =>
      obtain ⟨hinv, hless⟩ := h.back hno hs
      exact ih hinv (by omega)
    next hstop =>
    have hlater : ¬ Later M s.star := by
      match hs : s.star with
      | none => exact id
      | some (_, []) => exact id
      | some (p, c :: t) => exact absurd hs (hstop p c t)
    exact ⟨_, rfl, by simp [h.answer, hno, hlater]⟩

/-- Matching from the start. -/
lemma likeLoop_start (harms : ∀ t p, Follows M t p (arm t p)) (text pattern : List α) :
    ∃ r, likeLoop arm ((text.length + 2) * (pattern.length + 1)) ⟨text, pattern, none⟩ = some r ∧
      ∀ answer, r = .ok answer → (answer ↔ M pattern text) := by
  refine likeLoop_spec harms ⟨by simp [Later], le_rfl, le_rfl, by simp⟩ ?_
  simp only [likeMeasure, Nat.succ_mul]
  omega

end Loop

/-! ## The arms follow the meaning -/

section Arms

variable {percent underscore : α} {same : α → α → Bool} {escape : Option α}

/-- A literal consumes one character. -/
lemma literalArm_follows {M : List α → List α → Prop} {t p after : List α} {want : α}
    (hlength : after.length < p.length)
    (hM : ∀ u, M p u ↔ ∃ c rest, u = c :: rest ∧ same c want ∧ M after rest) :
    Follows M t p (literalArm same t want after) := by
  cases t with
  | nil => simp [literalArm, Follows, hM]
  | cons c t =>
    by_cases hc : same c want = true
    · rw [literalArm, if_pos hc]
      refine ⟨hlength, rfl, by simp [hM, hc], fun u hu => ?_⟩
      obtain ⟨d, rest, rfl, -, hrest⟩ := (hM u).mp hu
      exact hrest
    · rw [literalArm]
      simp [Follows, hM, hc]

/-- **Testing for wildcards first is right when the escape is not a wildcard.** -/
theorem likeArm_follows [DecidableEq α] (hpercent : escape ≠ some percent)
    (hunderscore : escape ≠ some underscore) (t p : List α) :
    Follows (LikeMatches percent underscore same escape) t p
      (likeArm percent underscore same escape t p) := by
  match p with
  | [] => cases t <;> simp [likeArm, endArm, Follows, LikeMatches]
  | x :: p =>
    rw [likeArm]
    split_ifs with hstar hany hescape
    · subst hstar
      refine ⟨lt_add_one _, fun u => ?_⟩
      rw [LikeMatches.eq_def]
      simp only [if_neg hpercent.symm, if_true]
    · subst hany
      have hM : ∀ u, LikeMatches percent x same escape (x :: p) u ↔
          ∃ c rest, u = c :: rest ∧ LikeMatches percent x same escape p rest := by
        intro u
        rw [LikeMatches.eq_def]
        simp only [if_neg hunderscore.symm, if_neg hstar, if_true]
      cases t with
      | nil => simp [anyArm, Follows, hM]
      | cons c t =>
        refine ⟨lt_add_one _, rfl, by simp [hM], fun u hu => ?_⟩
        obtain ⟨d, rest, rfl, hrest⟩ := (hM u).mp hu
        exact hrest
    · cases p with
      | nil => trivial
      | cons want after =>
        refine literalArm_follows (by simp only [length_cons]; omega) fun u => ?_
        rw [LikeMatches, if_pos hescape]
    · refine literalArm_follows (lt_add_one _) fun u => ?_
      rw [LikeMatches.eq_def]
      simp only [if_neg hescape, if_neg hstar, if_neg hany]

end Arms

/-- The guarded arm of the byte matcher differs only for an underscore as escape. -/
lemma byteArm_eq {escape : Option UInt8} (h : escape ≠ some 95) (t p : List UInt8) :
    byteArm escape t p = likeArm 37 95 (· == ·) escape t p := by
  match t, p with
  | _, [] => rfl
  | [], x :: p =>
    by_cases hx : x = 95
    · simp [byteArm, likeArm, hx, anyArm, literalArm, h.symm]
    · simp [byteArm, likeArm, hx]
  | c :: t, x :: p => simp [byteArm, likeArm, anyArm]

section Harmless

variable [DecidableEq α] {percent underscore : α} {same : α → α → Bool} {escape : Option α}
  {text pattern : List α}

/-- An escape that the pattern does not contain is harmless. Induction on the pattern. -/
lemma escapeHarmless_of_notMem (h : ∀ e ∈ escape, e ∉ pattern) :
    EscapeHarmless percent underscore same escape text pattern := by
  refine .inr ?_
  induction pattern generalizing text with
  | nil => rfl
  | cons x pattern ih =>
    have hx : some x ≠ escape := fun heq => h x heq.symm mem_cons_self
    have hrest := fun text => @ih text fun e he hmem => h e he (mem_cons_of_mem x hmem)
    rw [LikeMatches.eq_def, LikeMatches.eq_def percent underscore same none]
    simp only [if_neg hx, reduceCtorEq, if_false, hrest]

/-- A loop whose arms follow the meaning without escape, or the meaning with one that is no
wildcard. -/
lemma rightWhen_of_follows {arm : List α → List α → Arm α}
    (hplain : escape ≠ some percent → escape ≠ some underscore →
      ∀ t p, Follows (LikeMatches percent underscore same escape) t p (arm t p))
    (hwild : escape = some percent ∨ escape = some underscore →
      ∀ t p, Follows (LikeMatches percent underscore same none) t p (arm t p)) :
    RightWhen (EscapeHarmless percent underscore same escape text pattern)
      (fun rounds => likeLoop arm rounds ⟨text, pattern, none⟩)
      (LikeMatches percent underscore same escape) text pattern := by
  by_cases hescape : escape ≠ some percent ∧ escape ≠ some underscore
  · obtain ⟨r, hr, hanswer⟩ := likeLoop_start (hplain hescape.1 hescape.2) text pattern
    exact ⟨r, hr, fun answer h => iff_of_true (hanswer answer h) (.inl hescape)⟩
  · have hwildcard : escape = some percent ∨ escape = some underscore := by
      rwa [not_and_or, not_not, not_not] at hescape
    obtain ⟨r, hr, hanswer⟩ := likeLoop_start (hwild hwildcard) text pattern
    refine ⟨r, hr, fun answer h => ?_⟩
    rw [hanswer answer h, EscapeHarmless, or_iff_right hescape]
    exact iff_comm

/-- A wildcard as escape is never taken for one. -/
lemma likeArm_wildcard (h : escape = some percent ∨ escape = some underscore) (t p : List α) :
    likeArm percent underscore same escape t p = likeArm percent underscore same none t p := by
  cases p with
  | nil => rfl
  | cons x p =>
    rcases h with rfl | rfl <;> simp only [likeArm, Option.some.injEq, reduceCtorEq, if_false]
    · split_ifs <;> rfl
    · split_ifs <;> rfl

end Harmless

/-- The byte matcher with a wildcard as escape: only an underscore at the end of the text is taken
for the escape, and it gives an error. -/
lemma byteArm_wildcard {escape : Option UInt8} (h : escape = some 37 ∨ escape = some 95)
    (t p : List UInt8) : Follows (LikeMatches 37 95 (· == ·) none) t p (byteArm escape t p) := by
  have hfollows := @likeArm_follows UInt8 37 95 (· == ·) none _ nofun nofun t p
  by_cases hescape : escape = some 95
  · subst hescape
    match t, p with
    | _, [] => exact hfollows
    | [], [x] =>
      by_cases hx : x = 95
      · subst hx
        trivial
      · simpa [byteArm, likeArm, hx] using hfollows
    | [], x :: y :: p =>
      by_cases hx : x = 95
      · subst hx
        exact hfollows
      · simpa [byteArm, likeArm, hx] using hfollows
    | c :: t, x :: p =>
      have hsame : byteArm (some 95) (c :: t) (x :: p) =
          likeArm 37 95 (· == ·) none (c :: t) (x :: p) := by
        rw [← likeArm_wildcard (.inr rfl)]
        simp [byteArm, likeArm, anyArm]
      rwa [hsame]
  · rw [byteArm_eq hescape, likeArm_wildcard h]
    exact hfollows

/-- **Both matchers answer by the meaning of the pattern exactly when the escape is harmless**, for
every text, pattern and escape, and within a number of rounds that the two lengths bound. -/
theorem like_correct_iff (toLowercase : Char → List Char) (caseInsensitive : Bool)
    (escape : Option Char) (text pattern : List Char) (byteEscape : Option UInt8)
    (bytes bytePattern : List UInt8) :
    RightWhen (EscapeHarmless '%' '_' (sameChar toLowercase caseInsensitive) escape text pattern)
        (likeMatch toLowercase caseInsensitive escape text pattern)
        (LikeMatches '%' '_' (sameChar toLowercase caseInsensitive) escape) text pattern ∧
      ((∀ e ∈ escape, e ∉ pattern) →
        EscapeHarmless '%' '_' (sameChar toLowercase caseInsensitive) escape text pattern) ∧
      RightWhen (EscapeHarmless 37 95 (· == ·) byteEscape bytes bytePattern)
        (likeMatchBytes byteEscape bytes bytePattern) (LikeMatches 37 95 (· == ·) byteEscape) bytes
        bytePattern ∧
      ((∀ e ∈ byteEscape, e ∉ bytePattern) →
        EscapeHarmless 37 95 (· == ·) byteEscape bytes bytePattern) := by
  refine ⟨rightWhen_of_follows likeArm_follows fun h t p => ?_, escapeHarmless_of_notMem,
    rightWhen_of_follows (fun hpercent hunderscore t p => ?_) byteArm_wildcard,
      escapeHarmless_of_notMem⟩
  · rw [likeArm_wildcard h]
    exact @likeArm_follows Char '%' '_' _ none _ nofun nofun t p
  · rw [byteArm_eq hunderscore]
    exact likeArm_follows hpercent hunderscore t p

/-- With the percent sign as escape, `%a` stands for `a`, and the matcher finds it in `aa`. -/
theorem like_percent_escape :
    likeMatch (fun c => [c.toLower]) false (some '%') ['a', 'a'] ['%', 'a'] 12 = some (.ok true) ∧
      ¬ LikeMatches '%' '_' (sameChar (fun c => [c.toLower]) false) (some '%') ['%', 'a']
        ['a', 'a'] := by
  refine ⟨rfl, ?_⟩
  simp [LikeMatches]

end Pos3ql.Pattern
