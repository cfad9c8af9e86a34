import Pos3ql.Foundation.Bytes

/-!
# Strings of records

Records are written one after the other, with nothing between them and no count, and read in a loop
that ends with the input. A reader looks at the front of its input only (`Local`), so it cannot
accept a record that is cut off; but an input cut between two records looks like a shorter one.

* `Reader`, `Local` with `local_bind`, `local_need`, `local_lift`; **`Local.cut`**.
* `readAll`: the loop; `stepAll`: the records themselves.
* **`readAll_flatMap`**: the loop sees the records. **`readAll_take_ok_iff`**: a cut is accepted
  exactly between two records.
-/

namespace Pos3ql.Foundation

open List

/-- A reader of the front of a byte string that says why it fails. -/
abbrev Reader (ε : Type) := StateT Bytes (Except ε)

namespace Reader

variable {ε α β : Type}

/-- The next `n` bytes, or an error. -/
def need (n : ℕ) (e : ε) : Reader ε Bytes := fun input =>
  if n ≤ input.length then .ok (input.take n, input.drop n) else .error e

/-- A value, or an error. -/
def lift (result : Except ε α) : Reader ε α := fun input => result.map fun a => (a, input)

/-- The reader looks at the front of its input only. -/
def Local (p : Reader ε α) : Prop :=
  ∀ input more a rest, p.run input = .ok (a, rest) → p.run (input ++ more) = .ok (a, rest ++ more)

/-- A value reads nothing. -/
lemma local_pure (a : α) : Local (pure a : Reader ε α) := by
  intro input more b rest h
  cases h
  rfl

/-- Local readers in sequence. -/
lemma local_bind {p : Reader ε α} {f : α → Reader ε β} (hp : Local p) (hf : ∀ a, Local (f a)) :
    Local (p >>= f) := by
  intro input more b rest h
  rw [StateT.run_bind] at h ⊢
  rcases hfirst : p.run input with e | ⟨a, next⟩
  · rw [hfirst] at h
    cases h
  · rw [hfirst] at h
    rw [hp _ more _ _ hfirst]
    exact hf a _ more _ _ h

/-- Taking bytes is local. -/
lemma local_need (n : ℕ) (e : ε) : Local (need n e) := by
  intro input more a rest h
  simp only [StateT.run, need] at h ⊢
  split at h
  · rename_i hle
    cases h
    rw [if_pos (by rw [length_append]; omega), take_append_of_le_length hle,
      drop_append_of_le_length hle]
  · cases h

/-- A result reads nothing. -/
lemma local_lift (result : Except ε α) : Local (lift result) := by
  intro input more a rest h
  rcases result with e | b
  · cases h
  · cases h
    rfl

variable {a : α}

/-- One reader after another. -/
lemma run_bind_ok {p : Reader ε α} {f : α → Reader ε β} {input next : Bytes}
    (h : p.run input = .ok (a, next)) : (p >>= f).run input = (f a).run next := by
  rw [StateT.run_bind, h]
  rfl

/-- Needed bytes that are there. -/
lemma need_append {raw rest : Bytes} {n : ℕ} {e : ε} (h : raw.length = n) :
    (need n e).run (raw ++ rest) = .ok (raw, rest) := by
  subst h
  simp only [StateT.run, need]
  rw [if_pos (by rw [length_append]; omega), take_left, drop_left]

/-- A result that is there. -/
lemma lift_run {result : Except ε α} (h : result = .ok a) (rest : Bytes) :
    (lift result).run rest = .ok (a, rest) := by
  subst h
  rfl

/-- **A record that is cut off is not accepted.** -/
theorem Local.cut {p : Reader ε α} (hp : Local p) {raw : Bytes} {n : ℕ}
    (hread : p.run raw = .ok (a, [])) (hcut : n < raw.length) :
    ∃ e, p.run (raw.take n) = .error e := by
  rcases hrun : p.run (raw.take n) with e | ⟨b, rest⟩
  · exact ⟨e, rfl⟩
  -- what is missing would be left over
  have hwhole := hp _ (raw.drop n) _ _ hrun
  rw [take_append_drop, hread] at hwhole
  have hnil := (append_eq_nil_iff.mp (Prod.mk.inj (Except.ok.inj hwhole)).2.symm).2
  have hlength := congrArg List.length hnil
  rw [length_drop, length_nil] at hlength
  omega

end Reader

/-! ## The loop -/

section Loop

variable {ε ρ σ : Type}

/-- Read records and act on each, until the input ends or something fails; the count bounds the
rounds. -/
def readAll (p : Reader ε ρ) (step : σ → ρ → σ × Except ε Unit) : ℕ → σ → Bytes → σ × Except ε Unit
  | 0, s, _ => (s, .ok ())
  | _ + 1, s, [] => (s, .ok ())
  | rounds + 1, s, byte :: input =>
    match p.run (byte :: input) with
    | .error e => (s, .error e)
    | .ok (record, rest) =>
      match step s record with
      | (s, .error e) => (s, .error e)
      | (s, .ok ()) => readAll p step rounds s rest

/-- Act on records, until something fails. -/
def stepAll (step : σ → ρ → σ × Except ε Unit) : σ → List ρ → σ × Except ε Unit
  | s, [] => (s, .ok ())
  | s, record :: records =>
    match step s record with
    | (s, .error e) => (s, .error e)
    | (s, .ok ()) => stepAll step s records

variable {p : Reader ε ρ} {step : σ → ρ → σ × Except ε Unit} {write : ρ → Bytes}

variable {s : σ} {records : List ρ} {rounds : ℕ}

/-- A step that succeeds. -/
lemma stepAll_cons_ok {s' : σ} {record : ρ} (h : step s record = (s', .ok ())) :
    stepAll step s (record :: records) = stepAll step s' records := by
  rw [stepAll, h]

/-- There are at least as many bytes as records. -/
lemma length_le_flatMap {β : Type} {f : ρ → List β}
    (hne : ∀ r ∈ records, f r ≠ []) : records.length ≤ (records.flatMap f).length := by
  induction records with
  | nil => exact le_rfl
  | cons record records ih =>
    have hpos := length_pos_of_ne_nil (hne record mem_cons_self)
    have hrest := ih (forall_mem_cons.mp hne).2
    rw [flatMap_cons, length_append, length_cons]
    omega

/-- At the end of the input. -/
lemma readAll_nil (rounds : ℕ) (s : σ) : readAll p step rounds s [] = (s, .ok ()) := by
  cases rounds <;> rfl

/-- One record is read. -/
lemma readAll_cons {record : ρ} {raw rest : Bytes} (hne : raw ≠ [])
    (hread : p.run (raw ++ rest) = .ok (record, rest)) :
    readAll p step (rounds + 1) s (raw ++ rest) =
      match step s record with
      | (s, .error e) => (s, .error e)
      | (s, .ok ()) => readAll p step rounds s rest := by
  obtain ⟨byte, raw, rfl⟩ := exists_cons_of_ne_nil hne
  rw [cons_append] at hread ⊢
  rw [readAll, hread]

/-- **The loop sees the records.** -/
theorem readAll_flatMap (hread : ∀ r ∈ records, ∀ rest, p.run (write r ++ rest) = .ok (r, rest))
    (hne : ∀ r ∈ records, write r ≠ []) (hrounds : (records.flatMap write).length ≤ rounds) :
    readAll p step rounds s (records.flatMap write) = stepAll step s records := by
  induction records generalizing rounds s with
  | nil => exact readAll_nil rounds s
  | cons record records ih =>
    have hwritten := hne record mem_cons_self
    have hpos := length_pos_of_ne_nil hwritten
    rw [flatMap_cons, length_append] at hrounds
    rcases rounds with _ | rounds
    · omega
    rw [flatMap_cons, readAll_cons hwritten (hread record mem_cons_self _), stepAll]
    rcases step s record with ⟨s', e | ⟨⟩⟩
    · rfl
    · exact ih (forall_mem_cons.mp hread).2 (forall_mem_cons.mp hne).2 (by omega)

/-- **A cut is accepted exactly between two records**, when the records themselves are. Induction on
the records. -/
theorem readAll_take_ok_iff (hlocal : p.Local)
    (hread : ∀ r ∈ records, ∀ rest, p.run (write r ++ rest) = .ok (r, rest))
    (hne : ∀ r ∈ records, write r ≠ []) {n : ℕ} (hall : (stepAll step s records).2 = .ok ())
    (hn : n ≤ (records.flatMap write).length) (hrounds : n ≤ rounds) :
    (readAll p step rounds s ((records.flatMap write).take n)).2 = .ok () ↔
      ∃ i, n = ((records.take i).flatMap write).length := by
  induction records generalizing rounds n s with
  | nil =>
    obtain rfl : n = 0 := by simpa using hn
    rw [take_zero, readAll_nil]
    exact ⟨fun _ => ⟨0, rfl⟩, fun _ => rfl⟩
  | cons record records ih =>
    rcases Nat.eq_zero_or_pos n with rfl | hpos
    · rw [take_zero, readAll_nil]
      exact ⟨fun _ => ⟨0, rfl⟩, fun _ => rfl⟩
    have hwritten := hne record mem_cons_self
    have hone := hread record mem_cons_self
    rcases rounds with _ | rounds
    · omega
    rw [flatMap_cons]
    rw [flatMap_cons, length_append] at hn
    have hend : (∃ i, n = (((record :: records).take i).flatMap write).length) ↔
        ∃ i, n = (write record).length + ((records.take i).flatMap write).length := by
      constructor
      · rintro ⟨_ | i, hi⟩
        · rw [take_zero, flatMap_nil, length_nil] at hi
          omega
        · rw [take_succ_cons, flatMap_cons, length_append] at hi
          exact ⟨i, hi⟩
      · rintro ⟨i, hi⟩
        exact ⟨i + 1, by rw [take_succ_cons, flatMap_cons, length_append, hi]⟩
    rw [hend]
    by_cases hcut : n < (write record).length
    · -- inside the first record
      have hwhole : p.run (write record) = .ok (record, []) := by
        have hthis := hone []
        rwa [append_nil] at hthis
      obtain ⟨e, herror⟩ := hlocal.cut hwhole hcut
      rw [take_append_of_le_length (le_of_lt hcut)]
      obtain ⟨byte, front, hfront⟩ : ∃ byte front, (write record).take n = byte :: front := by
        refine exists_cons_of_ne_nil fun hnil => ?_
        have hlength := congrArg List.length hnil
        rw [length_take, length_nil] at hlength
        omega
      rw [hfront] at herror ⊢
      rw [readAll, herror]
      refine iff_of_false (fun h => by cases h) ?_
      rintro ⟨i, hi⟩
      omega
    -- behind it
    have hlength := length_pos_of_ne_nil hwritten
    rw [take_append, take_of_length_le (Nat.le_of_not_lt hcut), readAll_cons hwritten (hone _)]
    rw [stepAll] at hall
    rcases hstep : step s record with ⟨s', e | ⟨⟩⟩
    · rw [hstep] at hall
      cases hall
    rw [hstep] at hall
    simp only
    rw [ih (forall_mem_cons.mp hread).2 (forall_mem_cons.mp hne).2 hall (by omega) (by omega)]
    exact exists_congr fun i => by omega

end Loop

end Pos3ql.Foundation
