import Pos3ql.Store.ValueIndexContents

/-!
# Readers of a value-index generation miss nothing

* `takeRecord_append`, **`walkData_dataBytes`**: a data block is read back.
* `takeRosterRef_append`, `rosterLayout_rosterWord`, `rosterPredecessor_payload`: a roster is read
  back.
* **`walkRosters_chain`**: the walk visits the wanted blocks of a chain.
* **`Generation.filter_found`**: leaving out blocks in which nothing is sought loses nothing.
* `Generation.walk_eq`, `Generation.probe_eq`, `Generation.range_eq`.

Source: `store/value.rs` (`walk_inner`, `range_covering_with_bounds`, `walk_data`).
-/

namespace Pos3ql

open Foundation List Reader Option ValueIndexEntry

/-! ## Data blocks -/

/-- A record that can be read back. -/
structure ValueIndexRecord.Fits (covering : Bool) (r : ValueIndexRecord) : Prop where
  key : r.key.length < 2 ^ 32
  payload : r.payload.length < 2 ^ 32
  bare : covering = false → r.payload = []

lemma ofNat_leNat_leBytes (n : UInt64) : UInt64.ofNat (leNat (leBytes 8 n.toNat)) = n := by
  rw [leNat_leBytes (by have := n.toNat_lt; omega), UInt64.ofNat_toNat]

/-- A record is read back. -/
lemma takeRecord_append {cov : Bool} {r : ValueIndexRecord} (h : r.Fits cov) (rest : Bytes) :
    (takeRecord cov).run (r.bytes cov ++ rest) = .ok (r, rest) := by
  have hkey : leNat (leBytes 4 r.key.length) = r.key.length :=
    leNat_leBytes (by have := h.key; omega)
  have hlen : (if cov then leBytes 4 r.payload.length else []).length =
      if cov then 4 else 0 := by
    cases cov
    · rfl
    · exact length_leBytes 4 _
  have hpay : leNat (if cov then leBytes 4 r.payload.length else []) = r.payload.length := by
    cases hcovr : cov
    · rw [h.bare hcovr]
      rfl
    · exact leNat_leBytes (by have := h.payload; omega)
  unfold takeRecord ValueIndexRecord.bytes
  simp only [append_assoc]
  rw [run_bind_ok (need_append (length_leBytes 8 _)),
    run_bind_ok (need_append (length_leBytes 8 _)), run_bind_ok (need_append (length_leBytes 8 _)),
    run_bind_ok (need_append (length_leBytes 4 _)), run_bind_ok (need_append hlen),
    run_bind_ok (need_append hkey.symm), run_bind_ok (need_append hpay.symm), ofNat_leNat_leBytes,
    ofNat_leNat_leBytes, ofNat_leNat_leBytes]
  rfl

/-- Collecting records. -/
lemma stepAll_collect {ε : Type} (found rs : List ValueIndexRecord) :
    stepAll (fun found r => (found ++ [r], (.ok () : Except ε Unit))) found rs =
      (found ++ rs, .ok ()) := by
  induction rs generalizing found with
  | nil => rw [append_nil]; rfl
  | cons r rs ih =>
    rw [stepAll]
    simp only
    rw [ih, append_assoc, singleton_append]

section Blocks

variable {s : BlockStore} {le : Bytes → Bytes → Prop} {covering : Bool} {filter : Bytes}
  {es : List ValueIndexEntry}

/-- The records of a chunk can be read. -/
lemma Chunk.fits (h : Chunk le covering filter es) : ∀ r ∈ es.map record, r.Fits covering := by
  intro r hr
  obtain ⟨e, he, rfl⟩ := mem_map.mp hr
  obtain ⟨-, hkey, hpay⟩ := h.keys e he
  refine ⟨hkey, hpay, fun hcovr => ?_⟩
  have hnone := h.payloads e he
  rw [hcovr, isSome_eq_false_iff, isNone_iff_eq_none] at hnone
  show e.payload.getD [] = []
  rw [hnone]
  rfl

/-- **A data block is read back.** -/
theorem walkData_dataBytes (h : Chunk le covering filter es) :
    walkData covering (dataBytes covering es) = .ok (es.map record) := by
  unfold walkData dataBytes
  rw [readAll_flatMap (fun r hr => takeRecord_append (h.fits r hr)) (fun r _ => length_bytes_pos r)
    le_rfl, stepAll_collect]
  rfl

variable {r : DataRef} {previous : Option BlockId} {refs : List DataRef}

/-- A data block is read back. -/
lemma readData_sound (h : r.Sound s le covering) :
    readData s covering r.id = .ok (r.entries.map record) := by
  unfold readData
  simp only [h.stored]
  rw [if_pos trivial, walkData_dataBytes h.chunk]

/-! ## Rosters -/

lemma BlockId.length_bytes (id : BlockId) : id.bytes.length = 32 := length_leBytes 32 _

/-- An identity is read back. -/
lemma BlockId.ofBytes_bytes (id : BlockId) : BlockId.ofBytes id.bytes = id := by
  have hvalue : leNat id.bytes % 256 ^ 32 = id.value := by
    unfold BlockId.bytes
    rw [leNat_leBytes id.bound, Nat.mod_eq_of_lt id.bound]
  rcases id with ⟨value, bound⟩
  simp only [BlockId.ofBytes, hvalue]

/-- The reference as it is read. -/
def DataRef.ref (r : DataRef) : RosterRef := ⟨r.id, some r.filter, r.bounds⟩

/-- Bounds are keys of the block. -/
lemma DataRef.Sound.bounds_mem (h : r.Sound s le covering) {first last : Bytes}
    (hbounds : r.bounds = some (first, last)) :
    (∃ e ∈ r.entries, e.key = first) ∧ ∃ e ∈ r.entries, e.key = last := by
  obtain ⟨hfirst, hlast⟩ := h.bounds first last hbounds
  constructor
  · obtain ⟨e, he, rfl⟩ := map_eq_some_iff.mp hfirst
    exact ⟨e, mem_of_head? he, rfl⟩
  · obtain ⟨e, he, rfl⟩ := map_eq_some_iff.mp hlast
    exact ⟨e, mem_of_getLast? he, rfl⟩

/-- Bounds are read back. -/
lemma takeBounds_append {bounds : Option (Bytes × Bytes)}
    (hbounds : ∀ first last, bounds = some (first, last) →
      (first ≠ [] ∧ first.length < 2 ^ 32) ∧ last ≠ [] ∧ last.length < 2 ^ 32) (rest : Bytes) :
    takeBounds.run (ValueIndexWriter.boundsBytes bounds ++ rest) = .ok (bounds, rest) := by
  unfold takeBounds ValueIndexWriter.boundsBytes
  rcases bounds with _ | ⟨first, last⟩
  · have hzero : leNat (leBytes 4 0) = 0 := rfl
    simp only [append_assoc]
    rw [run_bind_ok (need_append (length_leBytes 4 _)),
      run_bind_ok (need_append (length_leBytes 4 _)), hzero,
      run_bind_ok (lift_run (if_pos (rfl : ((0 : ℕ) = 0) = ((0 : ℕ) = 0))) _), ← nil_append rest,
      ← nil_append rest]
    rfl
  obtain ⟨⟨hfirst, hf⟩, hlast, hl⟩ := hbounds first last rfl
  have hf' : leNat (leBytes 4 first.length) = first.length := leNat_leBytes (by omega)
  have hl' : leNat (leBytes 4 last.length) = last.length := leNat_leBytes (by omega)
  have hfpos := length_pos_of_ne_nil hfirst
  have hlpos := length_pos_of_ne_nil hlast
  have hsame : (first.length = 0) = (last.length = 0) := by
    rw [eq_iff_iff]
    omega
  simp only [append_assoc]
  rw [run_bind_ok (need_append (length_leBytes 4 _)),
    run_bind_ok (need_append (length_leBytes 4 _)), hf', hl',
    run_bind_ok (lift_run (if_pos hsame) _), run_bind_ok (need_append rfl),
    run_bind_ok (need_append rfl), if_neg (by omega)]
  rfl

/-- A reference is read back. -/
lemma takeRosterRef_append (h : r.Sound s le covering) (rest : Bytes) :
    (takeRosterRef .ordered).run (r.bytes ++ rest) = .ok (r.ref, rest) := by
  have hbounds : ∀ first last, r.bounds = some (first, last) →
      (first ≠ [] ∧ first.length < 2 ^ 32) ∧ last ≠ [] ∧ last.length < 2 ^ 32 := by
    intro first last hsome
    obtain ⟨⟨e, he, rfl⟩, e', he', rfl⟩ := h.bounds_mem hsome
    obtain ⟨hne, hlen, -⟩ := h.chunk.keys e he
    obtain ⟨hne', hlen', -⟩ := h.chunk.keys e' he'
    exact ⟨⟨hne, hlen⟩, hne', hlen'⟩
  unfold takeRosterRef DataRef.bytes ValueIndexWriter.refBytes
  simp only [append_assoc]
  rw [run_bind_ok (need_append (BlockId.length_bytes _)),
    run_bind_ok (need_append h.chunk.filterLength),
    run_bind_ok (takeBounds_append hbounds rest), BlockId.ofBytes_bytes]
  rfl

/-- The layout is read back. -/
lemma rosterLayout_rosterWord {count : ℕ} (h : count < 2 ^ 28) (cov : Bool) (length : ℕ) :
    rosterLayout (rosterWord count cov) length = .ok (count, .ordered, cov) := by
  have hbit : ∀ i, 28 ≤ i → count.testBit i = false := fun i hi =>
    Nat.testBit_lt_two_pow (h.trans_le (Nat.pow_le_pow_right (by omega) hi))
  have hmod : rosterWord count cov % 2 ^ 28 = count := by
    unfold rosterWord
    rw [Nat.or_mod_two_pow, Nat.mod_eq_of_lt h]
    cases cov <;> exact Nat.or_zero _
  have hflags : ∀ i, 28 ≤ i → (rosterWord count cov).testBit i =
      (2 ^ 31 ||| 2 ^ 30 ||| 2 ^ 29 ||| (if cov then 2 ^ 28 else 0)).testBit i := by
    intro i hi
    unfold rosterWord
    rw [Nat.testBit_or, hbit i hi, Bool.false_or]
  unfold rosterLayout
  rw [hflags 31 (by omega), hflags 30 (by omega), hflags 29 (by omega), hflags 28 (by omega), hmod]
  cases cov <;> rfl

lemma leNat_eq_zero {raw : Bytes} (h : raw.any (· != 0) = false) : leNat raw = 0 := by
  induction raw with
  | nil => rfl
  | cons byte raw ih =>
    rw [any_cons, Bool.or_eq_false_iff, bne_eq_false_iff_eq] at h
    rw [leNat, ih h.2, h.1]
    rfl

/-- The predecessor is read back. -/
lemma rosterPredecessor_payload (h : ∀ id ∈ previous, id.value ≠ 0) (refs : List DataRef) :
    rosterPredecessor (rosterPayload covering previous refs) = previous := by
  have hfield : ∀ raw : Bytes, raw.length = 32 → ∀ word rest : Bytes, word.length = 4 →
      ((word ++ raw ++ rest).drop 4).take 32 = raw := by
    intro raw hraw word rest hword
    rw [append_assoc, drop_left' hword, take_left' hraw]
  unfold rosterPredecessor rosterPayload rosterHeaderBytes
  rcases previous with _ | id
  · simp only
    rw [hfield _ (length_zeros 32) _ _ (length_leBytes 4 _)]
    rfl
  simp only
  rw [hfield _ id.length_bytes _ _ (length_leBytes 4 _), BlockId.ofBytes_bytes]
  refine if_pos ?_
  by_contra hzero
  have hvalue := leNat_eq_zero (Bool.eq_false_iff.mpr hzero)
  unfold BlockId.bytes at hvalue
  rw [leNat_leBytes id.bound] at hvalue
  exact h id rfl hvalue

/-- A root has a name. -/
lemma Chain.named {root : Option BlockId} {ros : List (List DataRef)}
    (h : Chain s le covering root ros) : ∀ id ∈ root, id.value ≠ 0 := by
  intro id hid
  cases h with
  | nil => cases hid
  | cons _ named _ _ _ =>
    cases hid
    exact named

/-! ## The walk -/

/-- Every wanted block is visited. -/
lemma visitRefs_flatMap {wanted : RosterRef → Bool} (h : ∀ r ∈ refs, r.Sound s le covering) :
    visitRefs s .ordered covering wanted refs.length (refs.flatMap DataRef.bytes) =
      .ok ((refs.filter fun r => wanted r.ref).flatMap fun r =>
        r.entries.map record, []) := by
  induction refs with
  | nil => rfl
  | cons r refs ih =>
    have hsound := h r mem_cons_self
    rw [flatMap_cons, length_cons, visitRefs, takeRosterRef_append hsound]
    have hrest := ih (forall_mem_cons.mp h).2
    change (if wanted r.ref = true then _ else _) = _
    by_cases hwanted : wanted r.ref = true
    · rw [filter_cons, if_pos hwanted, if_pos hwanted]
      change (readData s covering r.id >>= _) = _
      rw [readData_sound hsound]
      rw [hrest]
      rfl
    · rw [filter_cons, if_neg hwanted, if_neg hwanted]
      rw [hrest]
      rfl

lemma length_rosterHeaderBytes (count : ℕ) (cov : Bool) (prev : Option BlockId) :
    (rosterHeaderBytes count cov prev).length = rosterHeader := by
  unfold rosterHeaderBytes
  rw [length_append]
  rcases prev with _ | id
  · rw [length_zeros]
    rfl
  · rfl

lemma length_rosterPayload : rosterHeader ≤ (rosterPayload covering previous refs).length := by
  unfold rosterPayload
  rw [length_append, length_rosterHeaderBytes]
  omega

lemma leNat_rosterPayload (h : refs.length < 2 ^ 28) :
    leNat ((rosterPayload covering previous refs).take 4) = rosterWord refs.length covering := by
  unfold rosterPayload rosterHeaderBytes
  rw [append_assoc, take_left' (length_leBytes 4 _)]
  refine leNat_leBytes ?_
  refine Nat.or_lt_two_pow (n := 32) (by omega) ?_
  cases covering <;> decide

lemma drop_rosterPayload :
    (rosterPayload covering previous refs).drop rosterHeader = refs.flatMap DataRef.bytes :=
  drop_left' (length_rosterHeaderBytes ..)

/-- **The walk visits the wanted blocks of a chain.** Induction on the chain. -/
theorem walkRosters_chain {minimum : ℕ} (hminimum : minimum ≤ rosterHeader)
    {wanted : RosterRef → Bool} {root : Option BlockId} {ros : List (List DataRef)}
    (h : Chain s le covering root ros) {limit : ℕ} (hlimit : ros.length ≤ limit) :
    walkRosters s minimum wanted limit root =
      some (.ok ((ros.flatten.filter fun r => wanted r.ref).flatMap fun r =>
        r.entries.map record)) := by
  induction h generalizing limit with
  | nil => cases limit <;> rfl
  | @cons id previous refs older stored _ count sound rest ih =>
    rw [length_cons] at hlimit
    rcases limit with _ | limit
    · omega
    have hlen : rosterHeader ≤ (rosterPayload covering previous refs).length :=
      length_rosterPayload
    rw [walkRosters]
    simp only [stored]
    rw [if_neg (by rintro (hkind | hshort) <;> [exact hkind rfl; omega]), leNat_rosterPayload count,
      rosterLayout_rosterWord count]
    simp only
    rw [if_neg (by omega), drop_rosterPayload, visitRefs_flatMap sound]
    simp only
    rw [rosterPredecessor_payload rest.named, ih (by omega), flatten_cons, filter_append,
      flatMap_append]
    rfl

end Blocks

/-! ## Nothing is missed -/

/-- Unwanted blocks hold nothing that is kept. -/
lemma filter_flatMap_filter {α β : Type} {f : α → List β} {wanted : α → Bool} {p : β → Bool}
    {l : List α} (h : ∀ a ∈ l, wanted a = false → ∀ b ∈ f a, p b = false) :
    ((l.filter wanted).flatMap f).filter p = (l.flatMap f).filter p := by
  induction l with
  | nil => rfl
  | cons a l ih =>
    have hrest := ih (forall_mem_cons.mp h).2
    rcases hwanted : wanted a with _ | _
    · have hnone : (f a).filter p = [] := by simpa using h a mem_cons_self hwanted
      simp [hwanted, hnone, hrest]
    · simp [hwanted, hrest]

section Generations

variable {s : BlockStore} {le : Bytes → Bytes → Prop} {handle : ValueIndexHandle}
  {ros : List (List DataRef)} {covering : Bool} {es : List ValueIndexEntry}

lemma Chain.sound_flatten {root : Option BlockId} (h : Chain s le covering root ros) :
    ∀ r ∈ ros.flatten, r.Sound s le covering := by
  intro r hr
  refine h.sound r ?_
  exact ((reverse_perm ros).flatten.mem_iff).mpr hr

section

variable (h : Generation s le handle ros covering es)
include h

/-- **What a walk over wanted blocks finds**, when no other block holds anything sought. -/
theorem Generation.filter_found (wanted : RosterRef → Bool) (p : ValueIndexRecord → Bool)
    (hwanted : ∀ r ∈ ros.flatten, wanted r.ref = false →
      ∀ e ∈ r.entries, p e.record = false) {minimum : ℕ} (hminimum : minimum ≤ rosterHeader) :
    ∃ found, walkRosters s minimum wanted (handle.entries + 1) (some handle.roster) =
        some (.ok found) ∧ (found.filter p).Perm ((es.map record).filter p) := by
  refine ⟨_, walkRosters_chain hminimum h.chain (h.count ▸ h.rosters_le), ?_⟩
  rw [filter_flatMap_filter]
  · rw [h.entries_eq, map_flatMap]
    exact ((reverse_perm ros).symm.flatten.flatMap_right _).filter p
  · intro r hr hnot record hrec
    obtain ⟨e, he, rfl⟩ := mem_map.mp hrec
    exact hwanted r hr hnot e he

/-- **A walk visits the entries.** -/
theorem Generation.walk_eq :
    ∃ found, handle.walk s = some (.ok found) ∧ found.Perm (es.map record) := by
  obtain ⟨found, hfound, hperm⟩ := h.filter_found (fun _ => true) (fun _ => true)
    (fun _ _ hnot => absurd hnot (by decide)) (by decide : 4 ≤ rosterHeader)
  rw [filter_true, filter_true] at hperm
  refine ⟨found, ?_, hperm⟩
  unfold ValueIndexHandle.walk
  rw [hfound]
  have hlen : found.length = handle.entries := by
    rw [hperm.length_eq, length_map, h.count]
  simp only [map_some, Except.bind, if_pos hlen]

/-- **A probe visits the entries with the hash.** -/
theorem Generation.probe_eq (hash : UInt64) :
    ∃ found, handle.probe s hash = some (.ok found) ∧
      found.Perm ((es.map record).filter (·.hash == hash)) := by
  have hpruned : ∀ r ∈ ros.flatten,
      (r.ref.filter.all fun filter => bloomMaybeContains filter hash) = false →
        ∀ e ∈ r.entries, (e.record.hash == hash) = false := by
    intro r hr hnot e he
    by_contra heq
    rw [Bool.not_eq_false, beq_iff_eq] at heq
    have hadmits := (h.chain.sound_flatten r hr).chunk.admits e he
    rw [show e.hash = hash from heq] at hadmits
    exact Bool.false_ne_true (hnot.symm.trans hadmits)
  obtain ⟨found, hfound, hperm⟩ := h.filter_found (fun ref => ref.filter.all fun filter =>
    bloomMaybeContains filter hash) (·.hash == hash) hpruned (by decide : 4 ≤ rosterHeader)
  refine ⟨_, ?_, hperm⟩
  unfold ValueIndexHandle.probe
  rw [hfound]
  rfl

/-- **A classifier that is monotone in key order**: what stands before a key that is before the
range is before it, and what stands behind a key that is after it is after it. -/
def MonotoneClassifier (le : Bytes → Bytes → Prop) (classify : Bytes → ValueIndexPosition) : Prop :=
  ∀ a b, le a b →
    (classify b = .before → classify a = .before) ∧ (classify a = .after → classify b = .after)

omit h in
/-- A block whose bounds exclude it holds no match. The bound decides for the whole block along the
order of its keys. -/
lemma DataRef.Sound.excluded {r : DataRef} (h : r.Sound s le covering)
    {classify : Bytes → ValueIndexPosition} (hmono : MonotoneClassifier le classify)
    (hnot : (!r.bounds.any fun (first, last) =>
      classify last == .before || classify first == .after) = false) :
    ∀ e ∈ r.entries, classify e.key ≠ .isMatch := by
  rw [Bool.not_eq_false', Option.any_eq_true] at hnot
  obtain ⟨⟨first, last⟩, hbounds, hout⟩ := hnot
  obtain ⟨hfirst, hlast⟩ := h.bounds first last hbounds
  have hne : r.entries.map key ≠ [] := by
    intro hnil
    exact h.nonempty (map_eq_nil_iff.mp hnil)
  intro e he
  have hkey : e.key ∈ r.entries.map key := mem_map_of_mem he
  rcases Bool.or_eq_true_iff.mp hout with hbefore | hafter
  · have hall := h.chunk.ordered.backwards_induction (fun key => classify key = .before) _
      (fun a b hab hb => (hmono a b hab).1 hb) (fun _ => ?_) e.key hkey
    · rw [hall]
      decide
    · rw [← getLast?_map, getLast?_eq_some_getLast hne] at hlast
      rw [some.inj hlast]
      exact eq_of_beq hbefore
  have hall := h.chunk.ordered.induction (fun key => classify key = .after) _
    (fun a b hab ha => (hmono a b hab).2 ha) (fun _ => ?_) e.key hkey
  · rw [hall]
    decide
  · rw [← head?_map, head?_eq_some_head hne] at hfirst
    rw [some.inj hfirst]
    exact eq_of_beq hafter

/-- **A range read visits the matching entries.** -/
theorem Generation.range_eq {classify : Bytes → ValueIndexPosition}
    (hmono : MonotoneClassifier le classify) :
    ∃ found, handle.range s classify = some (.ok found) ∧
      found.Perm ((es.map record).filter fun record => classify record.key == .isMatch) := by
  obtain ⟨found, hfound, hperm⟩ := h.filter_found (fun ref => !ref.bounds.any fun (first, last) =>
      classify last == .before || classify first == .after)
    (fun record => classify record.key == .isMatch)
    (fun r hr hnot e he => beq_eq_false_iff_ne.mpr
      ((h.chain.sound_flatten r hr).excluded hmono hnot e he)) (le_refl rosterHeader)
  refine ⟨_, ?_, hperm⟩
  unfold ValueIndexHandle.range
  rw [hfound]
  rfl

end

end Generations

end Pos3ql
