import Pos3ql.Partition.Bounds

/-!
# A row is routed to one partition

Bounds that the overlap check accepts together are disjoint, except for hash bounds: their
remainders are compared modulo the smaller modulus, which says nothing when that modulus does not
divide the other. What decides is the greatest common divisor of the moduli (`HashApart`).

* `compareDatums_between`: a value between two bounds orders them.
* `compareKey_between`: the same for tuples; `lists_disjoint`, `hashes_disjoint_iff`.
* **`accepted_disjoint_iff`**: two bounds. `run_accepted`: the partitions of a table.
* **`partition_routing`**.

Source: `sql/exec/mod.rs` (`partition_bounds_overlap`), `storage/mod.rs`
(`partition_bound_matches`).
-/

namespace Pos3ql

open List Except Option

variable {K : Type} [KeyType K]

/-! ## Order -/

variable {l r : KeyDatum K} {o : Ordering} {key rights : List (KeyDatum K)}
  {scheme : PartitionScheme}

lemma compareDatums_ok (h : l.compareDatums r = .ok o) :
    (∃ a b, l.asI64 = some a ∧ r.asI64 = some b ∧ o = cmp a b) ∨
      ∃ a b, l = .other a ∧ r = .other b ∧ o = cmp a b := by
  unfold KeyDatum.compareDatums at h
  split at h
  · exact .inr ⟨_, _, rfl, rfl, (ok.inj h).symm⟩
  split at h
  · rename_i a b ha hb
    exact .inl ⟨a, b, ha, hb, (ok.inj h).symm⟩
  · cases h

lemma compareDatums_ints {a b : ℤ} (hl : l.asI64 = some a)
    (hr : r.asI64 = some b) : l.compareDatums r = .ok (cmp a b) := by
  cases l <;> cases r <;> simp_all [KeyDatum.compareDatums, KeyDatum.asI64]

lemma compareDatums_swap (h : l.compareDatums r = .ok o) : r.compareDatums l = .ok o.swap := by
  rcases compareDatums_ok h with ⟨a, b, ha, hb, rfl⟩ | ⟨a, b, rfl, rfl, rfl⟩
  · rw [compareDatums_ints hb ha, cmp_swap]
  · show Except.ok (cmp b a) = _
    rw [cmp_swap]

lemma cmp_between {α : Type} [LinearOrder α] {l v r : α} (hlower : cmp v l ≠ .lt)
    (hupper : cmp v r ≠ .gt) :
    cmp l r ≠ .gt ∧ (cmp l r = .eq → cmp v l = .eq ∧ cmp v r = .eq) := by
  rw [ne_eq, cmp_eq_lt_iff, not_lt] at hlower
  rw [ne_eq, cmp_eq_gt_iff, not_lt] at hupper
  rw [ne_eq, cmp_eq_gt_iff, not_lt, cmp_eq_eq_iff, cmp_eq_eq_iff, cmp_eq_eq_iff]
  refine ⟨hlower.trans hupper, fun heq => ?_⟩
  subst heq
  exact ⟨le_antisymm hupper hlower, le_antisymm hupper hlower⟩

/-- **A value between two bounds orders them.** -/
theorem compareDatums_between {v : KeyDatum K} {o₁ o₂ : Ordering} (hl : v.compareDatums l = .ok o₁)
    (hr : v.compareDatums r = .ok o₂) (hlower : o₁ ≠ .lt) (hupper : o₂ ≠ .gt) :
    ∃ o, l.compareDatums r = .ok o ∧ o ≠ .gt ∧ (o = .eq → o₁ = .eq ∧ o₂ = .eq) := by
  rcases compareDatums_ok hl with ⟨a, b, ha, hb, rfl⟩ | ⟨a, b, rfl, rfl, rfl⟩
  · rcases compareDatums_ok hr with ⟨a', c, ha', hc, rfl⟩ | ⟨a', c, rfl, rfl, rfl⟩
    · obtain rfl := some.inj (ha.symm.trans ha')
      exact ⟨_, compareDatums_ints hb hc, cmp_between hlower hupper⟩
    · cases ha
  rcases compareDatums_ok hr with ⟨a', c, ha', hc, rfl⟩ | ⟨a', c, heq, rfl, rfl⟩
  · cases ha'
  · obtain rfl := KeyDatum.other.inj heq
    exact ⟨_, rfl, cmp_between hlower hupper⟩

/-! ## Ranges -/

lemma compareKey_cons {value : KeyDatum K} {bound : PartitionBoundValue K}
    {tuple : List (PartitionBoundValue K)}
    (h : compareKey (value :: key) (bound :: tuple) = .ok (some o)) :
    ∃ first, compareBound value bound = .ok first ∧
      (if first ≠ .eq then first = o else compareKey key tuple = .ok (some o)) := by
  unfold compareKey at h
  split at h
  · cases h
  obtain ⟨first, hfirst, hrest⟩ := ok_of_bind_ok h
  refine ⟨first, hfirst, ?_⟩
  split at hrest
  · rename_i hne
    rw [if_pos hne]
    exact some.inj (ok.inj hrest)
  · rename_i heq
    rw [if_neg heq]
    exact hrest

lemma compareBound_between {value : KeyDatum K} {lower upper : PartitionBoundValue K}
    {o₁ o₂ : Ordering} (hl : compareBound value lower = .ok o₁)
    (hu : compareBound value upper = .ok o₂) (hlower : o₁ ≠ .lt) (hupper : o₂ ≠ .gt) :
    ∃ o, compareBoundValues lower upper = .ok o ∧ o ≠ .gt ∧ (o = .eq → o₁ = .eq ∧ o₂ = .eq) := by
  cases lower with
  | maxValue =>
    obtain rfl := ok.inj hl
    exact absurd rfl hlower
  | minValue =>
    cases upper with
    | minValue =>
      obtain rfl := ok.inj hu
      exact absurd rfl hupper
    | value _ | maxValue => exact ⟨.lt, rfl, nofun, nofun⟩
  | value v =>
    cases upper with
    | minValue =>
      obtain rfl := ok.inj hu
      exact absurd rfl hupper
    | value v' => exact compareDatums_between hl hu hlower hupper
    | maxValue => exact ⟨.lt, rfl, nofun, nofun⟩

/-- **A key between two tuples of bounds orders them.** Induction on the key. -/
theorem compareKey_between {lower upper : List (PartitionBoundValue K)}
    (hlength : lower.length = upper.length) (hl : compareKey key lower = .ok (some o))
    (hlower : o ≠ .lt) (hu : compareKey key upper = .ok (some .lt)) :
    comparePartitionBoundTuples lower upper = .ok .lt := by
  induction key generalizing lower upper with
  | nil =>
    unfold compareKey at hu
    cases hu
  | cons value key ih =>
    rcases upper with _ | ⟨u, upper⟩
    · cases hu
    rcases lower with _ | ⟨l, lower⟩
    · cases hlength
    obtain ⟨o₁, hone, hl⟩ := compareKey_cons hl
    obtain ⟨o₂, htwo, hu⟩ := compareKey_cons hu
    have hlower₁ : o₁ ≠ .lt := by
      rintro rfl
      exact hlower hl.symm
    have hupper₂ : o₂ ≠ .gt := by
      rintro rfl
      cases hu
    obtain ⟨first, hfirst, hgt, heq⟩ := compareBound_between hone htwo hlower₁ hupper₂
    rw [comparePartitionBoundTuples, hfirst]
    change (if first ≠ .eq then _ else _) = _
    by_cases hsame : first = .eq
    · obtain ⟨rfl, rfl⟩ := heq hsame
      rw [if_neg (not_not.mpr hsame)]
      exact ih (Nat.succ.inj hlength) hl hu
    rw [if_pos hsame]
    cases first with
    | lt => rfl
    | eq => exact absurd rfl hsame
    | gt => exact absurd rfl hgt

/-! ## Lists -/

lemma listContains_false {left : KeyDatum K} (h : listContains left rights = .ok false) :
    ∀ right ∈ rights, ∃ o, left.compareDatums right = .ok o ∧ o ≠ .eq := by
  induction rights with
  | nil => exact fun right hmem => (nomatch hmem)
  | cons first rights ih =>
    obtain ⟨o, ho, hrest⟩ := ok_of_bind_ok h
    split at hrest
    · cases hrest
    rename_i hne
    exact forall_mem_cons.mpr ⟨⟨o, ho, hne⟩, ih hrest⟩

/-- Lists that are accepted together: no value of one equals a value of the other, and NULL is not
compared. -/
lemma listsOverlap_false {lefts : List (KeyDatum K)} (h : listsOverlap rights lefts = .ok false) :
    ∀ left ∈ lefts, ∀ right ∈ rights, ∃ o, left.compareDatums right = .ok o ∧ o ≠ .eq := by
  induction lefts with
  | nil => exact fun left hmem => (nomatch hmem)
  | cons first lefts ih =>
    obtain ⟨found, hfound, hrest⟩ := ok_of_bind_ok h
    split at hrest
    · cases hrest
    rename_i hnot
    rw [Bool.not_eq_true] at hnot
    subst hnot
    exact forall_mem_cons.mpr ⟨listContains_false hfound, ih hrest⟩

/-- Whether a result says that a row matches. -/
def matched : Except SqlError Bool → Bool
  | .ok found => found
  | .error _ => false

lemma matched_list {values : List (KeyDatum K)} (h : matched (listMatches values key)) :
    ∃ value, key.head? = some value ∧
      ((value = .null ∧ .null ∈ values) ∨ ∃ v ∈ values, value.compareDatums v = .ok .eq) := by
  unfold listMatches at h
  split at h
  · cases h
  rename_i value hvalue
  refine ⟨value, hvalue, ?_⟩
  split at h
  · rename_i hnull
    exact .inl ⟨hnull, contains_iff_mem.mp h⟩
  obtain ⟨v, hv, heq⟩ := any_eq_true.mp h
  refine .inr ⟨v, hv, ?_⟩
  unfold equalTo at heq
  split at heq
  · rename_i o ho
    rw [ho, eq_of_beq heq]
  · cases heq

lemma lists_disjoint {lefts : List (KeyDatum K)} (h : listsOverlap rights lefts = .ok false)
    (hl : matched (listMatches lefts key)) (hr : matched (listMatches rights key)) :
    False := by
  obtain ⟨value, hvalue, hleft⟩ := matched_list hl
  obtain ⟨value', hvalue', hright⟩ := matched_list hr
  obtain rfl := some.inj (hvalue.symm.trans hvalue')
  have hapart := listsOverlap_false h
  rcases hleft with ⟨rfl, hnull⟩ | ⟨a, ha, hcompare⟩
  · rcases hright with ⟨-, hnull'⟩ | ⟨b, -, hcompare'⟩
    · obtain ⟨o, ho, -⟩ := hapart _ hnull _ hnull'
      cases ho
    · rcases compareDatums_ok hcompare' with ⟨_, _, hint, -, -⟩ | ⟨_, _, hother, -, -⟩
      · cases hint
      · cases hother
  rcases hright with ⟨rfl, -⟩ | ⟨b, hb, hcompare'⟩
  · rcases compareDatums_ok hcompare with ⟨_, _, hint, -, -⟩ | ⟨_, _, hother, -, -⟩
    · cases hint
    · cases hother
  -- both equal the key, so they equal each other
  obtain ⟨o, ho, hne⟩ := hapart a ha b hb
  obtain ⟨o', ho', hle, -⟩ :=
    compareDatums_between hcompare hcompare' nofun nofun
  obtain ⟨o'', ho'', hge, -⟩ :=
    compareDatums_between hcompare' hcompare nofun nofun
  obtain rfl := ok.inj (ho.symm.trans ho')
  have hswap := compareDatums_swap ho
  rw [ho''] at hswap
  obtain rfl := ok.inj hswap
  cases o with
  | lt => exact hge rfl
  | eq => exact hne rfl
  | gt => exact hle rfl

/-! ## Hashes -/

/-- **Two hash bounds without a common hash**, by the greatest common divisor of their moduli. -/
def HashApart : PartitionBound K → PartitionBound K → Prop
  | .hash lm lr, .hash rm rr =>
    lr.toNat % Nat.gcd lm.toNat rm.toNat ≠ rr.toNat % Nat.gcd lm.toNat rm.toNat
  | _, _ => True

instance (l r : PartitionBound K) : Decidable (HashApart l r) := by
  unfold HashApart
  split <;> infer_instance

lemma matched_hash {modulus remainder : UInt32} {hash : UInt64} :
    matched (hashMatches modulus remainder (.ok hash)) ↔
      hash.toNat % modulus.toNat = remainder.toNat := by
  show (hash % modulus.toUInt64 == remainder.toUInt64) ↔ _
  rw [beq_iff_eq, ← UInt64.toNat_inj, UInt64.toNat_mod, UInt32.toNat_toUInt64,
    UInt32.toNat_toUInt64]

/-- **When two hash bounds are disjoint.** -/
theorem hashes_disjoint_iff {lm lr rm rr : UInt32} (hlm : lr.toNat < lm.toNat)
    (hrm : rr.toNat < rm.toNat) (hlsmall : lm.toNat < 2 ^ 31) (hrsmall : rm.toNat < 2 ^ 31) :
    (∀ hash : UInt64,
      ¬(matched (hashMatches lm lr (.ok hash)) ∧ matched (hashMatches rm rr (.ok hash)))) ↔
      lr.toNat % Nat.gcd lm.toNat rm.toNat ≠ rr.toNat % Nat.gcd lm.toNat rm.toNat := by
  constructor
  · intro h hsame
    -- the two remainders are met at once
    obtain ⟨k, hkl, hkr⟩ := Nat.chineseRemainder' (show lr.toNat ≡ rr.toNat [MOD _] from hsame)
    have hpos : 0 < lm.toNat * rm.toNat := Nat.mul_pos (by omega) (by omega)
    have hbound : k % (lm.toNat * rm.toNat) < 2 ^ 64 := by
      refine (Nat.mod_lt _ hpos).trans ?_
      calc lm.toNat * rm.toNat < 2 ^ 31 * 2 ^ 31 := Nat.mul_lt_mul'' hlsmall hrsmall
        _ < 2 ^ 64 := by decide
    have hnat : (UInt64.ofNat (k % (lm.toNat * rm.toNat))).toNat = k % (lm.toNat * rm.toNat) := by
      rw [UInt64.toNat_ofNat', Nat.mod_eq_of_lt hbound]
    refine h (UInt64.ofNat (k % (lm.toNat * rm.toNat))) ⟨matched_hash.mpr ?_, matched_hash.mpr ?_⟩
    · rw [hnat, Nat.mod_mul_right_mod, hkl, Nat.mod_eq_of_lt hlm]
    · rw [hnat, Nat.mod_mul_left_mod, hkr, Nat.mod_eq_of_lt hrm]
  · rintro hapart hash ⟨hl, hr⟩
    rw [matched_hash] at hl hr
    refine hapart ?_
    rw [← hl, ← hr, Nat.mod_mod_of_dvd _ (Nat.gcd_dvd_left _ _),
      Nat.mod_mod_of_dvd _ (Nat.gcd_dvd_right _ _)]

/-! ## Two bounds -/

/-- **What a bound of a table satisfies.** -/
def PartitionBound.Resolved (scheme : PartitionScheme) : PartitionBound K → Prop
  | .default => True
  | .range lower upper => lower.length = scheme.keys.length ∧ upper.length = scheme.keys.length
  | .list _ => True
  | .hash modulus remainder => scheme.strategy = .hash ∧ modulus.toNat < 2 ^ 31 ∧
      remainder.toNat < modulus.toNat

lemma resolve_resolved {written : WrittenBound K}
    {bound : PartitionBound K} (h : resolvePartitionBound scheme written = .ok bound) :
    bound.Resolved scheme := by
  cases written with
  | default =>
    obtain rfl := ok.inj h
    trivial
  | range lower upper =>
    rw [resolvePartitionBound] at h
    split at h
    · cases h
    split at h
    · cases h
    rename_i hlength
    rw [not_or, not_not, not_not] at hlength
    obtain ⟨o, -, hrest⟩ := ok_of_bind_ok h
    split at hrest
    · cases hrest
    · obtain rfl := ok.inj hrest
      exact hlength
  | list values =>
    rw [resolvePartitionBound] at h
    split at h
    · cases h
    split at h
    · cases h
    · obtain rfl := ok.inj h
      trivial
  | hash modulus remainder =>
    rw [resolvePartitionBound] at h
    split at h
    · cases h
    rename_i hstrategy
    unfold resolveHash at h
    split at h
    · rename_i modulus remainder
      split at h
      · cases h
      rename_i hvalid
      rw [not_or, not_or] at hvalid
      obtain ⟨hpos, hnonneg, hless⟩ := hvalid
      rw [Int32.le_iff_toInt_le] at hpos hless
      rw [Int32.lt_iff_toInt_lt] at hnonneg
      obtain rfl := ok.inj h
      have hm : (0 : Int32) ≤ modulus := by
        rw [Int32.le_iff_toInt_le]
        omega
      have hr : (0 : Int32) ≤ remainder := by
        rw [Int32.le_iff_toInt_le]
        omega
      refine ⟨not_not.mp hstrategy, ?_, ?_⟩
      · rw [Int32.toNat_toUInt32_of_le hm]
        exact modulus.toNatClampNeg_lt
      rw [Int32.toNat_toUInt32_of_le hm, Int32.toNat_toUInt32_of_le hr]
      have hcm := Int32.cast_toNatClampNeg modulus hm
      have hcr := Int32.cast_toNatClampNeg remainder hr
      omega
    · cases h

lemma matched_range {lower upper : List (PartitionBoundValue K)} :
    matched (rangeMatches lower upper key) ↔ (∃ o, compareKey key lower = .ok (some o) ∧ o ≠ .lt) ∧
      compareKey key upper = .ok (some .lt) := by
  unfold rangeMatches
  rcases compareKey key lower with e | (_ | o)
  · exact iff_of_false nofun (by simp)
  · exact iff_of_false nofun (by simp)
  rcases compareKey key upper with e | (_ | o')
  · exact iff_of_false nofun (by simp)
  · exact iff_of_false nofun (by simp)
  · refine Bool.and_eq_true_iff.trans ?_
    simp

lemma ranges_disjoint {n : ℕ} {ll lu rl ru : List (PartitionBoundValue K)}
    (hl : ll.length = n ∧ lu.length = n) (hr : rl.length = n ∧ ru.length = n)
    (h : partitionBoundsOverlap (.range ll lu) (.range rl ru) = .ok false)
    (hleft : matched (rangeMatches ll lu key)) (hright : matched (rangeMatches rl ru key)) :
    False :=
    by
  obtain ⟨⟨o₁, hll, hge₁⟩, hlu⟩ := matched_range.mp hleft
  obtain ⟨⟨o₂, hrl, hge₂⟩, hru⟩ := matched_range.mp hright
  rw [partitionBoundsOverlap] at h
  rw [if_neg (not_not.mpr (hl.1.trans hr.1.symm)),
    compareKey_between (hl.1.trans hr.2.symm) hll hge₁ hru] at h
  rw [compareKey_between (hr.1.trans hl.2.symm) hrl hge₂ hlu] at h
  cases h

/-- **Two bounds that are accepted together** are disjoint exactly when they are not hash bounds
with a common hash. -/
theorem accepted_disjoint_iff {l r : PartitionBound K} (hl : l.Resolved scheme)
    (hr : r.Resolved scheme) (h : partitionBoundsOverlap l r = .ok false) :
    (∀ (hash : UInt64) (key : List (KeyDatum K)),
      ¬(matched (boundMatches scheme.strategy l (.ok hash) key) ∧
        matched (boundMatches scheme.strategy r (.ok hash) key))) ↔ HashApart l r := by
  obtain ⟨strategy, keys⟩ := scheme
  -- a bound matches only under its own strategy
  cases l with
  | default => exact iff_of_true (fun _ _ hboth => by cases strategy <;> cases hboth.1) trivial
  | range ll lu =>
    refine iff_of_true (fun hash key hboth => ?_) trivial
    cases strategy with
    | range =>
      cases r with
      | range rl ru => exact ranges_disjoint hl hr h hboth.1 hboth.2
      | _ => cases hboth.2
    | _ => cases hboth.1
  | list lv =>
    refine iff_of_true (fun hash key hboth => ?_) trivial
    cases strategy with
    | list =>
      cases r with
      | list rv => exact lists_disjoint h hboth.1 hboth.2
      | _ => cases hboth.2
    | _ => cases hboth.1
  | hash lm lr =>
    obtain ⟨rfl, hlm, hlr⟩ := hl
    cases r with
    | hash rm rr =>
      obtain ⟨-, hrm, hrr⟩ := hr
      refine Iff.trans ⟨fun hnone hash => hnone hash [], fun hnone hash _ => hnone hash⟩
        (hashes_disjoint_iff hlr hrr hlm hrm)
    | _ => exact iff_of_true (fun _ _ hboth => by cases hboth.2) trivial

/-! ## The partitions of a table -/

/-- **What holds between the partitions of a table**: each newer one was accepted with each older
one. -/
structure PartitionScheme.Accepted (scheme : PartitionScheme) (partitions : List (Partition K)) :
    Prop where
  resolved : ∀ p ∈ partitions, p.bound.Resolved scheme
  apart : partitions.Pairwise fun older newer =>
    partitionBoundsOverlap newer.bound older.bound = .ok false

lemma validate_ok {parent : String} {cand : PartitionBound K} {siblings : List (Partition K)}
    (h : PartitionScheme.validatePartitionBound parent cand siblings = .ok ()) :
    ∀ sibling ∈ siblings, partitionBoundsOverlap cand sibling.bound = .ok false := by
  induction siblings with
  | nil => exact fun sibling hmem => (nomatch hmem)
  | cons first siblings ih =>
    obtain ⟨overlap, hoverlap, hrest⟩ := ok_of_bind_ok h
    split at hrest
    · cases hrest
    rename_i hnot
    rw [Bool.not_eq_true] at hnot
    subst hnot
    exact forall_mem_cons.mpr ⟨hoverlap, ih hrest⟩

lemma perform_accepted {parent : String}
    {partitions after : List (Partition K)} {call : TableCall K} (h : scheme.Accepted partitions)
    (hcall : scheme.perform parent partitions call = .ok after) : scheme.Accepted after := by
  cases call with
  | attach name written =>
    obtain ⟨bound, hbound, hrest⟩ := ok_of_bind_ok hcall
    obtain ⟨⟨⟩, hvalid, hafter⟩ := ok_of_bind_ok hrest
    obtain rfl := ok.inj hafter
    refine ⟨forall_mem_append.mpr ⟨h.resolved, forall_mem_singleton.mpr (resolve_resolved hbound)⟩,
      ?_⟩
    · refine pairwise_append.mpr ⟨h.apart, pairwise_singleton _ _, fun older hold newer hnew => ?_⟩
      rw [mem_singleton.mp hnew]
      exact validate_ok hvalid older hold
  | detach name =>
    obtain rfl := ok.inj hcall
    exact ⟨fun p hp => h.resolved p (mem_of_mem_filter hp), h.apart.filter _⟩

/-- **Every table.** Induction on the statements. -/
theorem run_accepted (scheme : PartitionScheme) (parent : String) (calls : List (TableCall K)) :
    scheme.Accepted (scheme.run parent calls) := by
  suffices hfrom : ∀ partitions : List (Partition K), scheme.Accepted partitions → scheme.Accepted
      (calls.foldl (fun partitions call =>
        (scheme.perform parent partitions call).toOption.getD partitions) partitions) from
    hfrom [] ⟨fun p hp => (nomatch hp), .nil⟩
  induction calls with
  | nil => exact fun partitions h => h
  | cons call calls ih =>
    intro partitions h
    refine ih _ ?_
    show scheme.Accepted ((scheme.perform parent partitions call).toOption.getD partitions)
    rcases hcall : scheme.perform parent partitions call with e | after
    · exact h
    · exact perform_accepted h hcall

lemma length_filter_le_one_iff {α : Type} {pick : α → Bool} {l : List α} :
    (l.filter pick).length ≤ 1 ↔ l.Pairwise fun a b => ¬(pick a ∧ pick b) := by
  have hpairs : ∀ m : List α, m.length ≤ 1 ↔ m.Pairwise fun _ _ => False := by
    rintro (_ | ⟨a, _ | ⟨b, m⟩⟩)
    · simp
    · simp
    · exact iff_of_false (by simp) fun h => rel_of_pairwise_cons h mem_cons_self
  rw [hpairs, pairwise_filter]
  simp only [Not, and_imp]

omit [KeyType K] in
lemma hashApart_comm {l r : PartitionBound K} (h : HashApart l r) : HashApart r l := by
  cases l <;> cases r <;> try trivial
  rename_i lm lr rm rr
  show _ ≠ _
  rw [Nat.gcd_comm]
  exact fun heq => h heq.symm

/-- A row is a key with a hash. A row whose key has no hash is in no hash partition, so any hash
will do. -/
lemma exists_key_of_row (scheme : PartitionScheme) (values : List (KeyDatum K)) :
    ∃ (hash : UInt64) (key : List (KeyDatum K)), ∀ bound : PartitionBound K,
      matched (partitionBoundMatches scheme bound values) →
        matched (boundMatches scheme.strategy bound (.ok hash) key) := by
  unfold partitionBoundMatches
  rcases keyOf scheme values with e | key
  · exact ⟨0, [], fun bound h => (nomatch h)⟩
  rcases hhash : rowHash key with e | hash
  · refine ⟨0, key, fun bound h => ?_⟩
    change matched (boundMatches scheme.strategy bound (rowHash key) key) = true at h
    rw [hhash] at h
    rcases scheme with ⟨strategy, keys⟩
    cases strategy <;> cases bound <;> first | exact h | cases h
  · refine ⟨hash, key, fun bound h => ?_⟩
    change matched (boundMatches scheme.strategy bound (rowHash key) key) = true at h
    rwa [hhash] at h

/-- **Partition routing.** Two bounds that the overlap check accepts together are disjoint, over all
keys and hashes, exactly when they are not hash bounds with a common hash. After any statements on a
table a key matches at most one of its partitions exactly when that holds for every two of them, and
then so does every row. -/
theorem partition_routing (scheme : PartitionScheme) :
    (∀ (wl wr : WrittenBound K) (l r : PartitionBound K), resolvePartitionBound scheme wl = .ok l →
      resolvePartitionBound scheme wr = .ok r → partitionBoundsOverlap l r = .ok false →
      ((∀ (hash : UInt64) (key : List (KeyDatum K)),
        ¬(matched (boundMatches scheme.strategy l (.ok hash) key) = true ∧
          matched (boundMatches scheme.strategy r (.ok hash) key) = true)) ↔ HashApart l r)) ∧
    ∀ (parent : String) (calls : List (TableCall K)),
      ((∀ (hash : UInt64) (key : List (KeyDatum K)), ((scheme.run parent calls).filter fun p =>
        matched (boundMatches scheme.strategy p.bound (.ok hash) key)).length ≤ 1) ↔
          (scheme.run parent calls).Pairwise fun p q => HashApart p.bound q.bound) ∧
      ((scheme.run parent calls).Pairwise (fun p q => HashApart p.bound q.bound) →
        ∀ values : List (KeyDatum K), ((scheme.run parent calls).filter fun p =>
          matched (partitionBoundMatches scheme p.bound values)).length ≤ 1) := by
  refine ⟨fun wl wr l r hl hr h =>
    accepted_disjoint_iff (resolve_resolved hl) (resolve_resolved hr) h, fun parent calls => ?_⟩
  obtain ⟨hresolved, hapart⟩ := run_accepted scheme parent calls
  -- the pairs of the table, each as the check saw it
  have hpairs := hapart.imp_of_mem fun {older newer} hold hnew hoverlap =>
    accepted_disjoint_iff (hresolved newer hnew) (hresolved older hold) hoverlap
  have hiff : (∀ (hash : UInt64) (key : List (KeyDatum K)),
    ((scheme.run parent calls).filter fun p =>
      matched (boundMatches scheme.strategy p.bound (.ok hash) key)).length ≤ 1) ↔
        (scheme.run parent calls).Pairwise fun p q => HashApart p.bound q.bound := by
    simp only [length_filter_le_one_iff]
    constructor
    · intro hnone
      rw [pairwise_iff_getElem] at hpairs ⊢
      intro i j hi hj hij
      refine hashApart_comm ((hpairs i j hi hj hij).mp fun hash key hboth => ?_)
      exact pairwise_iff_getElem.mp (hnone hash key) i j hi hj hij ⟨hboth.2, hboth.1⟩
    · intro hall hash key
      refine (hpairs.and hall).imp fun {older newer} hboth hmatch => ?_
      exact hboth.1.mpr (hashApart_comm hboth.2) hash key ⟨hmatch.2, hmatch.1⟩
  refine ⟨hiff, fun hall values => ?_⟩
  obtain ⟨hash, key, hrow⟩ := exists_key_of_row scheme values
  refine length_filter_le_one_iff.mpr
    ((length_filter_le_one_iff.mp (hiff.mpr hall hash key)).imp ?_)
  exact fun hnone hboth => hnone ⟨hrow _ hboth.1, hrow _ hboth.2⟩

/-- Columns of truth values. -/
instance : KeyType Bool := { (inferInstance : LinearOrder Bool) with typeName := "boolean" }

/-- Two hash bounds that the check accepts together, and a row that matches both. -/
theorem row_in_two_partitions :
    (let scheme : PartitionScheme := ⟨.hash, [0]⟩
     let partitions : List (Partition Bool) := scheme.run "t"
       [.attach "a" (.hash (.int4 4) (.int4 1)), .attach "b" (.hash (.int4 6) (.int4 3))]
     partitions.map Partition.bound = [.hash 4 1, .hash 6 3] ∧ (partitions.filter fun p =>
        matched (partitionBoundMatches scheme p.bound [.int4 8])).length = 2) := by
  decide

/-- Hash bounds with moduli that divide each other. -/
theorem partition_routing_halves :
    (let scheme : PartitionScheme := ⟨.hash, [0]⟩
     let partitions : List (Partition Bool) := scheme.run "t"
       [.attach "a" (.hash (.int4 2) (.int4 1)), .attach "b" (.hash (.int4 4) (.int4 2))]
     partitions.length = 2 ∧ ∀ values : List (KeyDatum Bool), (partitions.filter fun p =>
        matched (partitionBoundMatches scheme p.bound values)).length ≤ 1) := by
  refine ⟨by decide, ((partition_routing ⟨.hash, [0]⟩).2 "t" _).2 ?_⟩
  decide

end Pos3ql
