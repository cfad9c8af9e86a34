import Mathlib

/-!
# Vectors of fixed capacity

A vector that never grows past the capacity it was made with, and removes an element by moving the
last one into its place. A registry kept in such a vector is read from the front and swept by one
loop, which either keeps an element (perhaps changed) and goes on, or removes it and looks at the
same place again. Nothing here knows what the elements are.

* `FixedVec`, with its bound as a field; `push`, `truncate`, `eraseFirst`, `updateFirst`,
  `updateWhere`, `sweep`.
* `sweep_perm`: a sweep visits every element once, whatever the removals move.
* `removeAll_subperm`, `eraseFirst_subperm`: removals only remove.
* `upsert`, **`upsert_spec`**: a registry with one element for each key.
* `Granted`, **`Granted.upsert`**: such a registry takes one grant after the other.
-/

namespace Pos3ql.Foundation

open List

/-- A vector with a capacity. -/
structure FixedVec (α : Type) where
  /-- The elements, in order. -/
  items : List α
  /-- The most it can hold. -/
  capacity : ℕ
  bound : items.length ≤ capacity

namespace FixedVec

variable {α : Type}

/-! ## The operations -/

/-- The empty vector. -/
def empty (capacity : ℕ) : FixedVec α := ⟨[], capacity, zero_le⟩

/-- Append, unless the vector is full. -/
def push (v : FixedVec α) (a : α) : Option (FixedVec α) :=
  if h : v.items.length < v.capacity then
    some ⟨v.items ++ [a], v.capacity, by rw [length_append]; exact h⟩
  else none

/-- Remove position `i` by moving the last element there. -/
def swapRemove (items : List α) (i : ℕ) : List α :=
  match items.getLast? with
  | none => []
  | some last => (items.set i last).dropLast

/-- Change the first element that satisfies `p`. -/
def modifyFirst (p : α → Bool) (f : α → α) : List α → List α
  | [] => []
  | a :: rest => if p a then f a :: rest else a :: modifyFirst p f rest

lemma length_modifyFirst (p : α → Bool) (f : α → α) (items : List α) :
    (modifyFirst p f items).length = items.length := by
  induction items with
  | nil => rfl
  | cons a rest ih =>
    by_cases h : p a
    · simp [modifyFirst, h]
    · simp [modifyFirst, h, ih]

lemma length_swapRemove_le (items : List α) (i : ℕ) :
    (swapRemove items i).length ≤ items.length := by
  unfold swapRemove
  split
  · exact zero_le
  · simp

/-- Change the first element that satisfies `p`. -/
def updateFirst (v : FixedVec α) (p : α → Bool) (f : α → α) : FixedVec α :=
  ⟨modifyFirst p f v.items, v.capacity, (length_modifyFirst p f v.items).trans_le v.bound⟩

/-- Change every element that satisfies `p`. -/
def updateWhere (v : FixedVec α) (p : α → Bool) (f : α → α) : FixedVec α :=
  ⟨v.items.map fun a => if p a then f a else a, v.capacity, by simpa using v.bound⟩

/-- Remove the first element that satisfies `p`. -/
def eraseFirst (v : FixedVec α) (p : α → Bool) : FixedVec α :=
  match v.items.findIdx? p with
  | none => v
  | some i => ⟨swapRemove v.items i, v.capacity, (length_swapRemove_le v.items i).trans v.bound⟩

/-- Keep the elements that satisfy `p`, in order. -/
def retain (v : FixedVec α) (p : α → Bool) : FixedVec α :=
  ⟨v.items.filter p, v.capacity, (length_filter_le p v.items).trans v.bound⟩

/-- Pop until no more than `n` elements are left. -/
def truncate (v : FixedVec α) (n : ℕ) : FixedVec α :=
  ⟨v.items.take n, v.capacity, (length_take_le' n v.items).trans v.bound⟩

/-- The loop of a sweep: `step` says what becomes of an element, and whether that is a change. -/
def sweepLoop (step : α → Option α × Bool) : ℕ → List α → ℕ → Bool → List α × Bool
  | 0, items, _, changed => (items, changed)
  | fuel + 1, items, index, changed =>
    match items[index]? with
    | none => (items, changed)
    | some a =>
      match step a with
      | (some kept, c) => sweepLoop step fuel (items.set index kept) (index + 1) (changed || c)
      | (none, c) => sweepLoop step fuel (swapRemove items index) index (changed || c)

lemma length_sweepLoop_le (step : α → Option α × Bool) (fuel : ℕ) :
    ∀ (items : List α) (index : ℕ) (changed : Bool),
      (sweepLoop step fuel items index changed).1.length ≤ items.length := by
  induction fuel with
  | zero => intro items index changed; exact le_rfl
  | succ fuel ih =>
    intro items index changed
    rw [sweepLoop]
    split
    · exact le_rfl
    · split
      · exact (ih _ _ _).trans_eq length_set
      · exact (ih _ _ _).trans (length_swapRemove_le items index)

/-- Sweep the whole vector; the second component says whether anything changed. Each round settles
one element, so the length bounds the rounds. -/
def sweep (v : FixedVec α) (step : α → Option α × Bool) : FixedVec α × Bool :=
  (⟨(sweepLoop step v.items.length v.items 0 false).1, v.capacity,
      (length_sweepLoop_le step _ v.items 0 false).trans v.bound⟩,
    (sweepLoop step v.items.length v.items 0 false).2)

/-- Remove every element that satisfies `p`. -/
def removeAll (v : FixedVec α) (p : α → Bool) : FixedVec α × Bool :=
  v.sweep fun a => if p a then (none, true) else (some a, false)

/-! ## Removals and sweeps -/

variable {v : FixedVec α} {a b : α} {p : α → Bool} {items : List α} {f : α → α}

/-- A push appends. -/
lemma push_items {w : FixedVec α} (h : v.push a = some w) : w.items = v.items ++ [a] := by
  unfold push at h
  split at h
  · cases h; rfl
  · cases h

/-- It keeps the capacity. -/
lemma push_capacity {w : FixedVec α} (h : v.push a = some w) : w.capacity = v.capacity := by
  unfold push at h
  split at h
  · cases h; rfl
  · cases h

/-- It fails when the vector is full. -/
lemma push_eq_none_iff : v.push a = none ↔ v.capacity ≤ v.items.length := by
  unfold push
  split <;> simp <;> omega

/-- A registry with one element for each key has room for one more while the keys are among few
enough. -/
lemma exists_push {κ : Type} {key : α → κ} {known : List κ} (hnodup : (v.items.map key).Nodup)
    (hsub : ∀ b ∈ v.items, key b ∈ known) (hnew : key a ∉ v.items.map key) (hknown : key a ∈ known)
    (hroom : known.length ≤ v.capacity) :
    ∃ w, v.push a = some w := by
  have hall : (key a :: v.items.map key) ⊆ known := by
    intro k hk
    rcases mem_cons.mp hk with rfl | hold
    · exact hknown
    · obtain ⟨b, hb, rfl⟩ := mem_map.mp hold
      exact hsub b hb
  have hlength := ((nodup_cons.mpr ⟨hnew, hnodup⟩).subperm hall).length_le
  rw [length_cons, length_map] at hlength
  refine Option.ne_none_iff_exists'.mp fun hfull => ?_
  have := push_eq_none_iff.mp hfull
  omega

/-- The last element takes the free place. -/
lemma swapRemove_append (pre rest : List α) (a last : α) :
    swapRemove (pre ++ a :: (rest ++ [last])) pre.length = pre ++ last :: rest := by
  have hlast : (pre ++ a :: (rest ++ [last])).getLast? = some last := by
    rw [← cons_append, ← append_assoc, getLast?_concat]
  simp only [swapRemove, hlast]
  rw [set_append_right _ _ le_rfl, Nat.sub_self, set_cons_zero, ← cons_append,
    ← append_assoc, dropLast_concat]

/-- Removing the last element. -/
lemma swapRemove_append_last (pre : List α) (a : α) : swapRemove (pre ++ [a]) pre.length = pre := by
  simp [swapRemove]

/-- One element is gone, the others stay. -/
lemma swapRemove_perm (pre rest : List α) (a : α) :
    (swapRemove (pre ++ a :: rest) pre.length).Perm (pre ++ rest) := by
  rcases eq_nil_or_concat rest with rfl | ⟨front, last, rfl⟩
  · rw [swapRemove_append_last, append_nil]
  · rw [concat_eq_append, swapRemove_append]
    exact (perm_append_singleton last front).symm.append_left pre

/-- The loop of a sweep. Induction on the rest. -/
lemma sweepLoop_perm (step : α → Option α × Bool) (n : ℕ) :
    ∀ (pre rest : List α) (changed : Bool), rest.length = n →
      (sweepLoop step n (pre ++ rest) pre.length changed).1.Perm
        (pre ++ rest.filterMap fun a => (step a).1) := by
  induction n with
  | zero =>
    intro pre rest changed hlen
    rw [length_eq_zero_iff] at hlen
    subst hlen
    simp [sweepLoop]
  | succ n ih =>
    intro pre rest changed hlen
    obtain ⟨a, tail, rfl⟩ : ∃ a tail, rest = a :: tail :=
      exists_cons_of_length_eq_add_one hlen
    have htail : tail.length = n := by simpa using hlen
    have hat : (pre ++ a :: tail)[pre.length]? = some a := by simp
    rw [sweepLoop, hat]
    rcases hstep : step a with ⟨_ | kept, c⟩
    · -- removed: the last element takes the place, and is looked at next
      simp only [hstep]
      rw [filterMap_cons_none (by rw [hstep])]
      rcases eq_nil_or_concat tail with rfl | ⟨front, last, rfl⟩
      · subst htail
        simp [swapRemove_append_last, sweepLoop]
      rw [concat_eq_append] at htail ⊢
      have hmoved : (last :: front).Perm (front ++ [last]) :=
        (perm_append_singleton last front).symm
      rw [swapRemove_append]
      exact (ih pre (last :: front) (changed || c) (by simpa using htail)).trans
        ((hmoved.filterMap _).append_left pre)
    · -- kept: the element is settled
      have hset : (pre ++ a :: tail).set pre.length kept = (pre ++ [kept]) ++ tail := by simp
      have hperm := ih (pre ++ [kept]) tail (changed || c) htail
      simp only [hstep]
      rw [length_append] at hperm
      rw [filterMap_cons_some (by rw [hstep])]
      simpa using hperm

/-- **A sweep settles every element once**, up to order. -/
theorem sweep_perm (v : FixedVec α) (step : α → Option α × Bool) :
    (v.sweep step).1.items.Perm (v.items.filterMap fun a => (step a).1) :=
  sweepLoop_perm step v.items.length [] v.items false rfl

/-- What a sweep leaves. -/
lemma mem_sweep {step : α → Option α × Bool} :
    b ∈ (v.sweep step).1.items ↔ ∃ a ∈ v.items, (step a).1 = some b := by
  rw [(sweep_perm v step).mem_iff, mem_filterMap]

/-- The others stay. -/
lemma removeAll_perm (v : FixedVec α) (p : α → Bool) :
    (v.removeAll p).1.items.Perm (v.items.filter fun a => !p a) := by
  have hstep : (fun a => (if p a then ((none : Option α), true) else (some a, false)).1) =
      Option.guard fun a => !p a := by
    funext a
    by_cases h : p a <;> simp [Option.guard, h]
  have hperm := sweep_perm v fun a => if p a then (none, true) else (some a, false)
  rwa [hstep, filterMap_eq_filter] at hperm

lemma removeAll_subperm (v : FixedVec α) (p : α → Bool) : (v.removeAll p).1.items.Subperm v.items :=
  (removeAll_perm v p).subperm_right.mpr filter_sublist.subperm

/-- What is left does not meet the test. -/
lemma mem_removeAll : a ∈ (v.removeAll p).1.items ↔ a ∈ v.items ∧ p a = false := by
  rw [(removeAll_perm v p).mem_iff, mem_filter, Bool.not_eq_true']

/-- At most one element is gone. -/
lemma eraseFirst_perm (v : FixedVec α) (p : α → Bool) :
    (∀ a ∈ v.items, p a = false) ∧ v.eraseFirst p = v ∨
      ∃ pre a rest, v.items = pre ++ a :: rest ∧ p a ∧
        (v.eraseFirst p).items.Perm (pre ++ rest) := by
  rcases hfound : v.items.findIdx? p with _ | i
  · left
    refine ⟨fun a ha => ?_, by simp only [eraseFirst, hfound]⟩
    exact findIdx?_eq_none_iff.mp hfound a ha
  right
  obtain ⟨hi, hp, -⟩ := findIdx?_eq_some_iff_getElem.mp hfound
  have hsplit : v.items = v.items.take i ++ v.items[i] :: v.items.drop (i + 1) := by simp
  have hlen := length_take_of_le hi.le
  have hperm := swapRemove_perm (v.items.take i) (v.items.drop (i + 1)) v.items[i]
  rw [← hsplit, hlen] at hperm
  refine ⟨_, _, _, hsplit, hp, ?_⟩
  simpa only [eraseFirst, hfound] using hperm

lemma eraseFirst_subperm (v : FixedVec α) (p : α → Bool) :
    (v.eraseFirst p).items.Subperm v.items := by
  rcases eraseFirst_perm v p with ⟨-, hsame⟩ | ⟨pre, a, rest, hsplit, -, hperm⟩
  · rw [hsame]
  · refine hperm.subperm_right.mpr ?_
    rw [hsplit]
    exact ((sublist_cons_self a rest).append_left pre).subperm

/-- The only one that meets the test is gone. -/
lemma eraseFirst_clears (h : v.items.Pairwise fun a b => ¬(p a ∧ p b))
    (hb : b ∈ (v.eraseFirst p).items) :
    p b = false := by
  rcases eraseFirst_perm v p with ⟨hnone, hsame⟩ | ⟨pre, a, rest, hsplit, ha, hperm⟩
  · exact hnone b (hsame ▸ hb)
  rw [hsplit, pairwise_append, pairwise_cons] at h
  rw [hperm.mem_iff, mem_append] at hb
  rw [← Bool.not_eq_true]
  intro hpb
  rcases hb with hb | hb
  · exact h.2.2 b hb a mem_cons_self ⟨hpb, ha⟩
  · exact h.2.1.1 b hb ⟨ha, hpb⟩

/-- Nothing is added. -/
lemma mem_of_mem_eraseFirst (h : a ∈ (v.eraseFirst p).items) : a ∈ v.items :=
  (eraseFirst_subperm v p).subset h

/-- The others stay. -/
lemma mem_eraseFirst_of_not (hb : b ∈ v.items) (hp : p b = false) : b ∈ (v.eraseFirst p).items := by
  rcases eraseFirst_perm v p with ⟨-, hsame⟩ | ⟨pre, a, rest, hsplit, ha, hperm⟩
  · rwa [hsame]
  rw [hsplit, mem_append, mem_cons] at hb
  rw [hperm.mem_iff, mem_append]
  rcases hb with hb | rfl | hb
  · exact .inl hb
  · rw [ha] at hp; cases hp
  · exact .inr hb

/-! ## Changes -/

/-- Where one element at most satisfies `p`, changing the first is changing all. -/
lemma modifyFirst_eq_map (p : α → Bool) (f : α → α) (h : items.Pairwise fun a b => ¬(p a ∧ p b)) :
    modifyFirst p f items = items.map fun a => if p a then f a else a := by
  induction items with
  | nil => rfl
  | cons a rest ih =>
    obtain ⟨hfirst, hrest⟩ := pairwise_cons.mp h
    by_cases ha : p a
    · have hothers : rest.map (fun b => if p b then f b else b) = rest := by
        refine (map_congr_left fun b hb => ?_).trans (map_id rest)
        rw [if_neg fun hp => hfirst b hb ⟨ha, hp⟩]
        rfl
      rw [modifyFirst, if_pos ha, map_cons, if_pos ha, hothers]
    · rw [modifyFirst, if_neg ha, map_cons, if_neg ha, ih hrest]

/-! ## Registries with one element for each key -/

/-- Change the first element that satisfies `p`, or append one when there is none. -/
def upsert (v : FixedVec α) (p : α → Bool) (f : α → α) (a : α) : Option (FixedVec α) :=
  if v.items.any p then some (v.updateFirst p f) else v.push a

/-- At most one element is changed. -/
lemma mem_modifyFirst (h : b ∈ modifyFirst p f items) :
    b ∈ items ∨ ∃ a, items.find? p = some a ∧ b = f a := by
  induction items with
  | nil => cases h
  | cons a rest ih =>
    by_cases ha : p a
    · rw [modifyFirst, if_pos ha, mem_cons] at h
      rcases h with rfl | h
      · exact .inr ⟨a, find?_cons_of_pos ha, rfl⟩
      · exact .inl (mem_cons_of_mem a h)
    rw [modifyFirst, if_neg ha, mem_cons] at h
    rcases h with rfl | h
    · exact .inl mem_cons_self
    · rcases ih h with h | ⟨c, hc, rfl⟩
      · exact .inl (mem_cons_of_mem a h)
      · exact .inr ⟨c, by rw [find?_cons_of_neg ha, hc], rfl⟩

section Registry

variable {κ μ : Type} {key : α → κ} {w : FixedVec α} {known : List κ}

/-- One element is changed or added. -/
lemma mem_upsert (h : v.upsert p f a = some w) (hb : b ∈ w.items) :
    b ∈ v.items ∨ (∃ old ∈ v.items, p old ∧ b = f old) ∨ b = a := by
  unfold upsert at h
  split at h
  · cases h
    rcases mem_modifyFirst hb with hold | ⟨old, hfound, rfl⟩
    · exact .inl hold
    · exact .inr (.inl ⟨old, mem_of_find?_eq_some hfound, find?_some hfound, rfl⟩)
  · rw [push_items h, mem_append, mem_singleton] at hb
    exact hb.imp_right .inr

/-- **The one element of a key is changed, or the key gets its one element.** -/
theorem upsert_spec (h : v.upsert p f a = some w) (hp : ∀ b ∈ v.items, p b ↔ key b = key a)
    (hf : ∀ b, key (f b) = key b) (hnodup : (v.items.map key).Nodup) :
    w.capacity = v.capacity ∧ (w.items.map key).Nodup ∧
      ∀ b, b ∈ w.items ↔
        (b ∈ v.items ∧ key b ≠ key a) ∨ (∃ old ∈ v.items, key old = key a ∧ b = f old) ∨
          (key a ∉ v.items.map key ∧ b = a) := by
  unfold upsert at h
  split at h
  · rename_i hany
    cases h
    have hone : v.items.Pairwise fun b c => ¬(p b ∧ p c) := by
      refine (pairwise_map.mp hnodup).imp_of_mem fun {b c} hb hc hne hboth => hne ?_
      exact ((hp b hb).mp hboth.1).trans ((hp c hc).mp hboth.2).symm
    obtain ⟨own, hown, hpown⟩ := any_eq_true.mp hany
    have hpresent : key a ∈ v.items.map key :=
      mem_map.mpr ⟨own, hown, (hp own hown).mp hpown⟩
    have hitems : (v.updateFirst p f).items = v.items.map fun b => if p b then f b else b :=
      modifyFirst_eq_map p f hone
    refine ⟨rfl, ?_, fun b => ?_⟩
    · rw [hitems, map_map]
      have hkeys : key ∘ (fun b => if p b = true then f b else b) = key := by
        funext b
        rw [Function.comp_apply]
        split
        · exact hf b
        · rfl
      rwa [hkeys]
    rw [hitems, mem_map]
    constructor
    · rintro ⟨old, hold, rfl⟩
      by_cases hpold : p old = true
      · rw [if_pos hpold]
        exact .inr (.inl ⟨old, hold, (hp old hold).mp hpold, rfl⟩)
      · rw [if_neg hpold]
        exact .inl ⟨hold, fun heq => hpold ((hp old hold).mpr heq)⟩
    · rintro (⟨hb, hne⟩ | ⟨old, hold, heq, rfl⟩ | ⟨habsent, -⟩)
      · exact ⟨b, hb, if_neg fun hpb => hne ((hp b hb).mp hpb)⟩
      · exact ⟨old, hold, if_pos ((hp old hold).mpr heq)⟩
      · exact absurd hpresent habsent
  · rename_i hany
    have hnew : key a ∉ v.items.map key := by
      intro hmem
      obtain ⟨b, hb, heq⟩ := mem_map.mp hmem
      exact hany (any_eq_true.mpr ⟨b, hb, (hp b hb).mpr heq⟩)
    refine ⟨push_capacity h, ?_, fun b => ?_⟩
    · rw [push_items h, map_append, map_singleton]
      exact nodup_append.mpr ⟨hnodup, nodup_singleton _, fun k hk k' hk' heq => by
        rw [mem_singleton] at hk'
        exact hnew (hk' ▸ heq ▸ hk)⟩
    rw [push_items h, mem_append, mem_singleton]
    constructor
    · rintro (hold | rfl)
      · exact .inl ⟨hold, fun heq => hnew (mem_map.mpr ⟨b, hold, heq⟩)⟩
      · exact .inr (.inr ⟨hnew, rfl⟩)
    rintro (⟨hold, -⟩ | ⟨old, hold, heq, -⟩ | ⟨-, rfl⟩)
    · exact .inl hold
    · exact absurd (mem_map.mpr ⟨old, hold, heq⟩) hnew
    · exact .inr rfl

/-- A registry with one element for each key takes one more, while the keys are among few enough. -/
lemma exists_upsert (hp : ∀ b ∈ v.items, p b ↔ key b = key a) (hnodup : (v.items.map key).Nodup)
    (hsub : ∀ b ∈ v.items, key b ∈ known) (hknown : key a ∈ known)
    (hroom : known.length ≤ v.capacity) : ∃ w, v.upsert p f a = some w := by
  unfold upsert
  split
  · exact ⟨_, rfl⟩
  rename_i hany
  refine exists_push hnodup hsub (fun hmem => hany ?_) hknown hroom
  obtain ⟨b, hb, heq⟩ := mem_map.mp hmem
  exact any_eq_true.mpr ⟨b, hb, (hp b hb).mpr heq⟩

/-- **A registry of what was granted**: every element is one of `mine` and holds something, there is
one for each key, and together they hold what was granted. -/
structure Granted (key : α → κ) (mine : α → Prop) (holds : α → μ → Prop) (granted : κ → μ → Prop)
    (v : FixedVec α) : Prop where
  mine : ∀ b ∈ v.items, mine b ∧ ∃ m, holds b m
  once : (v.items.map key).Nodup
  holds : ∀ k m, (∃ b ∈ v.items, key b = k ∧ holds b m) ↔ granted k m

variable {mine : α → Prop} {holds : α → μ → Prop} {granted granted' : κ → μ → Prop}

/-- An empty registry grants nothing. -/
lemma granted_empty (capacity : ℕ) (h : ∀ k m, ¬granted k m) :
    Granted key mine holds granted (.empty capacity) :=
  ⟨nofun, nodup_nil, fun k m => ⟨fun ⟨_, hb, _⟩ => (nomatch hb), fun hg => absurd hg (h k m)⟩⟩

/-- The same grants. -/
lemma Granted.congr (h : Granted key mine holds granted v)
    (hsame : ∀ k m, granted' k m ↔ granted k m) : Granted key mine holds granted' v :=
  ⟨h.mine, h.once, fun k m => (h.holds k m).trans (hsame k m).symm⟩

/-- **One more grant.** The element of the key holds it too, or a new element does. -/
theorem Granted.upsert (h : Granted key mine holds granted v) (new : μ → Prop)
    (granted' : κ → μ → Prop) (hp : ∀ b, mine b → (p b ↔ key b = key a)) (hmine : mine a)
    (hholds : ∀ m, holds a m ↔ new m)
    (hf : ∀ b, key (f b) = key b ∧ (mine b → mine (f b)) ∧ ∀ m, holds (f b) m ↔ holds b m ∨ new m)
    (hnew : ∃ m, new m) (hsub : ∀ k m, granted k m → k ∈ known) (hknown : key a ∈ known)
    (hroom : known.length ≤ v.capacity)
    (hafter : ∀ k m, granted' k m ↔ granted k m ∨ k = key a ∧ new m) :
    ∃ w, v.upsert p f a = some w ∧
      w.capacity = v.capacity ∧ Granted key mine holds granted' w := by
  have hp' : ∀ b ∈ v.items, p b ↔ key b = key a := fun b hb => hp b (h.mine b hb).1
  have hkeys : ∀ b ∈ v.items, key b ∈ known := by
    intro b hb
    obtain ⟨-, m, hm⟩ := h.mine b hb
    exact hsub _ m ((h.holds _ m).mp ⟨b, hb, rfl, hm⟩)
  obtain ⟨w, hw⟩ := exists_upsert (f := f) hp' h.once hkeys hknown hroom
  obtain ⟨hcap, hnodup, hmem⟩ := upsert_spec hw hp' (fun b => (hf b).1) h.once
  refine ⟨w, hw, hcap, ⟨fun b hb => ?_, hnodup, fun k m => ?_⟩⟩
  · rcases (hmem b).mp hb with ⟨hold, -⟩ | ⟨old, hold, -, rfl⟩ | ⟨-, rfl⟩
    · exact h.mine b hold
    · exact ⟨(hf old).2.1 (h.mine old hold).1, hnew.imp fun m hm => ((hf old).2.2 m).mpr (.inr hm)⟩
    · exact ⟨hmine, hnew.imp fun m hm => (hholds m).mpr hm⟩
  rw [hafter, ← h.holds k m]
  constructor
  · rintro ⟨b, hb, hk, hm⟩
    rcases (hmem b).mp hb with ⟨hold, -⟩ | ⟨old, hold, hsame, rfl⟩ | ⟨-, rfl⟩
    · exact .inl ⟨b, hold, hk, hm⟩
    · rw [(hf old).1] at hk
      rcases ((hf old).2.2 m).mp hm with hm | hm
      · exact .inl ⟨old, hold, hk, hm⟩
      · exact .inr ⟨hk.symm.trans hsame, hm⟩
    · exact .inr ⟨hk.symm, (hholds m).mp hm⟩
  rintro (⟨b, hb, hk, hm⟩ | ⟨rfl, hm⟩)
  · by_cases hsame : key b = key a
    · exact ⟨f b, (hmem _).mpr (.inr (.inl ⟨b, hb, hsame, rfl⟩)), (hf b).1.trans hk,
        ((hf b).2.2 m).mpr (.inl hm)⟩
    · exact ⟨b, (hmem b).mpr (.inl ⟨hb, hsame⟩), hk, hm⟩
  by_cases hpres : key a ∈ v.items.map key
  · obtain ⟨old, hold, hsame⟩ := mem_map.mp hpres
    exact ⟨f old, (hmem _).mpr (.inr (.inl ⟨old, hold, hsame, rfl⟩)), (hf old).1.trans hsame,
      ((hf old).2.2 m).mpr (.inr hm)⟩
  · exact ⟨a, (hmem a).mpr (.inr (.inr ⟨hpres, rfl⟩)), rfl, (hholds m).mpr hm⟩

end Registry

/-- A change of the first element that changes a measure of it is a change of the elements. -/
lemma not_perm_modifyFirst (g : α → ℕ) (hfound : items.find? p = some a) (hg : g (f a) ≠ g a) :
    ¬ (modifyFirst p f items).Perm items := by
  have hsum : ((modifyFirst p f items).map g).sum + g a = (items.map g).sum + g (f a) := by
    induction items with
    | nil => cases hfound
    | cons b rest ih =>
      by_cases hb : p b
      · rw [find?_cons_of_pos hb] at hfound
        cases hfound
        simp only [modifyFirst, if_pos hb, map_cons, sum_cons]
        omega
      rw [find?_cons_of_neg hb] at hfound
      simp only [modifyFirst, if_neg hb, map_cons, sum_cons]
      have := ih hfound
      omega
  intro hperm
  have := (hperm.map g).sum_eq
  omega

end FixedVec

end Pos3ql.Foundation
