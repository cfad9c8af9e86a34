import Mathlib

/-!
# Slot pools: chains threaded through one array, with a free list

An arena of fixed capacity whose cells carry a `previous` link. Many owners keep a chain each in
the same array (a chain is named by its newest cell, the *tail*), and the cells nobody holds form
one more chain, the free list. Nothing here knows what the cells store or who the owners are.

* **The operations** `search`, `allocate`, `release`, `releaseChain` follow the links exactly as a
  loop over an array of structures does. A link that leaves the array, or a walk that does not end
  within the array's length, has no result (`none`): in the array version it is a panic or a hang.
* **`Linked p t cells`**: starting at `t` the links spell out `cells` and then end. It determines
  `cells` (`Linked.unique`), so a linked list never repeats a cell (`Linked.nodup`) and is no longer
  than the array (`Linked.length_le`); this is what discharges the fuel.
* **`Owned p tail cells free`**: the separation invariant — every owner's chain and the free list
  are linked and pairwise apart. The structural moves (`unlinkHead`, `shorten`, `putFloating`,
  `linkHead`, …) each keep it, and `Owned.allocate` and `Owned.releaseChain` are assembled from
  them.
-/

namespace Pos3ql.Foundation

open List Function Option

/-- One cell of the array. -/
structure Slot (α : Type) where
  /-- Whether some owner holds the cell. -/
  used : Bool
  /-- The next older cell of the same chain (or of the free list). -/
  previous : Option ℕ
  /-- The payload. -/
  value : α
  deriving DecidableEq, Repr

/-- The array with its free list. -/
structure SlotPool (α : Type) where
  /-- The cells created so far. -/
  slots : List (Slot α)
  /-- The newest free cell. -/
  free : Option ℕ
  /-- The array never grows past this many cells. -/
  capacity : ℕ
  deriving DecidableEq, Repr

namespace SlotPool

variable {α : Type}

/-! ## The operations -/

/-- Overwrite cell `i`. -/
def put (p : SlotPool α) (i : ℕ) (s : Slot α) : SlotPool α :=
  { p with slots := p.slots.set i s }

/-- The newest payload satisfying `hit` on the chain at `t`. -/
def search (p : SlotPool α) (hit : α → Bool) : ℕ → Option ℕ → Option (Option α)
  | _, none => some none
  | 0, some _ => none
  | fuel + 1, some i => do
      let s ← p.slots[i]?
      if hit s.value then some (some s.value) else p.search hit fuel s.previous

/-- Take a cell from the free list, or push a new one; the inner `none` is a full array. -/
def allocate (p : SlotPool α) (previous : Option ℕ) (v : α) : Option (Option (ℕ × SlotPool α)) :=
  match p.free with
  | some i => do
      let s ← p.slots[i]?
      some (some (i, { p with free := s.previous }.put i ⟨true, previous, v⟩))
  | none =>
    if p.slots.length < p.capacity then
      some (some (p.slots.length, { p with slots := p.slots ++ [⟨true, previous, v⟩] }))
    else
      some none

/-- Give cell `i` back to the free list, its payload rewritten by `g`. -/
def release (p : SlotPool α) (g : α → α) (i : ℕ) : Option (SlotPool α) := do
  let s ← p.slots[i]?
  some { p.put i ⟨false, p.free, g s.value⟩ with free := some i }

/-- Give back a whole chain; the flag accumulates whether a payload satisfied `hit`. -/
def releaseChain (g : α → α) (hit : α → Bool) :
    ℕ → SlotPool α → Option ℕ → Bool → Option (SlotPool α × Bool)
  | _, p, none, flag => some (p, flag)
  | 0, _, some _, _ => none
  | fuel + 1, p, some i, flag => do
      let s ← p.slots[i]?
      let q ← p.release g i
      releaseChain g hit fuel q s.previous (flag || hit s.value)

/-- The payloads of a list of cells. -/
def read (p : SlotPool α) (cells : List ℕ) : List α :=
  cells.filterMap fun i => p.slots[i]?.map Slot.value

/-! ## Linked lists of cells -/

/-- The links from `t` spell out `cells` and end. -/
inductive Linked (p : SlotPool α) : Option ℕ → List ℕ → Prop
  | nil : Linked p none []
  | cons {i : ℕ} {s : Slot α} {cells : List ℕ} :
      p.slots[i]? = some s → Linked p s.previous cells → Linked p (some i) (i :: cells)

variable {p q : SlotPool α} {t : Option ℕ} {cells : List ℕ}

lemma Linked.none_iff : p.Linked none cells ↔ cells = [] := by
  constructor
  · intro h
    cases h
    rfl
  · rintro rfl
    exact .nil

lemma Linked.cons_iff {i : ℕ} :
    p.Linked (some i) cells ↔
      ∃ s rest, p.slots[i]? = some s ∧ cells = i :: rest ∧ p.Linked s.previous rest := by
  constructor
  · intro h
    cases h with
    | cons hs hrest => exact ⟨_, _, hs, rfl, hrest⟩
  · rintro ⟨s, rest, hs, rfl, hrest⟩
    exact .cons hs hrest

lemma Linked.of_cons {i : ℕ} (h : p.Linked t (i :: cells)) :
    t = some i ∧ ∃ s, p.slots[i]? = some s ∧ p.Linked s.previous cells := by
  cases h with
  | cons hs hrest => exact ⟨rfl, _, hs, hrest⟩

/-- A chain is given by its tail. -/
lemma Linked.unique {cells' : List ℕ} (h : p.Linked t cells) (h' : p.Linked t cells') :
    cells = cells' := by
  induction h generalizing cells' with
  | nil => exact (Linked.none_iff.mp h').symm
  | cons hs _ ih =>
    obtain ⟨s', rest', hs', rfl, hrest'⟩ := Linked.cons_iff.mp h'
    rw [hs] at hs'
    cases hs'
    rw [ih hrest']

/-- A rest of a chain is a chain. -/
lemma Linked.suffix {keep rest : List ℕ} (h : p.Linked t (keep ++ rest)) :
    ∃ t', p.Linked t' rest := by
  induction keep generalizing t with
  | nil => exact ⟨t, h⟩
  | cons i keep ih =>
    obtain ⟨-, s, -, hrest⟩ := h.of_cons
    exact ih hrest

/-- A linked list repeats no cell: two occurrences would start the same suffix twice. -/
lemma Linked.nodup (h : p.Linked t cells) : cells.Nodup := by
  induction h with
  | nil => exact nodup_nil
  | @cons i s rest hs hrest ih =>
    refine nodup_cons.mpr ⟨fun hi => ?_, ih⟩
    obtain ⟨before, after, rfl⟩ := append_of_mem hi
    obtain ⟨t', ht'⟩ := hrest.suffix
    obtain ⟨rfl, s', hs', hafter⟩ := ht'.of_cons
    rw [hs] at hs'
    cases hs'
    -- the suffix after `i` and the whole rest of the chain both start at `s.previous`
    have := congrArg List.length (hrest.unique hafter)
    simp at this
    omega

/-- The cells of a chain are slots. -/
lemma Linked.lt_length (h : p.Linked t cells) : ∀ i ∈ cells, i < p.slots.length := by
  induction h with
  | nil => simp
  | cons hs _ ih =>
    exact List.forall_mem_cons.mpr ⟨(List.getElem?_eq_some_iff.mp hs).1, ih⟩

lemma Linked.length_le (h : p.Linked t cells) : cells.length ≤ p.slots.length := by
  have hsub : cells.toFinset ⊆ Finset.range p.slots.length := by
    intro i hi
    exact Finset.mem_range.mpr (h.lt_length i (mem_toFinset.mp hi))
  have hcard := Finset.card_le_card hsub
  rwa [toFinset_card_of_nodup h.nodup, Finset.card_range] at hcard

/-- **Frame.** A chain survives any change that leaves the links of its own cells alone. -/
theorem Linked.frame (h : p.Linked t cells)
    (hq : ∀ i ∈ cells, q.slots[i]?.map Slot.previous = p.slots[i]?.map Slot.previous) :
    q.Linked t cells := by
  induction h with
  | nil => exact .nil
  | @cons i s rest hs _ ih =>
    have hi := hq i mem_cons_self
    rw [hs, map_some, map_eq_some_iff] at hi
    obtain ⟨s', hs', hprev⟩ := hi
    refine .cons hs' ?_
    rw [hprev]
    exact ih (forall_mem_cons.mp hq).2

/-- Reading looks at values only. -/
lemma read_congr_value (hq : ∀ i ∈ cells, q.slots[i]?.map Slot.value = p.slots[i]?.map Slot.value) :
    q.read cells = p.read cells := by
  exact filterMap_congr hq

/-- Reading looks at the cells only. -/
lemma read_congr (hq : ∀ i ∈ cells, q.slots[i]? = p.slots[i]?) : q.read cells = p.read cells :=
  read_congr_value fun i hi => by rw [hq i hi]

@[simp] lemma read_nil : p.read [] = [] := rfl

/-- The first cell is read. -/
lemma read_cons {i : ℕ} {s : Slot α} (hs : p.slots[i]? = some s) :
    p.read (i :: cells) = s.value :: p.read cells := by
  simp [read, hs]

@[simp] lemma read_append (keep rest : List ℕ) :
    p.read (keep ++ rest) = p.read keep ++ p.read rest := by
  simp [read]

lemma Linked.length_read (h : p.Linked t cells) : (p.read cells).length = cells.length := by
  induction h with
  | nil => rfl
  | cons hs _ ih => simp [read_cons hs, ih]

/-- **The search is `List.find?`** on the payloads of the chain. -/
theorem Linked.search_eq (h : p.Linked t cells) (hit : α → Bool) {fuel : ℕ}
    (hfuel : cells.length ≤ fuel) :
    p.search hit fuel t = some ((p.read cells).find? hit) := by
  induction h generalizing fuel with
  | nil => cases fuel <;> rfl
  | @cons i s rest hs _ ih =>
    obtain ⟨fuel, rfl⟩ : ∃ n, fuel = n + 1 := ⟨fuel - 1, by simp at hfuel; omega⟩
    simp only [search, hs, bind_eq_bind, bind_some, read_cons hs, find?_cons]
    cases hhit : hit s.value with
    | true => simp
    | false =>
      exact ih (by simpa using hfuel)

/-! ## Separation -/

variable {κ : Type}

/-- **The separation invariant**: every owner's chain and the free list are linked, no cell is on
two chains and none is both owned and free. -/
structure Owned (p : SlotPool α) (tail : κ → Option ℕ) (cells : κ → List ℕ) (free : List ℕ) :
    Prop where
  /-- Every owner's chain is linked from its tail. -/
  linked : ∀ k, p.Linked (tail k) (cells k)
  /-- The free list is linked. -/
  linkedFree : p.Linked p.free free
  /-- A cell has at most one owner. -/
  unique : ∀ {a b i}, i ∈ cells a → i ∈ cells b → a = b
  /-- An owned cell is not free. -/
  apart : ∀ {k i}, i ∈ cells k → i ∉ free

/-- A cell on no chain at all. -/
def Floating (cells : κ → List ℕ) (free : List ℕ) (i : ℕ) : Prop :=
  (∀ k, i ∉ cells k) ∧ i ∉ free

section Moves

variable {tail : κ → Option ℕ} {cells : κ → List ℕ} {free : List ℕ} {i : ℕ} {s : Slot α}

@[simp] lemma put_free (p : SlotPool α) (i : ℕ) (s : Slot α) : (p.put i s).free = p.free := rfl

@[simp] lemma put_length (p : SlotPool α) (i : ℕ) (s : Slot α) :
    (p.put i s).slots.length = p.slots.length := length_set ..

/-- Other slots stay. -/
lemma put_get_ne {j : ℕ} (h : j ≠ i) : (p.put i s).slots[j]? = p.slots[j]? := getElem?_set_ne h.symm

/-- The slot that was put. -/
lemma put_get_self (h : i < p.slots.length) : (p.put i s).slots[i]? = some s := getElem?_set_self h

/-- A slot elsewhere is changed. -/
lemma Linked.put {cells : List ℕ} (h : p.Linked t cells) (hi : i ∉ cells) :
    (p.put i s).Linked t cells := by
  refine h.frame fun j hj => ?_
  rw [put_get_ne (ne_of_mem_of_not_mem hj hi)]

lemma Linked.of_slots {cells : List ℕ} (h : p.Linked t cells) (hq : q.slots = p.slots) :
    q.Linked t cells :=
  h.frame fun j _ => by rw [hq]

/-- A slot in no chain is changed. -/
lemma Owned.putFloating (h : Owned p tail cells free) (hi : Floating cells free i) :
    Owned (p.put i s) tail cells free where
  linked k := (h.linked k).put (hi.1 k)
  linkedFree := h.linkedFree.put hi.2
  unique := h.unique
  apart := h.apart

/-- A slot elsewhere is not read. -/
lemma read_put {cells : List ℕ} (hi : i ∉ cells) : (p.put i s).read cells = p.read cells :=
  read_congr fun _ hj => put_get_ne (ne_of_mem_of_not_mem hj hi)

variable [DecidableEq κ] {k : κ}

/-- The first cell leaves its chain. -/
lemma Owned.unlinkHead (h : Owned p tail cells free) {rest : List ℕ} (hk : cells k = i :: rest)
    (hs : p.slots[i]? = some s) :
    Owned p (update tail k s.previous) (update cells k rest) free ∧
      Floating (update cells k rest) free i := by
  have hlink := h.linked k
  rw [hk] at hlink
  obtain ⟨-, s', hs', hrest⟩ := hlink.of_cons
  cases hs.symm.trans hs'
  have hsub : ∀ a j, j ∈ update cells k rest a → j ∈ cells a := by
    intro a j hj
    by_cases ha : a = k
    · subst ha
      rw [update_self] at hj
      rw [hk]
      exact mem_cons_of_mem _ hj
    · rwa [update_of_ne ha] at hj
  refine ⟨⟨fun a => ?_, h.linkedFree, fun ha hb => h.unique (hsub _ _ ha) (hsub _ _ hb),
    fun ha => h.apart (hsub _ _ ha)⟩, fun a ha => ?_, h.apart (by rw [hk]; simp : i ∈ cells k)⟩
  · by_cases ha : a = k
    · subst ha
      simpa using hrest
    · simpa [update_of_ne ha] using h.linked a
  · obtain rfl := h.unique (hsub _ _ ha) (by rw [hk]; simp)
    rw [update_self] at ha
    exact (nodup_cons.mp hlink.nodup).1 ha

/-- A floating cell whose link is an owner's tail becomes the new head of that chain. -/
lemma Owned.linkHead (h : Owned p tail cells free) (hi : Floating cells free i)
    (hs : p.slots[i]? = some s) (hprev : s.previous = tail k) :
    Owned p (update tail k (some i)) (update cells k (i :: cells k)) free := by
  have hmem : ∀ a j, j ∈ update cells k (i :: cells k) a →
      (j = i ∧ a = k) ∨ (j ≠ i ∧ j ∈ cells a) := by
    intro a j hj
    by_cases ha : a = k
    · subst ha
      rw [update_self, mem_cons] at hj
      rcases hj with rfl | hj
      · exact .inl ⟨rfl, rfl⟩
      · exact .inr ⟨fun h' => hi.1 a (h' ▸ hj), hj⟩
    · rw [update_of_ne ha] at hj
      exact .inr ⟨fun h' => hi.1 a (h' ▸ hj), hj⟩
  refine ⟨fun a => ?_, h.linkedFree, fun {a b j} ha hb => ?_, fun {a j} ha => ?_⟩
  · by_cases ha : a = k
    · subst ha
      simp only [update_self]
      exact .cons hs (hprev ▸ h.linked a)
    · simpa [update_of_ne ha] using h.linked a
  · rcases hmem a j ha with ⟨rfl, rfl⟩ | ⟨hne, ha⟩
    · rcases hmem b j hb with ⟨-, rfl⟩ | ⟨hne, -⟩
      · rfl
      · exact absurd rfl hne
    · rcases hmem b j hb with ⟨rfl, -⟩ | ⟨-, hb⟩
      · exact absurd rfl hne
      · exact h.unique ha hb
  · rcases hmem a j ha with ⟨rfl, -⟩ | ⟨-, ha⟩
    · exact hi.2
    · exact h.apart ha

/-- A chain is cut. -/
lemma Linked.cut {keep drop : List ℕ} (h : p.Linked t (keep ++ i :: drop))
    (hs : p.slots[i]? = some s) :
    (p.put i { s with previous := none }).Linked t (keep ++ [i]) := by
  have hlt : i < p.slots.length := (List.getElem?_eq_some_iff.mp hs).1
  induction keep generalizing t with
  | nil =>
    obtain ⟨rfl, -⟩ := h.of_cons
    exact .cons (put_get_self hlt) .nil
  | cons j keep ih =>
    have hne : j ≠ i := by
      rintro rfl
      exact (nodup_cons.mp h.nodup).1 (by simp)
    obtain ⟨rfl, s', hs', hrest⟩ := h.of_cons
    refine .cons (s := s') ?_ (ih hrest)
    rw [put_get_ne hne, hs']

/-- Shortening one owner's chain to some of its cells keeps separation and leaves the others
floating. -/
lemma Owned.shorten (h : Owned p tail cells free) {keep drop : List ℕ} {t' : Option ℕ}
    (hk : cells k = keep ++ drop) (hq : q.free = p.free)
    (hslots : ∀ j, j ∉ cells k → q.slots[j]? = p.slots[j]?) (hkeep : q.Linked t' keep) :
    Owned q (update tail k t') (update cells k keep) free ∧
      ∀ j ∈ drop, Floating (update cells k keep) free j := by
  have hsub : ∀ a j, j ∈ update cells k keep a → j ∈ cells a := by
    intro a j hj
    by_cases ha : a = k
    · subst ha
      rw [update_self] at hj
      rw [hk]
      exact mem_append_left _ hj
    · rwa [update_of_ne ha] at hj
  have hnodup := (h.linked k).nodup
  rw [hk] at hnodup
  refine ⟨⟨fun a => ?_, ?_, fun ha hb => h.unique (hsub _ _ ha) (hsub _ _ hb),
    fun ha => h.apart (hsub _ _ ha)⟩, fun j hj => ⟨fun a ha => ?_, ?_⟩⟩
  · by_cases ha : a = k
    · subst ha
      simpa using hkeep
    · simp only [update_of_ne ha]
      refine (h.linked a).frame fun j hj => ?_
      rw [hslots j fun hjk => ha (h.unique hj hjk)]
  · rw [hq]
    refine h.linkedFree.frame fun j hj => ?_
    rw [hslots j fun hjk => h.apart hjk hj]
  · obtain rfl := h.unique (hsub _ _ ha) (hk ▸ mem_append_right _ hj)
    rw [update_self] at ha
    exact (disjoint_of_nodup_append hnodup) ha hj
  · exact h.apart (hk ▸ mem_append_right _ hj : j ∈ cells k)

/-! ## Specifications of the operations -/

omit [DecidableEq κ] in
/-- A slot in no chain becomes free. -/
lemma Owned.release (h : Owned p tail cells free) (hi : Floating cells free i)
    (hs : p.slots[i]? = some s) (g : α → α) :
    ∃ q, p.release g i = some q ∧ Owned q tail cells (i :: free) ∧
      (∀ j, j ≠ i → q.slots[j]? = p.slots[j]?) ∧ q.slots.length = p.slots.length := by
  have hlt : i < p.slots.length := (List.getElem?_eq_some_iff.mp hs).1
  have hput := h.putFloating (s := ⟨false, p.free, g s.value⟩) hi
  refine ⟨{ p.put i ⟨false, p.free, g s.value⟩ with free := some i }, ?_, ⟨fun k => ?_, ?_,
    h.unique, fun hk => ?_⟩, fun j hj => put_get_ne hj, put_length ..⟩
  · simp [SlotPool.release, hs]
  · exact (hput.linked k).of_slots rfl
  · exact .cons (put_get_self hlt) (hput.linkedFree.of_slots rfl)
  · rintro (_ | hmem)
    · exact hi.1 _ hk
    · exact h.apart hk (by assumption)

omit [DecidableEq κ] in
/-- **Releasing a floating chain** succeeds, touches nothing else, and reports whether a released
payload satisfied `hit`. Induction on the chain. -/
theorem Owned.releaseChain {drop : List ℕ} (h : Owned p tail cells free) (hdrop : p.Linked t drop)
    (hfloat : ∀ j ∈ drop, Floating cells free j) (g : α → α) (hit : α → Bool) {fuel : ℕ}
    (hfuel : drop.length ≤ fuel) (flag : Bool) :
    ∃ q, SlotPool.releaseChain g hit fuel p t flag = some (q, flag || (p.read drop).any hit) ∧
      Owned q tail cells (drop.reverse ++ free) ∧
      (∀ j, j ∉ drop → q.slots[j]? = p.slots[j]?) ∧ q.slots.length = p.slots.length := by
  induction drop generalizing p t free fuel flag with
  | nil =>
    cases hdrop
    refine ⟨p, ?_, by simpa using h, fun _ _ => rfl, rfl⟩
    cases fuel <;> simp [SlotPool.releaseChain]
  | cons i drop ih =>
    obtain ⟨rfl, s, hs, hrest⟩ := hdrop.of_cons
    obtain ⟨fuel, rfl⟩ : ∃ n, fuel = n + 1 := ⟨fuel - 1, by simp at hfuel; omega⟩
    have hnot : i ∉ drop := (nodup_cons.mp hdrop.nodup).1
    obtain ⟨q, hq, howned, hframe, hlen⟩ := h.release (hfloat i mem_cons_self) hs g
    have hrest' : q.Linked s.previous drop :=
      hrest.frame fun j hj => by rw [hframe j (ne_of_mem_of_not_mem hj hnot)]
    have hfloat' : ∀ j ∈ drop, Floating cells (i :: free) j := fun j hj =>
      ⟨(hfloat j (mem_cons_of_mem _ hj)).1, by
        have := (hfloat j (mem_cons_of_mem _ hj)).2
        simpa [ne_of_mem_of_not_mem hj hnot] using this⟩
    obtain ⟨r, hr, hrowned, hrframe, hrlen⟩ :=
      ih howned hrest' hfloat' (by simpa using hfuel) (flag || hit s.value)
    have hread : q.read drop = p.read drop :=
      read_congr fun j hj => hframe j (ne_of_mem_of_not_mem hj hnot)
    refine ⟨r, ?_, by simpa using hrowned, fun j hj => ?_, hrlen.trans hlen⟩
    · simp [SlotPool.releaseChain, hs, hq, hr, read_cons hs, hread, Bool.or_assoc]
    · rw [mem_cons, not_or] at hj
      rw [hrframe j hj.2, hframe j hj.1]

/-- **Allocation** either reports a full array or puts a fresh cell at the head of owner `k`'s
chain and leaves every other cell alone. -/
theorem Owned.allocate (h : Owned p tail cells free) (k : κ) (v : α) :
    p.allocate (tail k) v = some none ∨ ∃ i q free', p.allocate (tail k) v = some (some (i, q)) ∧
        Owned q (update tail k (some i)) (update cells k (i :: cells k)) free' ∧
        q.slots[i]? = some ⟨true, tail k, v⟩ ∧ (∀ a, i ∉ cells a) ∧
        ∀ j, j ≠ i → q.slots[j]? = p.slots[j]? := by
  rcases hfree : p.free with _ | i
  · -- the free list is empty: push a new cell, whose index no chain can hold
    by_cases hcap : p.slots.length < p.capacity
    · right
      have hfresh : ∀ a, p.slots.length ∉ cells a := fun a ha =>
        absurd ((h.linked a).lt_length _ ha) (lt_irrefl _)
      have hget : ∀ j, j ≠ p.slots.length → (p.slots ++ [⟨true, tail k, v⟩])[j]? = p.slots[j]? := by
        intro j hj
        rcases lt_or_gt_of_ne hj with hj | hj
        · exact getElem?_append_left hj
        · rw [getElem?_eq_none (by simp; omega), getElem?_eq_none (by omega)]
      have hbase : Owned { p with slots := p.slots ++ [⟨true, tail k, v⟩] } tail cells free := by
        refine ⟨fun a => (h.linked a).frame fun j hj => ?_, h.linkedFree.frame fun j hj => ?_,
          h.unique, h.apart⟩
        · rw [hget j (ne_of_lt ((h.linked a).lt_length j hj))]
        · rw [hget j (ne_of_lt (h.linkedFree.lt_length j hj))]
      have hnew : (p.slots ++ [(⟨true, tail k, v⟩ : Slot α)])[p.slots.length]? =
          some ⟨true, tail k, v⟩ := getElem?_concat_length ..
      refine ⟨p.slots.length, _, free, ?_, hbase.linkHead ⟨hfresh, fun hmem => ?_⟩ hnew rfl,
        hnew, hfresh, hget⟩
      · simp [SlotPool.allocate, hfree, hcap]
      · exact absurd (h.linkedFree.lt_length _ hmem) (lt_irrefl _)
    · left
      simp [SlotPool.allocate, hfree, hcap]
  · right
    have hlink := h.linkedFree
    rw [hfree] at hlink
    obtain ⟨s, rest, hs, rfl, hrest⟩ := Linked.cons_iff.mp hlink
    have hlt : i < p.slots.length := (List.getElem?_eq_some_iff.mp hs).1
    have hfloat : Floating cells rest i :=
      ⟨fun a ha => h.apart ha mem_cons_self, (List.nodup_cons.mp hlink.nodup).1⟩
    have hpop : Owned { p with free := s.previous } tail cells rest :=
      ⟨fun a => (h.linked a).of_slots rfl, hrest.of_slots rfl, h.unique,
        fun ha hmem => h.apart ha (mem_cons_of_mem _ hmem)⟩
    have hnew : ({ p with free := s.previous }.put i ⟨true, tail k, v⟩).slots[i]? =
        some ⟨true, tail k, v⟩ := put_get_self hlt
    refine ⟨i, _, rest, ?_, (hpop.putFloating hfloat).linkHead hfloat hnew rfl, hnew, hfloat.1,
      fun j hj => put_get_ne hj⟩
    simp [SlotPool.allocate, hfree, hs]

end Moves

end SlotPool

end Pos3ql.Foundation
