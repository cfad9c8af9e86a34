import Pos3ql.Storage.RowPublication

/-!
# The registry of serializable transactions

A serializable transaction registers the generation of every table at its first snapshot, marks the
tables it reads, and is refused at commit when a marked table has moved on. All registrations lie in
one vector of fixed capacity, one entry for each table.

* `beginSerializable`, `recordSerializableRead`, `validateSerializable`, `releaseSerializable`.
* `Balanced`: the entries are whole registrations, each of them one entry for every table.
* **`Balanced.step`**, **`Balanced.run`**: every call keeps that, if the capacity is a whole number
  of registrations, as `Storage::new` makes it.
* `Watches.step`, `Watches.run`: what a registration remembers until it is released.

The registry reads the generation counters of the tables only, so a commit is a call that advances
one: the publication of a row, or the marking of a table as changed.

Source: `storage/mod.rs` (`begin_serializable` to `release_serializable`, `mark_dirty`),
`storage/publication_generations.rs`.
-/

namespace Pos3ql

open Foundation List FixedVec

/-! ## The registry -/

/-- Source: the elements of `serializable` in `SnapshotState`. -/
structure SerializableEntry where
  transaction : ℕ
  table : ℕ
  generation : ℕ
  read : Bool
  deriving DecidableEq, Repr

/-- Whose entry it is, and for which table. -/
def SerializableEntry.key (e : SerializableEntry) : ℕ × ℕ := (e.transaction, e.table)

/-- Source: `preview_unreserved_generation`. -/
def TablePublication.previewUnreservedGeneration (p : TablePublication) : Except SqlError ℕ :=
  if u64Max < p.generation + p.reservedGenerations + 1 then
    .error ⟨.programLimitExceeded, "table publication generations exhausted"⟩
  else .ok (p.generation + 1)

/-- Source: `mark_dirty`. -/
def TablePublication.markDirty (p : TablePublication) : Except SqlError TablePublication :=
  p.previewUnreservedGeneration.map fun generation => { p with generation }

/-- The registry with the tables it watches. Source: `Storage`, `tables` and `serializable`. -/
structure SerializableRegistry where
  entries : FixedVec SerializableEntry
  tableCount : ℕ
  publication : ℕ → TablePublication

namespace SerializableRegistry

/-- A registry without registrations. -/
def empty (tableCount capacity : ℕ) (publication : ℕ → TablePublication) : SerializableRegistry :=
  ⟨.empty capacity, tableCount, publication⟩

/-- The registry of a server. Source: `Storage::new` (`serializable_snapshots`). -/
def new (tableCount transactionCapacity : ℕ) (publication : ℕ → TablePublication) :
    SerializableRegistry :=
  empty tableCount (transactionCapacity * tableCount) publication

/-- Source: the loop of `begin_serializable`. -/
def pushTables (publication : ℕ → TablePublication) (transaction : ℕ) :
    List ℕ → FixedVec SerializableEntry → FixedVec SerializableEntry × Except SqlError Unit
  | [], entries => (entries, .ok ())
  | table :: tables, entries =>
    match entries.push ⟨transaction, table, (publication table).generation, false⟩ with
    | some entries => pushTables publication transaction tables entries
    | none => (entries, .error ⟨.programLimitExceeded,
        s!"serializable snapshot registry is full ({entries.capacity} table snapshots)"⟩)

variable (r : SerializableRegistry)

/-- The transaction has an entry. -/
def registered (transaction : ℕ) : Bool :=
  r.entries.items.any fun entry => entry.transaction == transaction

/-- Source: `begin_serializable`. -/
def beginSerializable (transaction : ℕ) : SerializableRegistry × Except SqlError Unit :=
  if r.registered transaction then (r, .ok ())
  else
    let (entries, result) := pushTables r.publication transaction (range r.tableCount) r.entries
    ({ r with entries }, result)

/-- Source: `record_serializable_read`. -/
def recordSerializableRead (transaction table : ℕ) : SerializableRegistry :=
  { r with
    entries :=
      r.entries.updateFirst (fun entry => entry.transaction == transaction && entry.table == table)
      fun entry => { entry with read := true } }

/-- Source: `validate_serializable`. -/
def validateSerializable (transaction : ℕ) : Except SqlError Unit :=
  if r.entries.items.any fun entry => entry.transaction == transaction && entry.read &&
      (r.publication entry.table).generation != entry.generation then
    .error ⟨.serializationFailure,
      "could not serialize access due to read/write dependencies among transactions"⟩
  else .ok ()

/-- Source: `release_serializable`. -/
def releaseSerializable (transaction : ℕ) : SerializableRegistry :=
  { r with entries := (r.entries.removeAll fun entry => entry.transaction == transaction).1 }

/-- Replace the counters of one table. -/
def setPublication (table : ℕ) (p : TablePublication) : SerializableRegistry :=
  { r with publication := Function.update r.publication table p }

end SerializableRegistry

/-! ## Histories -/

/-- A call on the registry, or a commit that touches a table. -/
inductive SerializableCall
  | beginSerializable (transaction : ℕ)
  | recordRead (transaction table : ℕ)
  | validate (transaction : ℕ)
  | release (transaction : ℕ)
  | reserveGenerations (table transaction count : ℕ)
  | publishRow (table transaction : ℕ)
  | markDirty (table : ℕ)
  deriving DecidableEq, Repr

namespace SerializableRegistry

/-- The counters a call leaves for the table it commits a change to. -/
def changed (r : SerializableRegistry) : SerializableCall → Option (ℕ × TablePublication)
  | .publishRow table transaction =>
    match (r.publication table).previewReservedGeneration transaction with
    | .ok _ => some (table, (r.publication table).publishReservedGeneration transaction)
    | .error _ => none
  | .markDirty table => (r.publication table).markDirty.toOption.map fun p => (table, p)
  | _ => none

/-- **The call is a commit that changes the table.** -/
def Changes (r : SerializableRegistry) (call : SerializableCall) (table : ℕ) : Prop :=
  ∃ p, r.changed call = some (table, p)

/-- **One call.** A commit without room in the counter is refused and changes nothing. -/
def perform (r : SerializableRegistry) : SerializableCall → SerializableRegistry
  | .beginSerializable transaction => (r.beginSerializable transaction).1
  | .recordRead transaction table => r.recordSerializableRead transaction table
  | .validate _ => r
  | .release transaction => r.releaseSerializable transaction
  | .reserveGenerations table transaction count =>
    match (r.publication table).reserveGenerations transaction count with
    | .ok p => r.setPublication table p
    | .error _ => r
  | .publishRow table transaction =>
    match r.changed (.publishRow table transaction) with
    | some (table, p) => r.setPublication table p
    | none => r
  | .markDirty table =>
    match r.changed (.markDirty table) with
    | some (table, p) => r.setPublication table p
    | none => r

/-- **A history.** -/
def run (r : SerializableRegistry) (calls : List SerializableCall) : SerializableRegistry :=
  calls.foldl perform r

variable {r : SerializableRegistry} {transaction table : ℕ}

@[simp] lemma run_nil : r.run [] = r := rfl

@[simp] lemma run_cons (call : SerializableCall) (calls : List SerializableCall) :
    r.run (call :: calls) = (r.perform call).run calls := rfl

lemma run_append (first second : List SerializableCall) :
    r.run (first ++ second) = (r.run first).run second := by
  simp [run]

/-! ## The counters -/

variable {call : SerializableCall} {generation : ℕ}

lemma changed_generation {p : TablePublication} (h : r.changed call = some (table, p)) :
    p.generation = (r.publication table).generation + 1 := by
  cases call with
  | publishRow t transaction =>
    simp only [changed] at h
    split at h
    · cases h
      rfl
    · simp at h
  | markDirty t =>
    obtain ⟨q, hq, heq⟩ := Option.map_eq_some_iff.mp h
    cases heq
    unfold TablePublication.markDirty TablePublication.previewUnreservedGeneration at hq
    split at hq
    · simp [Except.map, Except.toOption] at hq
    · simp only [Except.map, Except.toOption, Option.some.injEq] at hq
      rw [← hq]
  | beginSerializable _ | recordRead _ _ | validate _ | release _ | reserveGenerations _ _ _ =>
    simp [changed] at h

/-- What a call does to the counters: it commits a change to one table, or leaves all generations
alone. -/
lemma perform_generation (r : SerializableRegistry) (call : SerializableCall) (table : ℕ) :
    ((r.perform call).publication table).generation = (r.publication table).generation +
      (if r.changed call = none then 0 else if ((r.changed call).map Prod.fst) = some table then 1
        else 0) := by
  have hset : ∀ {t : ℕ} {p : TablePublication}, r.changed call = some (t, p) →
      ((r.setPublication t p).publication table).generation =
        (r.publication table).generation + if t = table then 1 else 0 := by
    intro t p h
    unfold setPublication
    by_cases ht : t = table
    · subst ht
      simp [changed_generation h]
    · simp [Function.update_of_ne (Ne.symm ht), ht]
  cases call with
  | publishRow t transaction =>
    rcases hchg : r.changed (.publishRow t transaction) with _ | ⟨u, p⟩
    · simp [perform, hchg]
    · simp [perform, hchg, hset hchg]
  | markDirty t =>
    rcases hchg : r.changed (.markDirty t) with _ | ⟨u, p⟩
    · simp [perform, hchg]
    · simp [perform, hchg, hset hchg]
  | reserveGenerations t u n =>
    simp only [perform, changed, if_true, TablePublication.reserveGenerations]
    split
    · rename_i p hp
      split at hp
      · cases hp
      cases hp
      by_cases ht : table = t
      · subst ht
        simp [setPublication]
      · simp [setPublication, Function.update_of_ne ht]
    · rfl
  | beginSerializable t =>
    simp only [perform, beginSerializable]
    split <;> rfl
  | recordRead t u => rfl
  | validate t => rfl
  | release t => rfl

lemma le_perform_generation (r : SerializableRegistry) (call : SerializableCall) (table : ℕ) :
    (r.publication table).generation ≤ ((r.perform call).publication table).generation := by
  rw [perform_generation]
  exact Nat.le_add_right _ _

lemma le_run_generation (r : SerializableRegistry) (calls : List SerializableCall) (table : ℕ) :
    (r.publication table).generation ≤ ((r.run calls).publication table).generation := by
  induction calls generalizing r with
  | nil => exact le_rfl
  | cons call calls ih => exact (le_perform_generation r call table).trans (ih _)

lemma lt_perform_generation (h : r.Changes call table) :
    (r.publication table).generation < ((r.perform call).publication table).generation := by
  obtain ⟨p, hp⟩ := h
  rw [perform_generation, hp]
  simp

/-! ## Whole registrations -/

lemma pushTables_of_room (pub : ℕ → TablePublication) (tx : ℕ) (tables : List ℕ)
    (es : FixedVec SerializableEntry) (hroom : es.items.length + tables.length ≤ es.capacity) :
    ∃ entries', pushTables pub tx tables es = (entries', .ok ()) ∧ entries'.capacity = es.capacity ∧
      entries'.items =
        es.items ++ tables.map fun table => ⟨tx, table, (pub table).generation, false⟩ := by
  induction tables generalizing es with
  | nil => exact ⟨es, rfl, rfl, by simp⟩
  | cons table tables ih =>
    rw [length_cons] at hroom
    have hlt : es.items.length < es.capacity := by omega
    obtain ⟨pushed, hpush⟩ : ∃ pushed,
        es.push ⟨tx, table, (pub table).generation, false⟩ = some pushed :=
      ⟨_, dif_pos hlt⟩
    have hitems := push_items hpush
    have hcapacity : pushed.capacity = es.capacity := by
      rw [FixedVec.push, dif_pos hlt] at hpush
      rw [← Option.some.inj hpush]
    obtain ⟨entries', hrest, hcap', hitems'⟩ := ih pushed (by
      rw [hitems, hcapacity, length_append, length_singleton]
      omega)
    refine ⟨entries', ?_, hcap'.trans hcapacity, ?_⟩
    · simp only [pushTables, hpush, hrest]
    · rw [hitems', hitems, map_cons, append_assoc, singleton_append]

lemma pushTables_of_full (pub : ℕ → TablePublication) (tx : ℕ) {tables : List ℕ} (hne : tables ≠ [])
    (es : FixedVec SerializableEntry) (hfull : es.capacity ≤ es.items.length) :
    ∃ e, pushTables pub tx tables es =
      (es, .error e) := by
  rcases tables with _ | ⟨table, tables⟩
  · exact absurd rfl hne
  · refine ⟨⟨.programLimitExceeded,
      s!"serializable snapshot registry is full ({es.capacity} table snapshots)"⟩, ?_⟩
    simp only [pushTables, push_eq_none_iff.mpr hfull]

/-- The keys of a list of registrations. -/
def registrations (tableCount : ℕ) (owners : List ℕ) : List (ℕ × ℕ) :=
  owners.flatMap fun owner => (range tableCount).map fun table => (owner, table)

lemma mem_registrations {tableCount : ℕ} {owners : List ℕ} {key : ℕ × ℕ} :
    key ∈ registrations tableCount owners ↔ key.1 ∈ owners ∧ key.2 < tableCount := by
  rw [← mem_range]
  exact mem_product

lemma length_registrations (tableCount : ℕ) (owners : List ℕ) :
    (registrations tableCount owners).length = owners.length * tableCount := by
  refine (length_product owners (range tableCount)).trans ?_
  rw [length_range]

lemma registrations_filter (tcap tx : ℕ) (owners : List ℕ) :
    (registrations tcap owners).filter (fun key => !(key.1 == tx)) =
      registrations tcap (owners.filter fun owner => !(owner == tx)) := by
  induction owners with
  | nil => rfl
  | cons owner owners ih =>
    have hcons : ∀ (o : ℕ) (os : List ℕ), registrations tcap (o :: os) =
        (range tcap).map (fun table => (o, table)) ++ registrations tcap os :=
      fun _ _ => rfl
    rw [hcons, filter_append, ih, filter_map]
    by_cases h : owner = tx
    · simp [h]
    · have hb : (owner == tx) = false := beq_eq_false_iff_ne.mpr h
      simp [Function.comp_def, hb, hcons]

lemma nodup_registrations {tcap : ℕ} {owners : List ℕ} (h : owners.Nodup) :
    (registrations tcap owners).Nodup := h.product nodup_range

/-- **The entries are whole registrations**, in any order, and the capacity is a whole number of
them. -/
structure Balanced (r : SerializableRegistry) : Prop where
  entries : ∃ owners : List ℕ, owners.Nodup ∧
    (r.entries.items.map SerializableEntry.key).Perm (registrations r.tableCount owners)
  capacity : ∃ n, r.entries.capacity = n * r.tableCount

lemma balanced_new (tcap transactionCapacity : ℕ) (pub : ℕ → TablePublication) :
    (new tcap transactionCapacity pub).Balanced :=
  ⟨⟨[], nodup_nil, List.Perm.refl _⟩, ⟨transactionCapacity, rfl⟩⟩

lemma registered_iff :
    r.registered transaction ↔
      ∃ entry ∈ r.entries.items, entry.transaction = transaction := by
  simp [registered]

section

variable (h : r.Balanced)
include h

lemma Balanced.nodup : (r.entries.items.map SerializableEntry.key).Nodup := by
  obtain ⟨owners, hnodup, hperm⟩ := h.entries
  exact hperm.nodup_iff.mpr (nodup_registrations hnodup)

lemma Balanced.covers (hreg : r.registered transaction) (htable : table < r.tableCount) :
    ∃ entry ∈ r.entries.items, entry.transaction = transaction ∧ entry.table = table := by
  obtain ⟨owners, -, hperm⟩ := h.entries
  obtain ⟨entry, hentry, rfl⟩ := registered_iff.mp hreg
  have howner := (mem_registrations.mp (hperm.mem_iff.mp (mem_map_of_mem hentry))).1
  have hkey : (entry.transaction, table) ∈ r.entries.items.map SerializableEntry.key :=
    hperm.mem_iff.mpr (mem_registrations.mpr ⟨howner, htable⟩)
  obtain ⟨other, hother, heq⟩ := mem_map.mp hkey
  exact ⟨other, hother, (Prod.mk.inj heq).1, (Prod.mk.inj heq).2⟩

/-- **What `begin_serializable` does in a balanced registry**: nothing for a transaction that is
registered, a whole registration when there is room, and otherwise nothing again. -/
theorem Balanced.beginSerializable_cases (tx : ℕ) :
    (r.registered tx ∧ r.beginSerializable tx = (r, .ok ())) ∨
      (r.registered tx = false ∧ ∃ r', r.beginSerializable tx = (r', .ok ()) ∧
        r'.tableCount = r.tableCount ∧ r'.publication = r.publication ∧
        r'.entries.capacity = r.entries.capacity ∧
        r'.entries.items = r.entries.items ++ (range r.tableCount).map fun table =>
          ⟨tx, table, (r.publication table).generation, false⟩) ∨
      (r.registered tx = false ∧ ∃ e, r.beginSerializable tx = (r, .error e)) := by
  rcases hreg : r.registered tx with _ | _
  · obtain ⟨owners, -, hperm⟩ := h.entries
    obtain ⟨n, hcapacity⟩ := h.capacity
    have hlen : r.entries.items.length = owners.length * r.tableCount := by
      rw [← length_registrations, ← hperm.length_eq, length_map]
    by_cases hroom : r.entries.items.length + r.tableCount ≤ r.entries.capacity
    · obtain ⟨entries, hpush, hcap, hitems⟩ := pushTables_of_room r.publication tx
        (range r.tableCount) r.entries (by rwa [length_range])
      refine .inr (.inl ⟨rfl, { r with entries }, ?_, rfl, rfl, hcap, hitems⟩)
      simp only [beginSerializable, hreg, hpush, Bool.false_eq_true, if_false]
    -- whole registrations in a capacity of whole registrations: no room for one is no room at all
    have hfull : r.entries.capacity ≤ r.entries.items.length := by
      rw [hlen, hcapacity] at hroom ⊢
      have hle : n ≤ owners.length := by
        by_contra hlt
        refine hroom ?_
        rw [← Nat.succ_mul]
        exact Nat.mul_le_mul_right _ (by omega)
      exact Nat.mul_le_mul_right _ hle
    have hne : range r.tableCount ≠ [] := by
      intro hnil
      rw [range_eq_nil] at hnil
      rw [hnil] at hroom
      exact hroom (by simpa using r.entries.bound)
    obtain ⟨e, hpush⟩ := pushTables_of_full r.publication tx hne r.entries hfull
    refine .inr (.inr ⟨rfl, e, ?_⟩)
    simp only [beginSerializable, hreg, hpush, Bool.false_eq_true, if_false]
  · exact .inl ⟨rfl, by simp only [beginSerializable, hreg, if_true]⟩

/-- A read marks the one entry of the transaction for the table. -/
lemma Balanced.recordRead_items (tx tbl : ℕ) :
    (r.recordSerializableRead tx tbl).entries.items = r.entries.items.map fun entry =>
      if entry.transaction == tx && entry.table == tbl then { entry with read := true }
      else entry := by
  refine modifyFirst_eq_map _ _ ((pairwise_map.mp h.nodup).imp fun {a b} hne hboth => hne ?_)
  simp only [Bool.and_eq_true, beq_iff_eq] at hboth
  unfold SerializableEntry.key
  rw [hboth.1.1, hboth.1.2, hboth.2.1, hboth.2.2]

/-- **Every call keeps the registrations whole.** -/
theorem Balanced.step (call : SerializableCall) : (r.perform call).Balanced := by
  have hset : ∀ t p, (r.setPublication t p).Balanced := fun t p => ⟨h.entries, h.capacity⟩
  cases call with
  | beginSerializable transaction =>
    rcases h.beginSerializable_cases transaction with
      ⟨-, hbegin⟩ | ⟨hreg, r', hbegin, hcount, -, hcap, hitems⟩ | ⟨-, e, hbegin⟩
    · simp only [perform, hbegin]
      exact h
    · obtain ⟨owners, hnodup, hperm⟩ := h.entries
      obtain ⟨n, hcapacity⟩ := h.capacity
      simp only [perform, hbegin]
      refine ⟨?_, n, by rw [hcap, hcapacity, hcount]⟩
      have hkeys : r'.entries.items.map SerializableEntry.key =
          r.entries.items.map SerializableEntry.key ++
            registrations r.tableCount [transaction] := by
        rw [hitems]
        simp [registrations, SerializableEntry.key, Function.comp_def]
      by_cases howner : transaction ∈ owners
      · -- without tables a registration has no entries
        have hzero : r.tableCount = 0 := by
          by_contra hne
          have hkey : (transaction, 0) ∈ r.entries.items.map SerializableEntry.key :=
            hperm.mem_iff.mpr (mem_registrations.mpr ⟨howner, Nat.pos_of_ne_zero hne⟩)
          obtain ⟨entry, hentry, heq⟩ := mem_map.mp hkey
          have := registered_iff.mpr ⟨entry, hentry, (Prod.mk.inj heq).1⟩
          rw [hreg] at this
          cases this
        refine ⟨owners, hnodup, ?_⟩
        rw [hkeys, hcount]
        simpa [registrations, hzero] using hperm
      · refine ⟨owners ++ [transaction], ?_, ?_⟩
        · rw [nodup_append]
          refine ⟨hnodup, nodup_singleton _, ?_⟩
          rintro a ha b hb rfl
          exact howner (mem_singleton.mp hb ▸ ha)
        · rw [hkeys, hcount]
          simp only [registrations, flatMap_append] at hperm ⊢
          exact hperm.append_right _
    · simp only [perform, hbegin]
      exact h
  | recordRead transaction table =>
    obtain ⟨owners, hnodup, hperm⟩ := h.entries
    refine ⟨⟨owners, hnodup, ?_⟩, h.capacity⟩
    rw [perform, h.recordRead_items, map_map]
    refine .trans (.of_eq (map_congr_left fun entry _ => ?_)) hperm
    simp only [Function.comp_apply]
    split <;> rfl
  | validate transaction => exact h
  | release transaction =>
    obtain ⟨owners, hnodup, hperm⟩ := h.entries
    refine ⟨⟨owners.filter fun owner => !(owner == transaction), hnodup.filter _, ?_⟩, h.capacity⟩
    have hremoved := (removeAll_perm r.entries fun entry =>
      entry.transaction == transaction).map SerializableEntry.key
    refine hremoved.trans ?_
    rw [← registrations_filter]
    have hfilter := hperm.filter fun key => !(key.1 == transaction)
    rwa [filter_map] at hfilter
  | reserveGenerations _ _ _ | publishRow _ _ | markDirty _ =>
    simp only [perform]
    split
    · exact hset _ _
    · exact h

/-- **Every history keeps the registrations whole.** -/
theorem Balanced.run (calls : List SerializableCall) : (r.run calls).Balanced := by
  induction calls generalizing r with
  | nil => exact h
  | cons call calls ih => exact ih (h.step call)

lemma tableCount_perform (call : SerializableCall) :
    (r.perform call).tableCount = r.tableCount := by
  cases call with
  | beginSerializable transaction =>
    rcases h.beginSerializable_cases transaction with
      ⟨-, hbegin⟩ | ⟨-, r', hbegin, hcount, -⟩ | ⟨-, e, hbegin⟩
    · simp only [perform, hbegin]
    · simp only [perform, hbegin, hcount]
    · simp only [perform, hbegin]
  | recordRead t u => rfl
  | validate t => rfl
  | release t => rfl
  | reserveGenerations _ _ _ | publishRow _ _ | markDirty _ =>
    simp only [perform]
    split <;> rfl

lemma tableCount_run (calls : List SerializableCall) : (r.run calls).tableCount = r.tableCount := by
  induction calls generalizing r with
  | nil => rfl
  | cons call calls ih => rw [run_cons, ih (h.step call), tableCount_perform h]

end

/-! ## What a registration remembers -/

/-- The transaction holds an entry for the table with the generation it registered, marked as read
if it has read the table. -/
def Watches (r : SerializableRegistry) (transaction table generation : ℕ) (read : Bool) : Prop :=
  ∃ entry ∈ r.entries.items, entry.key = (transaction, table) ∧ entry.generation = generation ∧
    (read = true → entry.read = true)

/-- **One call**: the entry stays until its transaction is released, and a read of the table marks
it. -/
theorem Watches.step {read : Bool} (hbal : r.Balanced)
    (h : r.Watches transaction table generation read) (hheld : call ≠ .release transaction) :
    (r.perform call).Watches transaction table generation
      (read || call == .recordRead transaction table) := by
  obtain ⟨entry, hentry, hkey, hgen, hread⟩ := h
  -- calls that leave the entry in place
  have hkept : ∀ {r' : SerializableRegistry}, entry ∈ r'.entries.items →
      (call == .recordRead transaction table) = false →
      r'.Watches transaction table generation (read || call == .recordRead transaction table) := by
    intro r' hmem hcall
    exact ⟨entry, hmem, hkey, hgen, by rwa [hcall, Bool.or_false]⟩
  cases call with
  | beginSerializable t =>
    refine hkept ?_ rfl
    rcases hbal.beginSerializable_cases t with
      ⟨-, hbegin⟩ | ⟨-, r', hbegin, -, -, -, hitems⟩ | ⟨-, e, hbegin⟩
    · simpa only [perform, hbegin] using hentry
    · simp only [perform, hbegin, hitems]
      exact mem_append_left _ hentry
    · simpa only [perform, hbegin] using hentry
  | recordRead t u =>
    have hmem : (if entry.transaction == t && entry.table == u then { entry with read := true }
        else entry) ∈ (r.perform (.recordRead t u)).entries.items := by
      rw [perform, hbal.recordRead_items]
      exact mem_map_of_mem hentry
    obtain ⟨rfl, rfl⟩ := Prod.mk.inj hkey
    by_cases hmine : entry.transaction = t ∧ entry.table = u
    · rw [if_pos (by simp [hmine])] at hmem
      exact ⟨_, hmem, rfl, hgen, fun _ => rfl⟩
    · have hcall : ((SerializableCall.recordRead t u) ==
          .recordRead entry.transaction entry.table) = false := by
        refine beq_eq_false_iff_ne.mpr fun heq => hmine ?_
        obtain ⟨rfl, rfl⟩ := SerializableCall.recordRead.inj heq
        exact ⟨rfl, rfl⟩
      rw [if_neg (by simpa using hmine)] at hmem
      rw [hcall, Bool.or_false]
      exact ⟨entry, hmem, rfl, hgen, hread⟩
  | validate t => exact hkept hentry rfl
  | release t =>
    refine hkept ?_ rfl
    refine mem_removeAll.mpr ⟨hentry, beq_eq_false_iff_ne.mpr fun heq => ?_⟩
    rw [← (Prod.mk.inj hkey).1, heq] at hheld
    exact hheld rfl
  | reserveGenerations _ _ _ | publishRow _ _ | markDirty _ =>
    refine hkept ?_ rfl
    simp only [perform]
    split <;> exact hentry

/-- **A history** in which the transaction is not released. -/
theorem Watches.run {read : Bool} (hbal : r.Balanced)
    (h : r.Watches transaction table generation read) {calls : List SerializableCall}
    (hheld : .release transaction ∉ calls) :
    (r.run calls).Watches transaction table generation
      (read || calls.elem (.recordRead transaction table)) := by
  induction calls generalizing r read with
  | nil => simpa using h
  | cons call calls ih =>
    rw [mem_cons, not_or] at hheld
    obtain ⟨hcall, hrest⟩ := hheld
    have hstep := ih (hbal.step call) (h.step hbal (Ne.symm hcall)) hrest
    rw [run_cons]
    refine (congrArg _ ?_).mp hstep
    rw [elem_cons, Bool.or_assoc]
    congr 1
    rw [BEq.comm]
    cases (SerializableCall.recordRead transaction table == call) <;> rfl

/-- **A stale read is refused.** -/
theorem Watches.validate (h : r.Watches transaction table generation true)
    (hmoved : (r.publication table).generation ≠ generation) :
    r.validateSerializable transaction = .error ⟨.serializationFailure,
      "could not serialize access due to read/write dependencies among transactions"⟩ := by
  obtain ⟨entry, hentry, hkey, rfl, hread⟩ := h
  cases hkey
  refine if_pos (any_eq_true.mpr ⟨entry, hentry, ?_⟩)
  simp [hread rfl, hmoved]

/-! ## Registration and validation -/

/-- **Registration is whole, and reads are validated.** In every history of a server's registry:
`begin_serializable` that succeeds leaves an entry for every table, one that fails changes nothing,
and a transaction registered by it is refused at commit when a table it has read since was changed
by a commit since. Source: `begin_serializable`, `validate_serializable`. -/
theorem registration_whole_and_reads_validated (tableCount transactionCapacity : ℕ)
    (publication : ℕ → TablePublication) (calls : List SerializableCall) (transaction : ℕ) :
    let r := (new tableCount transactionCapacity publication).run calls
    let begun := r.beginSerializable transaction
    (begun.2 = .ok () → ∀ table < tableCount, ∃ entry ∈ begun.1.entries.items,
      entry.transaction = transaction ∧ entry.table = table) ∧
    (∀ e, begun.2 = .error e → begun.1 = r) ∧
    ∀ table < tableCount, ∀ before call after, r.registered transaction = false → begun.2 = .ok () →
      .release transaction ∉ before ++ call :: after →
      .recordRead transaction table ∈ before ++ call :: after →
      (begun.1.run before).Changes call table →
      (begun.1.run (before ++ call :: after)).validateSerializable transaction =
        .error ⟨.serializationFailure,
          "could not serialize access due to read/write dependencies among transactions"⟩ := by
  intro r begun
  have hbal : r.Balanced := (balanced_new tableCount transactionCapacity publication).run calls
  have hcount : r.tableCount = tableCount :=
    tableCount_run (balanced_new tableCount transactionCapacity publication) calls
  have hbegun : begun.1.Balanced := hbal.step (.beginSerializable transaction)
  rcases hbal.beginSerializable_cases transaction with
    ⟨hreg, hbegin⟩ | ⟨hreg, r', hbegin, hcount', hpub, -, hitems⟩ | ⟨-, e, hbegin⟩
  · have heq : begun = (r, .ok ()) := hbegin
    refine ⟨fun _ table htable => ?_, fun e he => ?_, fun table _ _ _ _ hfresh => ?_⟩
    · rw [heq]
      exact hbal.covers hreg (hcount.symm ▸ htable)
    · rw [heq] at he
      cases he
    · rw [hreg] at hfresh
      cases hfresh
  · have heq : begun = (r', .ok ()) := hbegin
    -- the entry of a table, as it is registered
    have hentry : ∀ table < tableCount,
        ⟨transaction, table, (r.publication table).generation, false⟩ ∈ begun.1.entries.items := by
      intro table htable
      rw [heq, hitems]
      refine mem_append_right _ (mem_map.mpr ⟨table, ?_, rfl⟩)
      rw [mem_range, hcount]
      exact htable
    refine ⟨fun _ table htable => ⟨_, hentry table htable, rfl, rfl⟩, fun e he => ?_, ?_⟩
    · rw [heq] at he
      cases he
    intro table htable before call after _ _ hheld hread hchgs
    have hwatch : begun.1.Watches transaction table (r.publication table).generation false :=
      ⟨_, hentry table htable, rfl, rfl, nofun⟩
    have hlast := hwatch.run hbegun hheld
    rw [Bool.false_or, elem_iff.mpr hread] at hlast
    refine hlast.validate (Nat.ne_of_gt ?_)
    calc (r.publication table).generation
        = (begun.1.publication table).generation := by rw [heq, hpub]
      _ ≤ ((begun.1.run before).publication table).generation := le_run_generation _ _ _
      _ < (((begun.1.run before).perform call).publication table).generation :=
          lt_perform_generation hchgs
      _ ≤ ((begun.1.run (before ++ call :: after)).publication table).generation := by
          rw [run_append, run_cons]
          exact le_run_generation _ _ _
  · have heq : begun = (r, .error e) := hbegin
    refine ⟨fun hok => ?_, fun e' _ => by rw [heq], fun table _ _ _ _ _ hok => ?_⟩
    · rw [heq] at hok
      cases hok
    · rw [heq] at hok
      cases hok

/-- Counters of tables nobody has changed. -/
def untouched : ℕ → TablePublication := fun _ => ⟨0, 0, fun _ => 0, 0⟩

/-- A transaction reads a table of two that is then changed. -/
theorem changed_read_is_refused :
    (((new 2 1 untouched).beginSerializable 7).1.run
      ([.recordRead 7 1] ++ .markDirty 1 :: [])).validateSerializable 7 =
      .error ⟨.serializationFailure,
        "could not serialize access due to read/write dependencies among transactions"⟩ := by
  refine (registration_whole_and_reads_validated 2 1 untouched [] 7).2.2 1 (by decide)
    [.recordRead 7 1] (.markDirty 1) [] rfl rfl (by decide) (by decide) ?_
  exact ⟨⟨1, 0, fun _ => 0, 0⟩, rfl⟩

/-- **With any other capacity a registration can be left in part**: two tables in a registry for one
entry. The first call fails and leaves an entry; the second finds it and succeeds; the table without
an entry is read and changed, and validation passes. -/
theorem partial_registration_passes_validation :
    let r := empty 2 1 untouched
    (∃ e, (r.beginSerializable 7).2 = .error e) ∧ (r.beginSerializable 7).1 ≠ r ∧
      ((r.beginSerializable 7).1.beginSerializable 7).2 = .ok () ∧
      (∀ entry ∈ ((r.beginSerializable 7).1.beginSerializable 7).1.entries.items, entry.table ≠ 1) ∧
      (((r.beginSerializable 7).1.beginSerializable 7).1.run
        [.recordRead 7 1, .markDirty 1]).validateSerializable 7 = .ok () := by
  refine ⟨⟨_, rfl⟩, fun heq => ?_, rfl, ?_, rfl⟩
  · have hlen := congrArg (fun r => r.entries.items.length) heq
    cases hlen
  intro entry hentry
  have hitems : entry ∈ [(⟨7, 0, 0, false⟩ : SerializableEntry)] := hentry
  rw [mem_singleton.mp hitems]
  decide

end SerializableRegistry

end Pos3ql
