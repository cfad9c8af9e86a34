import Mathlib

/-!
# Maps sorted by key

A map as a list of entries in ascending order of their keys. A `SortedMap` carries the proof that it
is sorted, so its entries can be worked through in order and no key has two values.

* `get`, `insert` and `insertNew` (an entry is only added where there is none).
* **`get_insert`**, **`get_insertNew`**: what can be read back.
* `get_foldl_insert`, `get_foldl_insertNew`: the same for many entries with different keys.
-/

namespace Pos3ql.Foundation

open List

variable {κ α : Type} [LinearOrder κ]

/-- Entries in ascending order of their keys. -/
structure SortedMap (κ α : Type) [LinearOrder κ] where
  entries : List (κ × α)
  sorted : entries.Pairwise fun e e' => e.1 < e'.1

namespace SortedMap

/-- No entries. -/
def empty : SortedMap κ α := ⟨[], List.Pairwise.nil⟩

/-- The value of a key, in a list of entries. -/
def getEntry (key : κ) : List (κ × α) → Option α
  | [] => none
  | e :: rest => if e.1 = key then some e.2 else getEntry key rest

/-- An entry put in its place; it replaces the one with its key. -/
def insertEntry (key : κ) (value : α) : List (κ × α) → List (κ × α)
  | [] => [(key, value)]
  | e :: rest =>
    if key < e.1 then (key, value) :: e :: rest
    else if e.1 = key then (key, value) :: rest
    else e :: insertEntry key value rest

/-- What is there was there or is new. -/
lemma mem_insertEntry {key : κ} {value : α} {entries : List (κ × α)} {e : κ × α}
    (h : e ∈ insertEntry key value entries) : e = (key, value) ∨ e ∈ entries := by
  induction entries with
  | nil => exact .inl (mem_singleton.mp h)
  | cons e' rest ih =>
    rw [insertEntry] at h
    split_ifs at h
    · exact mem_cons.mp h
    · rcases mem_cons.mp h with h | h
      · exact .inl h
      · exact .inr (mem_cons_of_mem _ h)
    rcases mem_cons.mp h with rfl | h
    · exact .inr mem_cons_self
    · rcases ih h with h | h
      · exact .inl h
      · exact .inr (mem_cons_of_mem _ h)

/-- Inserting keeps the order. Induction on the entries. -/
lemma sorted_insertEntry (key : κ) (value : α) {es : List (κ × α)}
    (h : es.Pairwise fun e e' => e.1 < e'.1) :
    (insertEntry key value es).Pairwise fun e e' => e.1 < e'.1 := by
  induction es with
  | nil => exact pairwise_singleton ..
  | cons e rest ih =>
    obtain ⟨hfirst, hrest⟩ := pairwise_cons.mp h
    rw [insertEntry]
    split_ifs with hlt heq
    · refine pairwise_cons.mpr ⟨forall_mem_cons.mpr ⟨hlt, fun e' he' => ?_⟩, h⟩
      exact lt_trans hlt (hfirst e' he')
    · refine pairwise_cons.mpr ⟨fun e' he' => ?_, hrest⟩
      rw [← heq]
      exact hfirst e' he'
    refine pairwise_cons.mpr ⟨fun e' he' => ?_, ih hrest⟩
    rcases mem_insertEntry he' with rfl | he'
    · exact lt_of_le_of_ne (not_lt.mp hlt) heq
    · exact hfirst e' he'

/-- The value of a key. -/
def get (m : SortedMap κ α) (key : κ) : Option α := getEntry key m.entries

/-- The map with a value for a key. -/
def insert (m : SortedMap κ α) (key : κ) (value : α) : SortedMap κ α :=
  ⟨insertEntry key value m.entries, sorted_insertEntry key value m.sorted⟩

/-- The map with a value for a key that has none. -/
def insertNew (m : SortedMap κ α) (key : κ) (value : α) : SortedMap κ α :=
  match m.get key with
  | some _ => m
  | none => m.insert key value

/-- **Reading after an insertion.** Induction on the entries. -/
theorem get_insert (m : SortedMap κ α) (key : κ) (value : α) (k : κ) :
    (m.insert key value).get k = if key = k then some value else m.get k := by
  unfold get insert
  dsimp only
  induction m.entries with
  | nil => rfl
  | cons e rest ih =>
    rw [insertEntry]
    by_cases hlt : key < e.1
    · rw [if_pos hlt, getEntry]
    by_cases heq : e.1 = key
    · rw [if_neg hlt, if_pos heq, getEntry, getEntry, heq]
      split_ifs <;> rfl
    rw [if_neg hlt, if_neg heq, getEntry, getEntry, ih]
    split_ifs with hk hkey
    · exact absurd (hk.trans hkey.symm) heq
    · rfl
    · rfl
    · rfl

/-- **Reading after an insertion where there was none.** -/
theorem get_insertNew (m : SortedMap κ α) (key : κ) (value : α) (k : κ) :
    (m.insertNew key value).get k = if key = k then (m.get k).or (some value) else m.get k := by
  unfold insertNew
  rcases hfound : m.get key with _ | old
  · rw [get_insert]
    split_ifs with hk
    · rw [← hk, hfound]
      rfl
    · rfl
  · split_ifs with hk
    · rw [← hk, hfound]
      rfl
    · rfl

section Many

variable {entries : List (κ × α)} {m : SortedMap κ α}

/-- Many insertions leave the other keys. Induction on the entries. -/
lemma get_foldl_insert_of_not_mem {k : κ} (h : ∀ e ∈ entries, e.1 ≠ k) :
    (entries.foldl (fun m e => m.insert e.1 e.2) m).get k = m.get k := by
  induction entries generalizing m with
  | nil => rfl
  | cons e rest ih =>
    rw [foldl_cons, ih (forall_mem_cons.mp h).2, get_insert, if_neg (h e mem_cons_self)]

/-- Many insertions with different keys. Induction on the entries. -/
lemma get_foldl_insert (hdist : entries.Pairwise fun e e' => e.1 ≠ e'.1) {e : κ × α}
    (he : e ∈ entries) : (entries.foldl (fun m e => m.insert e.1 e.2) m).get e.1 = some e.2 := by
  induction entries generalizing m with
  | nil => cases he
  | cons e' rest ih =>
    obtain ⟨hfirst, hrest⟩ := pairwise_cons.mp hdist
    rw [foldl_cons]
    rcases mem_cons.mp he with rfl | he
    · rw [get_foldl_insert_of_not_mem fun e' he' => (hfirst e' he').symm, get_insert, if_pos rfl]
    · exact ih hrest he

/-- Other keys are not changed. -/
lemma get_foldl_insertNew_of_not_mem {k : κ} (h : ∀ e ∈ entries, e.1 ≠ k) :
    (entries.foldl (fun m e => m.insertNew e.1 e.2) m).get k = m.get k := by
  induction entries generalizing m with
  | nil => rfl
  | cons e rest ih =>
    rw [foldl_cons, ih (forall_mem_cons.mp h).2, get_insertNew, if_neg (h e mem_cons_self)]

/-- Many insertions of entries where there were none, with different keys. Induction on the
entries. -/
lemma get_foldl_insertNew (hdist : entries.Pairwise fun e e' => e.1 ≠ e'.1) {e : κ × α}
    (he : e ∈ entries) :
    (entries.foldl (fun m e => m.insertNew e.1 e.2) m).get e.1 =
      (m.get e.1).or (some e.2) := by
  induction entries generalizing m with
  | nil => cases he
  | cons e' rest ih =>
    obtain ⟨hfirst, hrest⟩ := pairwise_cons.mp hdist
    rw [foldl_cons]
    rcases mem_cons.mp he with rfl | he
    · rw [get_foldl_insertNew_of_not_mem fun e' he' => (hfirst e' he').symm, get_insertNew,
        if_pos rfl]
    · rw [ih hrest he, get_insertNew, if_neg (hfirst e he)]

end Many

end SortedMap

end Pos3ql.Foundation
