import Pos3ql.SqlError
import Pos3ql.Store.Sst

/-!
# What the row file writer writes

* `SstHandle.Holds` is what a finished file guarantees: its blocks, in the order of the index, hold
  the appended entries in key order; every first key in the index is the first key under it; and the
  filter knows every row.
* `SstWriter.Inv` is the writer's invariant. `append_inv` is the step lemma, **`build_holds`** the
  run lemma: every file the writer finishes holds exactly what was appended.
-/

namespace Pos3ql

open List SstKey

/-! ## Finished files -/

/-- Entries in key order. -/
def SortedEntries (entries : List DataEntry) : Prop := entries.Pairwise fun a b => a.key < b.key

/-- The first key of a run. -/
def firstKey (run : List DataEntry) : SstKey := (run.head?.map DataEntry.key).getD default

/-- The last key of a run. -/
def lastKey (run : List DataEntry) : SstKey := (run.getLast?.map DataEntry.key).getD default

/-- Keys lie between the first and the last. -/
lemma between_first_last {run : List DataEntry} (hsorted : SortedEntries run) {e : DataEntry}
    (he : e ∈ run) : firstKey run ≤ e.key ∧ e.key ≤ lastKey run := by
  have hne : run ≠ [] := ne_nil_of_mem he
  constructor
  · obtain ⟨x, rest, rfl⟩ := exists_cons_of_ne_nil hne
    rcases mem_cons.mp he with rfl | he
    · exact le_rfl
    · exact ((pairwise_cons.mp hsorted).1 e he).le
  obtain ⟨init, z, rfl⟩ : ∃ init z, run = init ++ [z] :=
    ⟨run.dropLast, run.getLast hne, (dropLast_append_getLast hne).symm⟩
  have hlast : lastKey (init ++ [z]) = z.key := by simp [lastKey]
  rw [hlast]
  rcases mem_append.mp he with he | he
  · exact ((pairwise_append.mp hsorted).2.2 e he z (mem_singleton_self z)).le
  · obtain rfl := mem_singleton.mp he
    exact le_rfl

/-- The entries under an index leaf. -/
def leafEntries (leaf : List IndexEntry) : List DataEntry := (leaf.map IndexEntry.block).flatten

/-- A block that is not empty, under its first key. -/
def IndexEntry.Sound (e : IndexEntry) : Prop := e.block ≠ [] ∧ e.first = firstKey e.block

/-- The index leaves of a file; a single-leaf index is its own leaf. -/
def SstHandle.leaves (handle : SstHandle) : List (List IndexEntry) :=
  match handle.index with
  | .leaf entries => [entries]
  | .root leaves => leaves.map RootEntry.leaf

/-- **What the writer guarantees** of a file that holds `entries`. -/
structure SstHandle.Holds (handle : SstHandle) (entries : List DataEntry) : Prop where
  content : (handle.leaves.map leafEntries).flatten = entries
  sorted : SortedEntries entries
  leaves : handle.leaves ≠ []
  leaf : ∀ leaf ∈ handle.leaves, leaf ≠ []
  block : ∀ leaf ∈ handle.leaves, ∀ e ∈ leaf, e.Sound
  root : ∀ roots, handle.index = .root roots → ∀ r ∈ roots, r.first = firstKey (leafEntries r.leaf)
  filter : ∀ e ∈ entries, handle.filter.maybeContains e.key.rowid = true

/-! ## The filter -/

namespace Filter

/-- A filter holds what was inserted. -/
lemma maybeContains_insert_self (f : Filter) (key : ℕ) : (f.insert key).maybeContains key := by
  unfold insert
  by_cases hbytes : f.bytes * 8 = 0
  · rw [if_pos hbytes, maybeContains, if_pos hbytes]
  rw [if_neg hbytes]
  unfold maybeContains
  rw [if_neg hbytes, all_eq_true]
  intro i hi
  exact decide_eq_true (mem_append_left _ hi)

/-- It keeps what it held. -/
lemma maybeContains_insert {f : Filter} {key : ℕ} (other : ℕ) (h : f.maybeContains key) :
    (f.insert other).maybeContains key := by
  unfold insert
  by_cases hbytes : f.bytes * 8 = 0
  · rw [if_pos hbytes]
    exact h
  rw [if_neg hbytes]
  unfold maybeContains at h ⊢
  rw [if_neg hbytes, all_eq_true] at h ⊢
  intro i hi
  exact decide_eq_true (mem_append_right _ (of_decide_eq_true (h i hi)))

lemma maybeContains_insertAll (group : List DataEntry) {f : Filter} {key : ℕ}
    (h : f.maybeContains key ∨ ∃ e ∈ group, e.key.rowid = key) :
    (group.foldl (fun f e => f.insert e.key.rowid) f).maybeContains key := by
  induction group generalizing f with
  | nil =>
    rcases h with h | ⟨e, he, -⟩
    · exact h
    · cases he
  | cons x rest ih =>
    refine ih ?_
    rcases h with h | ⟨e, he, hkey⟩
    · exact .inl (maybeContains_insert _ h)
    rcases mem_cons.mp he with rfl | he
    · refine .inl ?_
      rw [← hkey]
      exact maybeContains_insert_self f _
    · exact .inr ⟨e, he, hkey⟩

end Filter

/-! ## The writer's invariant -/

/-- **The writer's invariant** after `entries` were appended. -/
structure SstWriter.Inv (w : SstWriter) (entries : List DataEntry) : Prop where
  content : (w.leaves.map fun r => leafEntries r.leaf).flatten ++ leafEntries w.index ++ w.pending =
    entries
  sorted : SortedEntries entries
  last : w.lastKey = entries.getLast?.map DataEntry.key
  leaf :
    ∀ r ∈ w.leaves, r.leaf ≠ [] ∧ r.first = firstKey (leafEntries r.leaf) ∧ ∀ e ∈ r.leaf, e.Sound
  index : ∀ e ∈ w.index, e.Sound
  filter : ∀ f ∈ w.filters, ∀ e ∈ entries, f.maybeContains e.key.rowid = true

namespace SstWriter

variable {w w' : SstWriter} {entries : List DataEntry} {key : SstKey}

lemma firstKey_leafEntries {e : IndexEntry} (rest : List IndexEntry) (he : e.Sound) :
    e.first = firstKey (leafEntries (e :: rest)) := by
  obtain ⟨x, tail, hblock⟩ := exists_cons_of_ne_nil he.1
  rw [he.2, leafEntries, map_cons, hblock]
  rfl

lemma new_inv (paxEnabled packedRows : Bool) (packedFillfactor : ℕ) :
    (new paxEnabled packedRows packedFillfactor).Inv [] := by
  refine ⟨rfl, List.Pairwise.nil, rfl, ?_, ?_, ?_⟩
  · nofun
  · nofun
  · nofun

/-- Flushing a leaf keeps the invariant. -/
lemma flushIndexLeaf_inv (hok : w.flushIndexLeaf = .ok w') (h : w.Inv entries) :
    w'.Inv entries ∧ w'.index = [] ∧ w'.pending = w.pending ∧
      (w.leaves ≠ [] ∨ w.index ≠ [] → w'.leaves ≠ []) := by
  unfold flushIndexLeaf at hok
  rcases hindex : w.index with _ | ⟨e, rest⟩
  · rw [hindex] at hok
    cases hok
    exact ⟨h, hindex, rfl, fun hor => hor.resolve_right fun hne => hne rfl⟩
  rw [hindex] at hok
  split_ifs at hok
  cases hok
  refine ⟨⟨?_, h.sorted, h.last, ?_, ?_, h.filter⟩, rfl, rfl, fun _ => by simp⟩
  · rw [← h.content, hindex]
    simp [leafEntries]
  · refine forall_mem_append.mpr ⟨h.leaf, forall_mem_singleton.mpr ?_⟩
    · have hsound : ∀ x ∈ e :: rest, x.Sound := fun x hx => h.index x (hindex ▸ hx)
      exact ⟨cons_ne_nil _ _, firstKey_leafEntries rest (hsound e mem_cons_self), hsound⟩
  · nofun

/-- Making room in the index keeps it. -/
lemma reserveIndexSlot_inv (hok : w.reserveIndexSlot = .ok w') (h : w.Inv entries) :
    w'.Inv entries ∧ w'.pending = w.pending := by
  unfold reserveIndexSlot at hok
  split_ifs at hok
  · obtain ⟨hinv, -, hpend, -⟩ := flushIndexLeaf_inv hok h
    exact ⟨hinv, hpend⟩
  · cases hok
    exact ⟨h, rfl⟩

/-- Flushing a block keeps it. -/
lemma flushData_inv (hok : w.flushData = .ok w') (h : w.Inv entries) :
    w'.Inv entries ∧ w'.pending = [] := by
  unfold flushData at hok
  rcases hpend : w.pending with _ | ⟨e, rest⟩
  · rw [hpend] at hok
    cases hok
    exact ⟨h, hpend⟩
  rw [hpend] at hok
  obtain ⟨w₁, hreserve, hok⟩ := ok_of_bind_ok hok
  obtain ⟨hinv, hsame⟩ := reserveIndexSlot_inv hreserve h
  cases hok
  refine ⟨⟨?_, hinv.sorted, hinv.last, hinv.leaf, ?_, hinv.filter⟩, rfl⟩
  · rw [← hinv.content, hsame, hpend]
    simp [leafEntries]
  exact forall_mem_append.mpr ⟨hinv.index, forall_mem_singleton.mpr ⟨cons_ne_nil _ _, rfl⟩⟩

/-- Making room in a block keeps it. -/
lemma makeRoom_inv {size : ℕ} (hok : w.makeRoom size = .ok w') (h : w.Inv entries) :
    w'.Inv entries := by
  unfold makeRoom at hok
  split_ifs at hok
  · exact (flushData_inv hok h).1
  · cases hok
    exact h

/-- A key in order is above all others. -/
lemma lt_of_outOfOrder (h : w.Inv entries) (horder : w.outOfOrder key = false) :
    ∀ e ∈ entries, e.key < key := by
  intro e he
  have hne : entries ≠ [] := ne_nil_of_mem he
  unfold outOfOrder at horder
  rw [h.last, getLast?_eq_some_getLast hne, Option.map_some, Option.any_some,
    decide_eq_false_iff_not] at horder
  have hlast := (between_first_last h.sorted he).2
  unfold Pos3ql.lastKey at hlast
  rw [getLast?_eq_some_getLast hne] at hlast
  exact hlast.trans_lt (not_le.mp horder)

/-- An entry in order keeps it. -/
lemma push_inv (h : w.Inv entries) {e : DataEntry} (hlt : ∀ x ∈ entries, x.key < e.key) :
    (w.push e).Inv (entries ++ [e]) := by
  refine ⟨?_, ?_, ?_, h.leaf, h.index, ?_⟩
  · rw [← h.content]
    simp [push]
  · refine pairwise_append.mpr ⟨h.sorted, pairwise_singleton _ _, fun a ha b hb => ?_⟩
    obtain rfl := mem_singleton.mp hb
    exact hlt a ha
  · simp [push]
  intro f hf
  obtain ⟨f', hf', rfl⟩ := mem_map.mp hf
  exact forall_mem_append.mpr ⟨fun x hx => Filter.maybeContains_insert _ (h.filter f' hf' x hx),
    forall_mem_singleton.mpr (Filter.maybeContains_insert_self f' _)⟩

/-- A checked group is sorted. -/
lemma sorted_of_ascending {group : List DataEntry} (h : ascending group) : SortedEntries group := by
  induction group with
  | nil => exact .nil
  | cons e rest ih =>
    refine pairwise_cons.mpr ⟨?_, ?_⟩
    · rcases rest with _ | ⟨e', rest⟩
      · nofun
      unfold ascending at h
      rw [Bool.and_eq_true] at h
      intro x hx
      exact (of_decide_eq_true h.1).trans_le (between_first_last (ih h.2) hx).1
    · rcases rest with _ | ⟨e', rest⟩
      · exact .nil
      · unfold ascending at h
        rw [Bool.and_eq_true] at h
        exact ih h.2

/-- A group that is taken over keeps it. -/
lemma appendReusedPaxGroup_inv {group : List DataEntry}
    (hok : w.appendReusedPaxGroup group = .ok w') (h : w.Inv entries) :
    w'.Inv (entries ++ group) := by
  unfold appendReusedPaxGroup at hok
  rcases group with _ | ⟨e, rest⟩
  · cases hok
  dsimp only at hok
  split_ifs at hok with hpax horder
  rw [Bool.or_eq_true, not_or, Bool.not_eq_true, Bool.not_eq_true, Bool.not_eq_false'] at horder
  have hlt := lt_of_outOfOrder h horder.1
  have hgroup := sorted_of_ascending horder.2
  obtain ⟨w₁, hflush, hok⟩ := ok_of_bind_ok hok
  obtain ⟨w₂, hreserve, hok⟩ := ok_of_bind_ok hok
  obtain ⟨h₁, hempty⟩ := flushData_inv hflush h
  obtain ⟨h₂, hpend⟩ := reserveIndexSlot_inv hreserve h₁
  cases hok
  refine ⟨?_, ?_, ?_, h₂.leaf, ?_, ?_⟩
  · rw [← h₂.content]
    rw [hpend, hempty]
    simp [leafEntries]
  · refine pairwise_append.mpr ⟨h.sorted, hgroup, fun a ha b hb => ?_⟩
    exact (hlt a ha).trans_le (between_first_last hgroup hb).1
  · dsimp only
    rw [getLast?_append_of_ne_nil _ (cons_ne_nil e rest)]
  · exact forall_mem_append.mpr ⟨h₂.index, forall_mem_singleton.mpr ⟨cons_ne_nil _ _, rfl⟩⟩
  intro f hf x hx
  obtain ⟨f', hf', rfl⟩ := mem_map.mp hf
  refine Filter.maybeContains_insertAll _ ?_
  rcases mem_append.mp hx with hx | hx
  · exact .inl (h₂.filter f' hf' x hx)
  · exact .inr ⟨x, hx, rfl⟩

/-- A version keeps it. -/
lemma appendVersion_inv {row : List UInt8} (hok : w.appendVersion key row = .ok w')
    (h : w.Inv entries) :
    w'.Inv (entries ++ [⟨key, some row⟩]) := by
  unfold appendVersion at hok
  split_ifs at hok with horder hlarge hchained
  · -- a chained row: its head is a block of its own
    have hlt := lt_of_outOfOrder h (Bool.eq_false_iff.mpr horder)
    unfold appendChained at hok
    split_ifs at hok
    obtain ⟨w₁, hflush, hok⟩ := ok_of_bind_ok hok
    exact (flushData_inv hok (push_inv (flushData_inv hflush h).1 hlt)).1
  · have hlt := lt_of_outOfOrder h (Bool.eq_false_iff.mpr horder)
    obtain ⟨w₁, hroom, hok⟩ := ok_of_bind_ok hok
    cases hok
    exact push_inv (makeRoom_inv hroom h) hlt

/-- A tombstone keeps it. -/
lemma appendTombstoneVersion_inv (hok : w.appendTombstoneVersion key = .ok w') (h : w.Inv entries) :
    w'.Inv (entries ++ [⟨key, none⟩]) := by
  unfold appendTombstoneVersion at hok
  split_ifs at hok with horder
  have hlt := lt_of_outOfOrder h (Bool.eq_false_iff.mpr horder)
  obtain ⟨w₁, hroom, hok⟩ := ok_of_bind_ok hok
  cases hok
  exact push_inv (makeRoom_inv hroom h) hlt

/-- **One append keeps the invariant.** -/
theorem append_inv {a : SstAppend} (hok : w.append a = .ok w') (h : w.Inv entries) :
    w'.Inv (entries ++ a.entries) := by
  rcases a with ⟨key, row⟩ | key | group
  · exact appendVersion_inv hok h
  · exact appendTombstoneVersion_inv hok h
  · exact appendReusedPaxGroup_inv hok h

/-- Any number of appends. Induction on the appends. -/
lemma appends_inv {appends : List SstAppend} (hok : appends.foldlM append w = .ok w')
    (h : w.Inv entries) : w'.Inv (entries ++ appends.flatMap SstAppend.entries) := by
  induction appends generalizing w entries with
  | nil =>
    cases hok
    simpa using h
  | cons a rest ih =>
    obtain ⟨w₁, hstep, hok⟩ := ok_of_bind_ok hok
    rw [flatMap_cons, ← append_assoc]
    exact ih hok (append_inv hstep h)

/-- Each filter holds every row. -/
lemma chooseFilter_inv (h : w.Inv entries) :
    ∀ e ∈ entries, w.chooseFilter.maybeContains e.key.rowid := by
  intro e he
  unfold chooseFilter
  rcases hfind : w.filters.find? fun f => decide (w.keyCount * 10 ≤ f.bytes * 8) with _ | f
  · rw [hfind]
    rcases hlast : w.filters.getLast? with _ | f
    · rfl
    · exact h.filter f (mem_of_getLast? hlast) e he
  · rw [hfind]
    exact h.filter f (mem_of_find?_eq_some hfind) e he

/-- **The finished file holds what was appended.** -/
lemma finish_holds {hd : SstHandle} (hok : w.finish = .ok (some hd)) (h : w.Inv entries) :
    hd.Holds entries := by
  obtain ⟨w₁, hflush, hok⟩ := ok_of_bind_ok hok
  obtain ⟨h₁, hempty⟩ := flushData_inv hflush h
  have hfilter := chooseFilter_inv h₁
  split_ifs at hok with hlvs hindex
  · cases hok
  · obtain rfl := Option.some.inj (Except.ok.inj hok)
    have hnil : w₁.leaves = [] := isEmpty_iff.mp hlvs
    have hcontent := h₁.content
    rw [hnil, hempty] at hcontent
    refine ⟨?_, h.sorted, cons_ne_nil _ _, ?_, ?_, ?_, hfilter⟩
    · simpa [SstHandle.leaves] using hcontent
    · intro leaf hleaf
      obtain rfl := mem_singleton.mp hleaf
      exact fun hnil' => hindex (isEmpty_iff.mpr hnil')
    · intro leaf hleaf
      obtain rfl := mem_singleton.mp hleaf
      exact h₁.index
    · nofun
  obtain ⟨w₂, hleaf, hok⟩ := ok_of_bind_ok hok
  obtain rfl := Option.some.inj (Except.ok.inj hok)
  obtain ⟨h₂, hindex₂, hpend₂, hne⟩ := flushIndexLeaf_inv hleaf h₁
  have hcontent := h₂.content
  rw [hindex₂, hpend₂, hempty] at hcontent
  refine ⟨?_, h.sorted, ?_, ?_, ?_, ?_, hfilter⟩
  · simpa [SstHandle.leaves, leafEntries, Function.comp_def] using hcontent
  · have := hne (.inl fun hnil => hlvs (isEmpty_iff.mpr hnil))
    simpa [SstHandle.leaves] using this
  · intro leaf hmem
    obtain ⟨r, hr, rfl⟩ := mem_map.mp hmem
    exact (h₂.leaf r hr).1
  · intro leaf hmem
    obtain ⟨r, hr, rfl⟩ := mem_map.mp hmem
    exact (h₂.leaf r hr).2.2
  · intro roots hroots r hr
    obtain rfl := SstIndex.root.inj hroots
    exact (h₂.leaf r hr).2.1

/-- **A finished file holds what was appended.** -/
theorem build_holds {paxEnabled packedRows : Bool} {packedFillfactor : ℕ}
    {appends : List SstAppend} {hd : SstHandle}
    (hok : (new paxEnabled packedRows packedFillfactor).build appends = .ok (some hd)) :
    hd.Holds (appends.flatMap SstAppend.entries) := by
  obtain ⟨w₁, happends, hok⟩ := ok_of_bind_ok hok
  exact finish_holds hok (appends_inv happends (new_inv _ _ _))

end SstWriter

end Pos3ql
