import Pos3ql.SqlError
import Pos3ql.Store.ValueIndex

/-!
# What a value-index generation holds

* **`bloomMaybeContains_insert`**: no false negatives.
* `DataRef`: a reference with the entries of its block; `DataRef.Sound`.
* **`Chain`**: a chain of rosters, with the references in each.
* **`Built`**: the writer, with the entries appended so far; `rosterRoom_built`, `flush_built`,
  `put_built`, `appendAll_built`.
* **`build_generation`**: what a finished generation holds.

Source: `store/value.rs` (`append_inner`, `flush`, `flush_roster`, `finish`), `store/bloom.rs`.
-/

namespace Pos3ql

open Foundation List ValueIndexWriter ValueIndexEntry

/-! ## The filter -/

@[simp]
lemma length_bloomInsert (bits : Bytes) (key : UInt64) :
    (bloomInsert bits key).length = bits.length := by
  have hfold : ∀ (positions : List ℕ) (bits : Bytes),
      (positions.foldl setBit bits).length = bits.length := by
    intro positions
    induction positions with
    | nil => exact fun _ => rfl
    | cons p positions ih => exact fun bits => (ih _).trans (length_setBit bits p)
  unfold bloomInsert
  split
  · rfl
  · exact hfold _ bits

/-- Filter positions are within the filter. -/
lemma positions_lt {key bits pos : ℕ} (hbits : 0 < bits) (hsmall : bits < 2 ^ 64)
    (h : pos ∈ Filter.positions key bits) : pos < bits := by
  obtain ⟨i, -, rfl⟩ := mem_map.mp h
  have hnat : (UInt64.ofNat bits).toNat = bits := by
    rw [UInt64.toNat_ofNat', Nat.mod_eq_of_lt hsmall]
  rw [UInt64.toNat_mod, hnat]
  exact Nat.mod_lt _ hbits

variable {bits : Bytes}

/-- Set bits stay set. -/
lemma bitAt_foldl_mono {p : ℕ} (h : bitAt bits p) (positions : List ℕ) :
    bitAt (positions.foldl setBit bits) p := by
  induction positions generalizing bits with
  | nil => exact h
  | cons q positions ih => exact ih (bitAt_setBit_mono h)

/-- Every position is set. -/
lemma bitAt_foldl_mem {p : ℕ} {positions : List ℕ} (h : p ∈ positions)
    (hlt : p < bits.length * 8) : bitAt (positions.foldl setBit bits) p := by
  induction positions generalizing bits with
  | nil => cases h
  | cons q positions ih =>
    rcases mem_cons.mp h with rfl | hmem
    · exact bitAt_foldl_mono (bitAt_setBit_self hlt) positions
    · exact ih hmem (by rwa [length_setBit])

/-- **No false negatives**, for the hash inserted. -/
theorem bloomMaybeContains_insert (hbits : bits.length * 8 < 2 ^ 64) (key : UInt64) :
    bloomMaybeContains (bloomInsert bits key) key := by
  unfold bloomMaybeContains
  rw [length_bloomInsert]
  split
  · rfl
  rename_i hne
  rw [all_eq_true]
  intro p hp
  unfold bloomInsert
  rw [if_neg hne]
  exact bitAt_foldl_mem hp (positions_lt (by omega) hbits hp)

/-- What a filter holds it keeps. -/
lemma bloomMaybeContains_insert_mono {hash : UInt64} (key : UInt64)
    (h : bloomMaybeContains bits hash) :
    bloomMaybeContains (bloomInsert bits key) hash := by
  unfold bloomMaybeContains at h ⊢
  rw [length_bloomInsert]
  split
  · rfl
  rename_i hne
  rw [if_neg hne, all_eq_true] at h
  rw [all_eq_true]
  intro p hp
  unfold bloomInsert
  rw [if_neg hne]
  exact bitAt_foldl_mono (h p hp) _

/-! ## Contents -/

/-- Entries that stand in one data block. -/
structure Chunk (le : Bytes → Bytes → Prop) (covering : Bool) (filter : Bytes)
    (entries : List ValueIndexEntry) : Prop where
  filterLength : filter.length = blockFilterBytes
  admits : ∀ e ∈ entries, bloomMaybeContains filter e.hash = true
  payloads : ∀ e ∈ entries, e.payload.isSome = covering
  keys : ∀ e ∈ entries, e.key ≠ [] ∧ e.key.length < 2 ^ 32 ∧ (e.payload.getD []).length < 2 ^ 32
  ordered : (entries.map ValueIndexEntry.key).IsChain le

/-- A reference of a roster, with the entries of its block. -/
structure DataRef where
  id : BlockId
  filter : Bytes
  bounds : Option (Bytes × Bytes)
  entries : List ValueIndexEntry

/-- The bytes of a data block. -/
def dataBytes (covering : Bool) (entries : List ValueIndexEntry) : Bytes :=
  (entries.map ValueIndexEntry.record).flatMap (ValueIndexRecord.bytes covering)

/-- **A reference describes its block.** -/
structure DataRef.Sound (s : BlockStore) (le : Bytes → Bytes → Prop) (covering : Bool)
    (r : DataRef) :
    Prop where
  stored : s r.id = some ⟨dataBytes covering r.entries, .valueIndexData⟩
  nonempty : r.entries ≠ []
  chunk : Chunk le covering r.filter r.entries
  bounds : ∀ first last, r.bounds = some (first, last) →
    r.entries.head?.map ValueIndexEntry.key = some first ∧
      r.entries.getLast?.map ValueIndexEntry.key = some last

/-- The bytes of a reference. -/
def DataRef.bytes (r : DataRef) : Bytes := refBytes r.id r.filter r.bounds

/-- The payload of a roster. -/
def rosterPayload (covering : Bool) (previous : Option BlockId) (refs : List DataRef) : Bytes :=
  rosterHeaderBytes refs.length covering previous ++ refs.flatMap DataRef.bytes

/-- **A chain of rosters**, the newest first, with the references in each. -/
inductive Chain (s : BlockStore) (le : Bytes → Bytes → Prop) (covering : Bool) :
    Option BlockId → List (List DataRef) → Prop
  | nil : Chain s le covering none []
  | cons {id : BlockId} {previous : Option BlockId} {refs : List DataRef}
    {older : List (List DataRef)}
      (stored : s id = some ⟨rosterPayload covering previous refs, .valueIndexRoster⟩)
      (named : id.value ≠ 0) (count : refs.length < 2 ^ 28)
      (sound : ∀ r ∈ refs, r.Sound s le covering) (rest : Chain s le covering previous older) :
      Chain s le covering (some id) (refs :: older)

section Contents

variable {s s' : BlockStore} {le : Bytes → Bytes → Prop} {covering : Bool}

/-- A larger store keeps a block. -/
lemma DataRef.Sound.mono {r : DataRef} (h : r.Sound s le covering) (hext : s.Extends s') :
    r.Sound s' le covering :=
  { h with stored := hext _ _ h.stored }

/-- A larger store keeps a chain. -/
lemma Chain.mono {root : Option BlockId} {rosters : List (List DataRef)}
    (h : Chain s le covering root rosters) (hext : s.Extends s') :
    Chain s' le covering root rosters := by
  induction h with
  | nil => exact .nil
  | cons stored named count sound _ ih =>
    exact .cons (hext _ _ stored) named count (fun r hr => (sound r hr).mono hext) ih

/-- An entry has bytes. -/
lemma length_bytes_pos (e : ValueIndexRecord) : e.bytes covering ≠ [] := by
  intro h
  have hlen := congrArg List.length h
  unfold ValueIndexRecord.bytes at hlen
  rw [length_append, length_leBytes, length_nil] at hlen
  omega

lemma length_boundsBytes (bounds : Option (Bytes × Bytes)) :
    (boundsBytes bounds).length = 8 + boundsLength bounds := by
  rcases bounds with _ | ⟨first, last⟩
  · rfl
  · simp only [boundsBytes, boundsLength, length_append, length_leBytes, Option.elim_some]
    omega

lemma DataRef.length_bytes {r : DataRef} (h : r.filter.length = blockFilterBytes) :
    r.bytes.length = orderedBlockRefHeader + boundsLength r.bounds := by
  unfold DataRef.bytes refBytes BlockId.bytes
  rw [length_append, length_append, length_leBytes, length_boundsBytes,
    orderedBlockRefHeader, filteredBlockRef]
  omega

lemma DataRef.bytes_ne_nil (r : DataRef) : r.bytes ≠ [] := by
  intro h
  have hlen := congrArg List.length h
  unfold DataRef.bytes refBytes BlockId.bytes at hlen
  rw [length_append, length_leBytes, length_nil] at hlen
  omega

/-- The bounds of a reference are short enough for a roster of its own. -/
lemma inlineBounds_fits (first last : Bytes) :
    rosterHeader + (orderedBlockRefHeader + boundsLength (inlineBounds first last)) ≤
      maxPayload := by
  have hheader : rosterHeader = 36 := rfl
  have hreference : orderedBlockRefHeader = 8232 := rfl
  have hmax : maxPayload = 262092 := rfl
  unfold inlineBounds
  split
  · split
    · simp only [boundsLength, Option.elim_none]
      omega
    · simp only [boundsLength, Option.elim_some]
      omega
  · simp only [boundsLength, Option.elim_none]
    omega

/-- Inline bounds are the two keys. -/
lemma inlineBounds_eq_some {first last a b : Bytes}
    (h : inlineBounds first last = some (a, b)) : a = first ∧ b = last := by
  unfold inlineBounds at h
  split at h
  · split at h
    · cases h
    · cases h
      exact ⟨rfl, rfl⟩
  · cases h

end Contents

/-! ## The writer -/

/-- All references of a chain, the oldest first. -/
def chainRefs (rosters : List (List DataRef)) : List DataRef := rosters.reverse.flatten

/-- The newest roster comes last. -/
lemma chainRefs_cons (refs : List DataRef) (older : List (List DataRef)) :
    chainRefs (refs :: older) = chainRefs older ++ refs := by
  unfold chainRefs
  rw [reverse_cons, flatten_append, flatten_singleton]

/-- **The writer, with the entries appended so far**: those in published rosters, those in the
roster under construction, and those in the pending block. -/
structure Built (s : BlockStore) (le : Bytes → Bytes → Prop) (covering : Bool)
    (v : ValueIndexWriter) (older : List (List DataRef)) (refs : List DataRef)
    (chunk entries : List ValueIndexEntry) :
    Prop where
  entries_eq : entries = (chainRefs older ++ refs).flatMap DataRef.entries ++ chunk
  chain : Chain s le covering v.rosterTail older
  full : ∀ roster ∈ older, roster ≠ []
  roster : v.roster = refs.flatMap DataRef.bytes
  rosterLen : v.rosterLen = rosterHeader + v.roster.length
  room : v.rosterLen ≤ maxPayload
  blockCount : v.blockCount = refs.length
  sound : ∀ r ∈ refs, r.Sound s le covering
  pending : v.pending = dataBytes covering chunk
  pendingLen : v.pendingLen = v.pending.length
  pendingChunk : Chunk le covering v.pendingFilter chunk
  first : v.pendingFirst = chunk.head?.map ValueIndexEntry.key
  last : v.pendingLast = chunk.getLast?.map ValueIndexEntry.key
  count : v.entries = entries.length
  ordered : (entries.map ValueIndexEntry.key).IsChain le

section Writer

variable {w : BlockWriter} {compare : Bytes → Bytes → Ordering} {s s' : BlockStore}
  {le : Bytes → Bytes → Prop} {covering : Bool} {v v' : ValueIndexWriter}
  {older : List (List DataRef)} {refs : List DataRef} {chunk entries : List ValueIndexEntry}

lemma chunk_nil (le : Bytes → Bytes → Prop) (cov : Bool) :
    Chunk le cov (zeros blockFilterBytes) [] where
  filterLength := length_zeros _
  admits e he := by cases he
  payloads e he := by cases he
  keys e he := by cases he
  ordered := .nil

/-- A new writer has built nothing. -/
lemma built_new (s : BlockStore) (le : Bytes → Bytes → Prop) (cov : Bool) :
    Built s le cov .new [] [] [] [] where
  entries_eq := rfl
  chain := .nil
  full roster h := by cases h
  roster := rfl
  rosterLen := rfl
  room := by decide
  blockCount := rfl
  sound r h := by cases h
  pending := rfl
  pendingLen := rfl
  pendingChunk := chunk_nil le cov
  first := rfl
  last := rfl
  count := rfl
  ordered := .nil

section

variable (h : Built s le covering v older refs chunk entries)
include h

/-- A roster's count fits its word. -/
lemma Built.refs_lt : refs.length < 2 ^ 28 := by
  have hmax : maxPayload = 262092 := rfl
  have hroom := h.room
  have hlen : refs.length ≤ v.roster.length := by
    rw [h.roster]
    exact length_le_flatMap fun r _ => r.bytes_ne_nil
  rw [h.rosterLen] at hroom
  omega

/-- **A roster is published.** -/
theorem flushRoster_built (hcovr : (v.covering == some true) = covering)
    (hflush : v.flushRoster w s = .ok (s', v')) :
    s.Extends s' ∧ (∃ id, v' = { v with
        rosterTail := some id
        blockCount := 0
        roster := []
        rosterLen := rosterHeader }) ∧
      Chain s' le covering v'.rosterTail (refs :: older) := by
  unfold flushRoster at hflush
  split at hflush
  · cases hflush
  obtain ⟨⟨s₁, id⟩, hwrite, hrest⟩ := ok_of_bind_ok hflush
  cases hrest
  obtain ⟨hext, hsto, hnamed⟩ := BlockWriter.writeBlock_ok hwrite
  refine ⟨hext, ⟨id, rfl⟩, ?_⟩
  rw [hcovr, h.blockCount, h.roster] at hsto
  exact .cons hsto hnamed h.refs_lt (fun r hr => (h.sound r hr).mono hext) (h.chain.mono hext)

/-- **Room for a reference**: the roster has it, or it is published and an empty one begins. -/
lemma rosterRoom_built (hcovr : (v.covering == some true) = covering) {len : ℕ}
    (hfits : rosterHeader + len ≤ maxPayload) (hroom : rosterRoom w s v len = .ok (s', v')) :
    s.Extends s' ∧ v'.covering = v.covering ∧ v'.pendingFilter = v.pendingFilter ∧
      v'.rosterLen + len ≤ maxPayload ∧
      ∃ older' refs', Built s' le covering v' older' refs' chunk entries := by
  unfold rosterRoom at hroom
  split at hroom
  · rename_i hfull
    obtain ⟨hext, ⟨id, rfl⟩, hchain⟩ := flushRoster_built h hcovr hroom
    refine ⟨hext, rfl, rfl, hfits, refs :: older, [], ?_⟩
    -- an empty roster has room for any reference
    have hne : refs ≠ [] := by
      rintro rfl
      rw [h.rosterLen, h.roster, flatMap_nil, length_nil] at hfull
      omega
    exact
      { h with
        entries_eq := by
          rw [h.entries_eq]
          simp [chainRefs]
        chain := hchain
        full := forall_mem_cons.mpr ⟨hne, h.full⟩
        roster := rfl
        rosterLen := rfl
        room := by
          show rosterHeader ≤ maxPayload
          omega
        blockCount := rfl
        sound := fun r hr => nomatch hr }
  · rename_i hfull
    cases hroom
    exact ⟨.refl s, rfl, rfl, Nat.le_of_not_lt hfull, older, refs, h⟩

/-- **The pending block is published.** -/
theorem flush_built (hcovr : (v.covering == some true) = covering)
    (hflush : v.flush w s = .ok (s', v')) :
    s.Extends s' ∧ v'.covering = v.covering ∧
      ∃ older' refs', Built s' le covering v' older' refs' [] entries := by
  unfold flush at hflush
  split at hflush
  · -- nothing is pending
    rename_i hzero
    cases hflush
    have hnil : chunk = [] := by
      have hlen : (chunk.map record).length ≤ v.pending.length :=
        h.pending ▸ length_le_flatMap fun e _ => length_bytes_pos e
      rw [← h.pendingLen, hzero, length_map] at hlen
      exact eq_nil_of_length_eq_zero (Nat.le_zero.mp hlen)
    subst hnil
    exact ⟨.refl s, rfl, older, refs, h⟩
  rename_i hsome
  have hne : chunk ≠ [] := by
    rintro rfl
    rw [h.pendingLen, h.pending] at hsome
    exact hsome rfl
  obtain ⟨⟨s₁, id⟩, hwrite, hadd⟩ := ok_of_bind_ok hflush
  obtain ⟨hext₁, hsto, -⟩ := BlockWriter.writeBlock_ok hwrite
  rw [h.pending] at hsto
  -- the new reference
  obtain ⟨bounds, hbounds⟩ : ∃ bounds, bounds = inlineBounds
      (v.pendingFirst.getD []) (v.pendingLast.getD []) := ⟨_, rfl⟩
  obtain ⟨r, hr⟩ : ∃ r : DataRef, r = ⟨id, v.pendingFilter, bounds, chunk⟩ := ⟨_, rfl⟩
  have hsound : r.Sound s₁ le covering := by
    subst hr
    refine ⟨hsto, hne, h.pendingChunk, fun first last hsome => ?_⟩
    obtain ⟨rfl, rfl⟩ := inlineBounds_eq_some (hbounds.symm.trans hsome)
    obtain ⟨e, rest, hcons⟩ := exists_cons_of_ne_nil hne
    constructor
    · rw [h.first, hcons]
      rfl
    · rw [h.last, getLast?_eq_some_getLast hne]
      rfl
  have hlen : orderedBlockRefHeader + boundsLength bounds = r.bytes.length := by
    rw [DataRef.length_bytes hsound.chunk.filterLength, hr]
  have hfits : rosterHeader + r.bytes.length ≤ maxPayload := by
    rw [← hlen, hbounds]
    exact inlineBounds_fits _ _
  rw [← hbounds] at hadd
  unfold addReference at hadd
  rw [hlen] at hadd
  obtain ⟨⟨s₂, v₂⟩, hroster, hrest⟩ := ok_of_bind_ok hadd
  cases hrest
  have h₁ : Built s₁ le covering v older refs chunk entries :=
    { h with
      chain := h.chain.mono hext₁
      sound := fun r hr => (h.sound r hr).mono hext₁ }
  obtain ⟨hext₂, hcov, hfilter, hroom, older', refs', h₂⟩ := rosterRoom_built h₁ hcovr hfits hroster
  have hbytes : refBytes id v₂.pendingFilter bounds = r.bytes := by
    rw [hfilter, hr]
    rfl
  refine ⟨hext₁.trans hext₂, hcov, older', refs' ++ [r], ?_⟩
  exact
    { entries_eq := by
        rw [h₂.entries_eq, hr]
        simp
      chain := h₂.chain
      full := h₂.full
      roster := by
        show v₂.roster ++ refBytes id v₂.pendingFilter bounds = (refs' ++ [r]).flatMap DataRef.bytes
        rw [flatMap_append, ← h₂.roster, hbytes]
        simp
      rosterLen := by
        show v₂.rosterLen + (orderedBlockRefHeader + boundsLength bounds) =
          rosterHeader + (v₂.roster ++ refBytes id v₂.pendingFilter bounds).length
        rw [hbytes, hlen, h₂.rosterLen, length_append]
        omega
      room := by
        show v₂.rosterLen + (orderedBlockRefHeader + boundsLength bounds) ≤ maxPayload
        rw [hlen]
        exact hroom
      blockCount := by
        show v₂.blockCount + 1 = (refs' ++ [r]).length
        rw [length_append, length_singleton, h₂.blockCount]
      sound := forall_mem_append.mpr ⟨h₂.sound, forall_mem_singleton.mpr (hsound.mono hext₂)⟩
      pending := rfl
      pendingLen := rfl
      pendingChunk := chunk_nil le covering
      first := rfl
      last := rfl
      count := h₂.count
      ordered := h₂.ordered }

/-- **An entry is added to the pending block.** -/
theorem put_built {e : ValueIndexEntry} (hpay : e.payload.isSome = covering)
    (hkey : e.key ≠ [] ∧ e.key.length < 2 ^ 32 ∧ (e.payload.getD []).length < 2 ^ 32)
    (hlast : ∀ last ∈ entries.getLast?.map key, le last e.key) :
    Built s le covering (v.put e) older refs (chunk ++ [e]) (entries ++ [e]) := by
  have hents : entries ++ [e] =
      (chainRefs older ++ refs).flatMap DataRef.entries ++ (chunk ++ [e]) := by
    rw [h.entries_eq, append_assoc]
  have hordered : ((entries ++ [e]).map key).IsChain le := by
    rw [map_append, isChain_append]
    refine ⟨h.ordered, .singleton _, fun last hmem key hhead => ?_⟩
    rw [getLast?_map] at hmem
    cases hhead
    exact hlast last hmem
  have hbits : v.pendingFilter.length * 8 < 2 ^ 64 := by
    rw [h.pendingChunk.filterLength]
    decide
  have hlen : (e.record.bytes covering).length =
      entryHeader covering + e.key.length + (e.payload.getD []).length := by
    unfold ValueIndexRecord.bytes entryHeader record
    cases covering <;>
      simp only [length_append, length_leBytes, if_true, Bool.false_eq_true, if_false,
        length_nil] <;>
      omega
  have hmem {P : ValueIndexEntry → Prop} (hold : ∀ e' ∈ chunk, P e') (hnew : P e) :=
    forall_mem_append.mpr ⟨hold, forall_mem_singleton.mpr hnew⟩
  subst hpay
  exact
    { entries_eq := hents
      chain := h.chain
      full := h.full
      roster := h.roster
      rosterLen := h.rosterLen
      room := h.room
      blockCount := h.blockCount
      sound := h.sound
      pending := by
        show v.pending ++ e.record.bytes e.payload.isSome =
          dataBytes e.payload.isSome (chunk ++ [e])
        rw [h.pending]
        simp [dataBytes]
      pendingLen := by
        show v.pendingLen +
          (entryHeader e.payload.isSome + e.key.length + (e.payload.getD []).length) =
          (v.pending ++ e.record.bytes e.payload.isSome).length
        rw [length_append, hlen, h.pendingLen]
      pendingChunk :=
        { filterLength := (length_bloomInsert _ _).trans h.pendingChunk.filterLength
          admits :=
            hmem (fun e' he' => bloomMaybeContains_insert_mono _ (h.pendingChunk.admits e' he'))
            (bloomMaybeContains_insert hbits _)
          payloads := hmem h.pendingChunk.payloads rfl
          keys := hmem h.pendingChunk.keys hkey
          ordered := by
            rw [hents, map_append] at hordered
            exact hordered.right_of_append }
      first := by
        show some (v.pendingFirst.getD e.key) = (chunk ++ [e]).head?.map key
        rw [h.first]
        cases chunk <;> rfl
      last := by
        show some e.key = (chunk ++ [e]).getLast?.map key
        rw [getLast?_concat]
        rfl
      count := by
        show v.entries + 1 = (entries ++ [e]).length
        rw [length_append, length_singleton, h.count]
      ordered := hordered }

lemma Built.withCovering (flag : Option Bool) :
    Built s le covering { v with covering := flag } older refs chunk entries :=
  { h with }

end

/-- The order in which a writer accepts keys. -/
def Accepted (compare : Bytes → Bytes → Ordering) (a b : Bytes) : Prop := compare a b ≠ .gt

/-- What the writer accepts. -/
lemma accept_ok {e : ValueIndexEntry} (h : v.accept compare e = .ok ()) :
    e.key.length ≤ valueIndexKeyMax ∧ (∀ c ∈ v.covering, c = e.payload.isSome) ∧
      (e.payload.getD []).length ≤ valueIndexTupleMax ∧
      (0 < v.entries → ∀ last ∈ v.pendingLast, Accepted compare last e.key) := by
  unfold accept at h
  split at h
  · cases h
  rename_i hlong
  split at h
  · cases h
  rename_i hcovr
  split at h
  · cases h
  rename_i htuple
  split at h
  · cases h
  rename_i horder
  refine ⟨Nat.le_of_not_lt hlong, fun c hc => ?_, ?_, fun hpos last hlast => ?_⟩
  · rw [Option.mem_def] at hc
    simpa [hc] using hcovr
  · rcases hpay : e.payload with _ | payload
    · exact zero_le
    · rw [hpay] at htuple
      simp only [Option.isSome_some, true_and] at htuple ⊢
      omega
  · rw [Option.mem_def] at hlast
    rw [hlast, Option.any_some] at horder
    intro hgt
    exact horder ⟨hpos, by rw [hgt]; rfl⟩

/-- **All entries appended.** Induction from the last entry. -/
theorem appendAll_built {start : BlockStore} (hkeys : ∀ e ∈ entries, e.key ≠ [])
    (happ : appendAll w compare start entries = .ok (s, v)) :
    (entries = [] → v = .new) ∧ ∃ covering, (entries ≠ [] → v.covering = some covering) ∧
      v.pendingLast = entries.getLast?.map key ∧
      ∃ older refs chunk, Built s (Accepted compare) covering v older refs chunk entries := by
  induction entries using reverseRecOn generalizing s v with
  | nil =>
    cases happ
    exact ⟨fun _ => rfl, false, fun hne => absurd rfl hne, rfl, [], [], [], built_new _ _ _⟩
  | append_singleton entries e ih =>
    unfold appendAll at happ ih
    rw [foldlM_append] at happ
    obtain ⟨⟨s₁, v₁⟩, hbefore, hone⟩ := ok_of_bind_ok happ
    obtain ⟨hnew, covering, hflag, hlast, older, refs, chunk, hbuilt⟩ :=
      ih (fun e' he' => hkeys e' (mem_append_left _ he')) hbefore
    rw [foldlM_cons] at hone
    obtain ⟨⟨s₂, v₂⟩, hinner, hnil⟩ := ok_of_bind_ok hone
    cases hnil
    obtain ⟨⟨⟩, hadmit, hroom⟩ := ok_of_bind_ok hinner
    obtain ⟨⟨s₃, v₃⟩, hpend, hput⟩ := ok_of_bind_ok hroom
    obtain ⟨rfl, rfl⟩ := Prod.mk.inj (Except.ok.inj hput)
    obtain ⟨hlong, hsame, htuple, horder⟩ := accept_ok hadmit
    -- the flag of the generation is that of its first entry
    obtain ⟨older', refs', chunk', hbuilt'⟩ : ∃ older refs chunk,
        Built s₁ (Accepted compare) e.payload.isSome v₁ older refs chunk entries := by
      by_cases hempty : entries = []
      · subst hempty
        rw [hnew rfl]
        exact ⟨[], [], [], built_new _ _ _⟩
      · obtain rfl := hsame covering (hflag hempty)
        exact ⟨older, refs, chunk, hbuilt⟩
    have hmax : maxPayload = 262092 := rfl
    have hkeyMax : valueIndexKeyMax = maxPayload - 28 - 8 - 20 := rfl
    have htupleMax : valueIndexTupleMax = maxPayload - 32 - 8 - 20 := rfl
    have hkey : e.key ≠ [] ∧ e.key.length < 2 ^ 32 ∧ (e.payload.getD []).length < 2 ^ 32 :=
      ⟨hkeys e (mem_append_right _ (mem_singleton_self e)), by omega, by omega⟩
    have hbehind : ∀ last ∈ entries.getLast?.map key, Accepted compare last e.key := by
      intro last hmem
      refine horder ?_ last (hlast ▸ hmem)
      rw [hbuilt'.count]
      refine length_pos_of_ne_nil ?_
      rintro rfl
      cases hmem
    -- the pending block is published if it has no room
    obtain ⟨hcovr, older'', refs'', chunk'', hbuilt''⟩ : v₃.covering = some e.payload.isSome ∧
        ∃ older refs chunk,
          Built s₃ (Accepted compare) e.payload.isSome v₃ older refs chunk entries := by
      unfold pendingRoom at hpend
      split at hpend
      · obtain ⟨-, hcov, older'', refs'', hflushed⟩ := flush_built
          (hbuilt'.withCovering (some e.payload.isSome)) (by cases e.payload.isSome <;> rfl) hpend
        exact ⟨hcov, older'', refs'', [], hflushed⟩
      · cases hpend
        exact ⟨rfl, older', refs', chunk', hbuilt'.withCovering _⟩
    refine ⟨fun hnil => absurd hnil (by simp), e.payload.isSome, fun _ => hcovr, ?_, older'',
      refs'',
      chunk'' ++ [e], put_built hbuilt'' rfl hkey hbehind⟩
    rw [getLast?_concat]
    rfl

/-! ## Generations -/

/-- **A generation**: a chain of rosters whose blocks hold the entries in order. -/
structure Generation (s : BlockStore) (le : Bytes → Bytes → Prop) (h : ValueIndexHandle)
    (rosters : List (List DataRef)) (covering : Bool) (entries : List ValueIndexEntry) : Prop where
  chain : Chain s le covering (some h.roster) rosters
  entries_eq : entries = (chainRefs rosters).flatMap DataRef.entries
  count : h.entries = entries.length
  rosters_le : rosters.length ≤ entries.length + 1

lemma length_le_chainRefs {ros : List (List DataRef)} (hfull : ∀ roster ∈ ros, roster ≠ []) :
    ros.length ≤ (chainRefs ros).length := by
  unfold chainRefs
  rw [length_flatten, map_reverse, sum_reverse]
  induction ros with
  | nil => exact le_rfl
  | cons roster ros ih =>
    have hpos := length_pos_of_ne_nil (hfull roster mem_cons_self)
    have hrest := ih (forall_mem_cons.mp hfull).2
    rw [map_cons, sum_cons, length_cons]
    omega

/-- Every block of a chain is sound. -/
lemma Chain.sound {root : Option BlockId} {ros : List (List DataRef)}
    (h : Chain s le covering root ros) : ∀ r ∈ chainRefs ros, r.Sound s le covering := by
  induction h with
  | nil =>
    nofun
  | cons _ _ _ sound _ ih =>
    intro r hr
    rw [chainRefs_cons, mem_append] at hr
    rcases hr with hold | hnew
    · exact ih r hold
    · exact sound r hnew

/-- **What a finished generation holds.** -/
theorem build_generation {start : BlockStore} {hd : ValueIndexHandle}
    (hkeys : ∀ e ∈ entries, e.key ≠ []) (hbuild : build w compare start entries = .ok (s, hd)) :
    ∃ rosters covering, Generation s (Accepted compare) hd rosters covering entries := by
  obtain ⟨⟨s₁, v₁⟩, happ, hfin⟩ := ok_of_bind_ok hbuild
  obtain ⟨hnew, covering, hflag, -, older, refs, chunk, hbuilt⟩ := appendAll_built hkeys happ
  obtain ⟨⟨s₂, v₂⟩, hflush, hfin⟩ := ok_of_bind_ok hfin
  obtain ⟨⟨s₃, v₃⟩, hroster, hfin⟩ := ok_of_bind_ok hfin
  -- a generation without entries is not a covering one
  obtain ⟨covering', hcovr, older', refs', chunk', hbuilt'⟩ : ∃ covering',
      (v₁.covering == some true) = covering' ∧ ∃ older refs chunk,
        Built s₁ (Accepted compare) covering' v₁ older refs chunk entries := by
    by_cases hempty : entries = []
    · subst hempty
      rw [hnew rfl]
      exact ⟨false, rfl, [], [], [], built_new _ _ _⟩
    · refine ⟨covering, ?_, older, refs, chunk, hbuilt⟩
      rw [hflag hempty]
      cases covering <;> rfl
  obtain ⟨-, hsame, older'', refs'', hflushed⟩ := flush_built hbuilt' hcovr hflush
  obtain ⟨-, ⟨id, rfl⟩, hchain⟩ := flushRoster_built hflushed (hsame ▸ hcovr) hroster
  cases hfin
  have hents : entries = (chainRefs (refs'' :: older'')).flatMap DataRef.entries := by
    rw [hflushed.entries_eq]
    simp [chainRefs]
  refine ⟨refs'' :: older'', covering', ⟨hchain, hents, hflushed.count, ?_⟩⟩
  have hrefs := length_le_chainRefs hflushed.full
  have hblocks : (chainRefs older'').length ≤
      ((chainRefs older'').flatMap DataRef.entries).length :=
    length_le_flatMap fun r hr => (hflushed.chain.sound r hr).nonempty
  rw [hflushed.entries_eq, flatMap_append, length_append, length_append, length_cons]
  omega

end Writer

end Pos3ql
