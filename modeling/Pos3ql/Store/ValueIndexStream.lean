import Pos3ql.Store.ValueIndexRead

/-!
# The stream over a value-index generation

The stream is left and taken up at every read. What it has still to yield (`Remains`) changes by the
entry it yields and by nothing else, whatever the calls were ready for; and a call that could read
gets it on. A stream with fewer places than the generation has data blocks never gets past the
rosters.

* **`Remains`**: the entries still to come, and how many calls at most.
* **`nextCopy_advances`**, `run_remains`.
* `Crowded`, `run_crowded`: too few places.
* **`generation_loses_nothing`**.

Source: `store/value.rs` (`next_copy`).
-/

namespace Pos3ql

open Foundation ValueIndexStream List DataRef ValueIndexEntry Option

/-! ## What is still to come -/

/-- The stream's note of a data block. -/
def DataRef.noted (covering : Bool) (r : DataRef) : BlockId × Bool := (r.id, covering)

/-- The output has room for every entry. -/
def Roomy (entries : List ValueIndexEntry) (room : ℕ) : Prop :=
  ∀ e ∈ entries, 32 + e.record.key.length + e.record.payload.length ≤ room

/-- The entry as the stream copies it. -/
def ValueIndexEntry.copied (e : ValueIndexEntry) : Bytes := e.record.bytes true

section Streams

variable (s : BlockStore) (le : Bytes → Bytes → Prop) (handle : ValueIndexHandle) (covering : Bool)
  (capacity : ℕ) (refs : List DataRef)

/-- **What a stream over the data blocks `refs` has still to yield**, and a bound on the calls that
takes. -/
inductive Remains : ValueIndexStream → List ValueIndexEntry → ℕ → Prop
  | collect {root : Option BlockId} {rosters : List (List DataRef)} {collected : List DataRef}
      {flag : Bool} (chain : Chain s le covering root rosters)
      (split : refs = chainRefs rosters ++ collected)
      (count : (refs.flatMap DataRef.entries).length = handle.entries) :
      Remains ⟨handle, capacity, collected.reverse.map (noted covering), [], flag, 0,
          .rosterCollect root⟩ (refs.flatMap DataRef.entries)
        (rosters.length + (refs.flatMap DataRef.entries).length + 1)
  | emit {shown rest : List DataRef} {filter : Bytes} {chunk : List ValueIndexEntry} {flag : Bool}
      {entries : ℕ} (split : refs = shown ++ rest) (loaded : Chunk le covering filter chunk)
      (flag_eq : chunk ≠ [] → flag = covering)
      (count : entries + (chunk ++ rest.flatMap DataRef.entries).length = handle.entries) :
      Remains ⟨handle, capacity, refs.reverse.map (noted covering), dataBytes covering chunk,
          flag, entries, .rosterBlocks rest.length⟩ (chunk ++ rest.flatMap DataRef.entries)
        ((chunk ++ rest.flatMap DataRef.entries).length + 1)
  | load {shown rest : List DataRef} {r : DataRef} {flag : Bool} {entries : ℕ}
      (split : refs = shown ++ r :: rest)
      (count : entries + ((r :: rest).flatMap DataRef.entries).length = handle.entries) :
      Remains ⟨handle, capacity, refs.reverse.map (noted covering), [], flag, entries,
          .data r.id covering rest.length⟩ ((r :: rest).flatMap DataRef.entries)
        (((r :: rest).flatMap DataRef.entries).length + 1)
  | done {blocks : List (BlockId × Bool)} {flag : Bool} {entries : ℕ} :
      Remains ⟨handle, capacity, blocks, [], flag, entries, .done⟩ [] 0

/-- **How a call changes what remains**: by the entry it yields. It gets the stream on if it may
read, what it reads is ready, and the output has room. -/
structure Advances (call : Call) (st' : ValueIndexStream)
    (result : Except ValueIndexError ValueIndexStreamStep) (rest rest' : List ValueIndexEntry)
    (n n' : ℕ) : Prop where
  remains : Remains s le handle covering capacity refs st' rest' n'
  yields : rest.map copied = yielded result ++ rest'.map copied
  bound : n' ≤ n
  done_iff : result = .ok .done ↔ n' = 0
  intact : Roomy rest call.room → result ≠ .error .corrupt
  effective : s.Extends call.ready → 0 < call.maxGets → Roomy rest call.room → n' < n ∨ n' = 0

end Streams

/-! ## One call -/

section Step

variable {s : BlockStore} {le : Bytes → Bytes → Prop} {handle : ValueIndexHandle}
  {covering : Bool} {cap : ℕ} {refs : List DataRef} {call : Call}

variable {st : ValueIndexStream} {rest chunk : List ValueIndexEntry} {n : ℕ} {e : ValueIndexEntry}
  {shown fresh : List DataRef} {flag : Bool} {blocks : List (BlockId × Bool)}

/-- A call that cannot read leaves everything to be yielded. -/
lemma Advances.stay {result : Except ValueIndexError ValueIndexStreamStep} {n : ℕ}
    (h : Remains s le handle covering cap refs st rest n) (hn : n ≠ 0)
    (hresult : result = .ok .pending ∨ result = .error .store)
    (hwhy : ¬(s.Extends call.ready ∧ 0 < call.maxGets)) :
    Advances s le handle covering cap refs call st result rest rest n n where
  remains := h
  yields := by rcases hresult with rfl | rfl <;> rfl
  bound := le_refl n
  done_iff := by rcases hresult with rfl | rfl <;> exact iff_of_false nofun hn
  intact _ := by rcases hresult with rfl | rfl <;> exact nofun
  effective hready hgets _ := absurd ⟨hready, hgets⟩ hwhy

/-- A chunk without its first entry. -/
lemma chunk_tail {filter : Bytes}
    (h : Chunk le covering filter (e :: chunk)) : Chunk le covering filter chunk where
  filterLength := h.filterLength
  admits e' he' := h.admits e' (mem_cons_of_mem _ he')
  payloads e' he' := h.payloads e' (mem_cons_of_mem _ he')
  keys e' he' := h.keys e' (mem_cons_of_mem _ he')
  ordered := List.IsChain.tail h.ordered

/-- An entry has bytes. -/
lemma dataBytes_ne_nil : dataBytes covering (e :: chunk) ≠ [] := by
  intro hnil
  exact length_bytes_pos e.record (append_eq_nil_iff.mp hnil).1

/-- An entry is copied out of the loaded block, if there is room for it. -/
lemma copyEntry_advances {rest : List DataRef} {filter : Bytes} {es : ℕ}
    (split : refs = shown ++ rest) (loaded : Chunk le covering filter (e :: chunk))
    (count : es + (e :: chunk ++ rest.flatMap entries).length = handle.entries) :
    ∃ st' result rest' n', copyEntry call.room
      ⟨handle, cap, refs.reverse.map (noted covering), dataBytes covering (e :: chunk), covering,
        es, .rosterBlocks rest.length⟩ = some (st', result) ∧
      Advances s le handle covering cap refs call st' result (e :: chunk ++ rest.flatMap entries)
        rest' ((e :: chunk ++ rest.flatMap entries).length + 1) n' := by
  have hread := takeRecord_append (loaded.fits e.record (mem_map_of_mem mem_cons_self))
    (dataBytes covering chunk)
  unfold copyEntry
  simp only
  rw [show dataBytes covering (e :: chunk) = e.record.bytes covering ++
    dataBytes covering chunk from rfl,
    hread]
  simp only
  by_cases hroom : call.room < 32 + e.record.key.length + e.record.payload.length
  · -- the entry stays where it is
    have hnot : ¬Roomy (e :: chunk ++ rest.flatMap entries) call.room := by
      intro hroomy
      have hneeded := hroomy e mem_cons_self
      omega
    rw [if_pos hroom]
    refine ⟨_, _, _, _, rfl, .emit split loaded (fun _ => rfl) count, rfl, le_rfl, ?_,
      fun h => absurd h hnot, fun _ _ h => absurd h hnot⟩
    exact iff_of_false nofun nofun
  · rw [if_neg hroom]
    rw [cons_append, length_cons] at count
    rw [cons_append, length_cons]
    refine ⟨_, _, _, _, rfl, .emit split (chunk_tail loaded) (fun _ => rfl) (by omega),
      rfl, by omega,
      ?_, nofun, fun _ _ _ => .inl (by omega)⟩
    exact iff_of_false nofun nofun

/-- The step that copies from a data block. -/
lemma nextData_advances {rest : List DataRef} {r : DataRef} {es : ℕ}
    (split : refs = shown ++ r :: rest) (hsound : ∀ r ∈ refs, r.Sound s le covering)
    (hready : call.ready.Extends s)
    (count : es + ((r :: rest).flatMap entries).length = handle.entries) :
    ∃ st' result rest' n', nextData call.ready call.maxGets call.room r.id covering rest.length
      ⟨handle, cap, refs.reverse.map (noted covering), [], flag, es,
        .data r.id covering rest.length⟩ = some (st', result) ∧
      Advances s le handle covering cap refs call st' result ((r :: rest).flatMap entries) rest'
        (((r :: rest).flatMap entries).length + 1) n' := by
  have hload : Remains s le handle covering cap refs ⟨handle, cap,
      refs.reverse.map (noted covering), [], flag, es, .data r.id covering rest.length⟩
      _ _ := .load split count
  unfold nextData
  by_cases hgets : call.maxGets = 0
  · rw [if_pos hgets]
    exact ⟨_, _, _, _, rfl, .stay hload nofun (.inl rfl) fun h => by omega⟩
  rw [if_neg hgets]
  have hr := hsound r (split ▸ mem_append_right _ mem_cons_self)
  rcases hblock : call.ready r.id with _ | block
  · refine ⟨_, _, _, _, rfl, .stay hload nofun (.inr rfl) fun h => ?_⟩
    have hthere := h.1 _ _ hr.stored
    rw [hblock] at hthere
    cases hthere
  have hsame := hready _ _ hblock
  rw [hr.stored] at hsame
  cases hsame
  obtain ⟨e, chunk, hents⟩ := exists_cons_of_ne_nil hr.nonempty
  have hchunk := hr.chunk
  simp only
  rw [flatMap_cons, hents] at count ⊢
  rw [hents] at hchunk
  rw [if_neg (fun h => h rfl)]
  exact copyEntry_advances (by rw [split, append_cons]) hchunk count

/-- The place of the next data block. -/
lemma noted_getElem {rest : List DataRef} {r : DataRef} :
    ((shown ++ r :: rest).reverse.map (noted covering))[rest.length]? = some (r.id, covering) := by
  rw [reverse_append, reverse_cons, append_assoc, map_append,
    getElem?_append_right (by simp), length_map, length_reverse, Nat.sub_self]
  rfl

/-- The step that turns to the next data block. -/
lemma nextBlock_advances {rest : List DataRef} {es : ℕ} (split : refs = shown ++ rest)
    (hsound : ∀ r ∈ refs, r.Sound s le covering) (hready : call.ready.Extends s)
    (count : es + (rest.flatMap entries).length = handle.entries) :
    ∃ st' result rest' n', nextBlock call.ready call.maxGets call.room
      ⟨handle, cap, refs.reverse.map (noted covering), [], flag, es, .rosterBlocks rest.length⟩
      rest.length = some (st', result) ∧
      Advances s le handle covering cap refs call st' result (rest.flatMap entries) rest'
        ((rest.flatMap entries).length + 1) n' := by
  rcases rest with _ | ⟨r, rest⟩
  · rw [length_nil, nextBlock, if_neg (fun h => h count)]
    exact ⟨_, _, _, _, rfl, .done, rfl, zero_le, iff_of_true rfl rfl, nofun, fun _ _ _ => .inr rfl⟩
  have hemit : Remains s le handle covering cap refs
      ⟨handle, cap, refs.reverse.map (noted covering), [],
      flag, es, .rosterBlocks (r :: rest).length⟩ ((r :: rest).flatMap
        entries) (((r :: rest).flatMap
      entries).length + 1) :=
    .emit split (chunk_nil le covering) (fun h => absurd rfl h) count
  rw [length_cons, nextBlock]
  by_cases hgets : call.maxGets = 0
  · rw [if_pos hgets]
    exact ⟨_, _, _, _, rfl, .stay hemit nofun (.inl rfl) fun h => by omega⟩
  rw [if_neg hgets]
  simp only
  rw [show (refs.reverse.map (noted covering))[rest.length]? = some (r.id, covering) from
    split ▸ noted_getElem]
  exact nextData_advances split hsound hready count

/-- With room, every reference of a roster is noted. -/
lemma collectRefs_flatMap (hsound : ∀ r ∈ fresh, r.Sound s le covering)
    (hroom : blocks.length + fresh.length ≤ cap) :
    collectRefs .ordered covering cap fresh.length (fresh.flatMap bytes) blocks =
      (blocks ++ fresh.map (noted covering), .ok []) := by
  induction fresh generalizing blocks with
  | nil =>
    rw [map_nil, append_nil]
    rfl
  | cons r fresh ih =>
    rw [length_cons] at hroom
    rw [flatMap_cons, length_cons, collectRefs, takeRosterRef_append (hsound r mem_cons_self)]
    simp only
    rw [if_neg (by omega),
      ih (forall_mem_cons.mp hsound).2 (by rw [length_append, length_singleton]; omega),
      append_assoc]
    rfl

/-- Noting more references than there are places fails when all places are taken. -/
lemma collectRefs_crowded (hsound : ∀ r ∈ fresh, r.Sound s le covering)
    (hplaces : blocks.length ≤ cap) (hcrowded : cap < blocks.length + fresh.length) :
    ∃ blocks', blocks'.length = cap ∧
      collectRefs .ordered covering cap fresh.length (fresh.flatMap bytes) blocks =
        (blocks', .error .corrupt) := by
  induction fresh generalizing blocks with
  | nil =>
    rw [length_nil] at hcrowded
    omega
  | cons r fresh ih =>
    rw [length_cons] at hcrowded
    rw [flatMap_cons, length_cons, collectRefs, takeRosterRef_append (hsound r mem_cons_self)]
    simp only
    by_cases hfull : blocks.length = cap
    · rw [if_pos hfull]
      exact ⟨blocks, hfull, rfl⟩
    rw [if_neg hfull]
    exact ih (forall_mem_cons.mp hsound).2 (by rw [length_append, length_singleton]; omega)
      (by rw [length_append, length_singleton]; omega)

/-- A roster whose references have room. -/
lemma collectRoster_ok {prev : Option BlockId} (hcount : fresh.length < 2 ^ 28)
    (hrefs : collectRefs .ordered covering st.capacity fresh.length (fresh.flatMap bytes)
      st.blocks = (blocks, .ok [])) :
    collectRoster ⟨rosterPayload covering prev fresh, .valueIndexRoster⟩ st = some ({ st with
        blocks := blocks.take st.blocks.length ++ (blocks.drop st.blocks.length).reverse
        state :=
          .rosterCollect (rosterPredecessor (rosterPayload covering prev fresh))
            }, .ok .pending) := by
  have hlong : ¬(rosterPayload covering prev fresh).length < rosterHeader :=
    not_lt.mpr length_rosterPayload
  simp only [collectRoster, ne_eq, not_true_eq_false, false_or, if_neg hlong,
    leNat_rosterPayload hcount, rosterLayout_rosterWord hcount, drop_rosterPayload, hrefs]

/-- A roster whose references have none. -/
lemma collectRoster_error {prev : Option BlockId}
    {e : ValueIndexError} (hcount : fresh.length < 2 ^ 28)
    (hrefs : collectRefs .ordered covering st.capacity fresh.length (fresh.flatMap bytes)
      st.blocks = (blocks, .error e)) :
    collectRoster ⟨rosterPayload covering prev fresh, .valueIndexRoster⟩ st =
      some ({ st with blocks }, .error e) := by
  have hlong : ¬(rosterPayload covering prev fresh).length < rosterHeader :=
    not_lt.mpr length_rosterPayload
  simp only [collectRoster, ne_eq, not_true_eq_false, false_or, if_neg hlong,
    leNat_rosterPayload hcount, rosterLayout_rosterWord hcount, drop_rosterPayload, hrefs]

/-- The step that reads a roster. -/
lemma nextRoster_advances {root : Option BlockId} {id : BlockId} {ros : List (List DataRef)}
    {collected : List DataRef} (chain : Chain s le covering root ros)
    (hroot : root = some id) (split : refs = chainRefs ros ++ collected)
    (hready : call.ready.Extends s) (hcap : refs.length ≤ cap)
    (count : (refs.flatMap entries).length = handle.entries) :
    ∃ st' result rest' n', nextRoster call.ready call.maxGets id ⟨handle, cap,
          collected.reverse.map (noted covering), [], flag, 0, .rosterCollect (some id)⟩ =
        some (st', result) ∧
      Advances s le handle covering cap refs call st' result (refs.flatMap entries) rest'
        (ros.length + (refs.flatMap entries).length + 1) n' := by
  subst hroot
  have hcollect : Remains s le handle covering cap refs ⟨handle, cap,
      collected.reverse.map (noted covering), [], flag, 0, .rosterCollect (some id)⟩ _ _ :=
    .collect chain split count
  unfold nextRoster
  by_cases hgets : call.maxGets = 0
  · rw [if_pos hgets]
    exact ⟨_, _, _, _, rfl, .stay hcollect nofun (.inl rfl) fun h => by omega⟩
  rw [if_neg hgets]
  cases chain with
  | @cons _ previous fresh older stored named hcount sound rest =>
    rcases hblock : call.ready id with _ | block
    · refine ⟨_, _, _, _, rfl, .stay hcollect nofun (.inr rfl) fun h => ?_⟩
      have hthere := h.1 _ _ stored
      rw [hblock] at hthere
      cases hthere
    have hsame := hready _ _ hblock
    rw [stored] at hsame
    cases hsame
    have hsplit : refs = chainRefs older ++ (fresh ++ collected) := by
      rw [split, chainRefs_cons, append_assoc]
    have hlen : collected.length + fresh.length ≤ refs.length := by
      rw [hsplit, length_append, length_append]
      omega
    simp only
    rw [collectRoster_ok hcount (collectRefs_flatMap sound (by simp; omega)),
      rosterPredecessor_payload rest.named]
    simp only
    have hblocks : ∀ old new : List (BlockId × Bool),
        (old ++ new).take old.length ++ ((old ++ new).drop old.length).reverse =
          old ++ new.reverse := by
      intro old new
      rw [take_left, drop_left]
    rw [hblocks, ← map_reverse, ← map_append, ← reverse_append]
    refine ⟨_, _, _, _, rfl, .collect rest hsplit count, rfl, ?_, ?_, nofun, fun _ _ _ => .inl ?_⟩
    · rw [length_cons]
      omega
    · exact iff_of_false nofun nofun
    · rw [length_cons]
      omega

/-- **One call.** -/
theorem nextCopy_advances (h : Remains s le handle covering cap refs st rest n)
    (hsound : ∀ r ∈ refs, r.Sound s le covering) (hready : call.ready.Extends s)
    (hcap : refs.length ≤ cap) :
    ∃ st' result rest' n', st.nextCopy call.ready call.maxGets call.room = some (st', result) ∧
      Advances s le handle covering cap refs call st' result rest rest' n n' := by
  cases h with
  | @collect root rosters collected flag chain split count =>
    rcases root with _ | id
    · -- every roster is read: the blocks follow in the same call
      cases chain
      rw [show chainRefs [] = [] from rfl] at split
      subst split
      have hblock := @nextBlock_advances s le handle covering cap refs call [] flag refs 0
        (nil_append refs).symm hsound hready (by rw [zero_add, count])
      unfold nextCopy
      simp only [ne_eq, length_map, length_reverse, length_nil, zero_add]
      exact hblock
    · exact nextRoster_advances chain rfl split hready hcap count
  | @emit shown rest filter chunk flag es split loaded flag_eq count =>
    rcases chunk with _ | ⟨e, chunk⟩
    · exact nextBlock_advances split hsound hready count
    obtain rfl := flag_eq (cons_ne_nil _ _)
    unfold nextCopy
    rw [if_pos dataBytes_ne_nil]
    exact copyEntry_advances split loaded count
  | load split count => exact nextData_advances split hsound hready count
  | done =>
    exact ⟨_, _, _, _, rfl, .done, rfl, le_rfl, iff_of_true rfl rfl, nofun, fun _ _ _ => .inr rfl⟩

/-! ## Runs -/

/-- What fits the output still does later on. -/
lemma roomy_of_yields {st' : ValueIndexStream}
    {result : Except ValueIndexError ValueIndexStreamStep} {rest' : List ValueIndexEntry}
    {n' room : ℕ} (h : Advances s le handle covering cap refs call st' result rest rest' n n')
    (hroomy : Roomy rest room) :
    Roomy rest' room := by
  intro e he
  have hlen : ∀ e : ValueIndexEntry,
      e.copied.length = 32 + e.record.key.length + e.record.payload.length := by
    intro e
    simp only [copied, ValueIndexRecord.bytes, length_append, length_leBytes, if_true]
    omega
  have hmem : e.copied ∈ rest.map copied := by
    rw [h.yields]
    exact mem_append_right _ (mem_map_of_mem he)
  obtain ⟨e', he', hsame⟩ := mem_map.mp hmem
  have hthere := hroomy e' he'
  rw [← hlen e', hsame, hlen e] at hthere
  exact hthere

/-- A stream that is done has yielded everything. -/
lemma rest_of_done {rest' : List ValueIndexEntry}
    {out : List Bytes} (h : Remains s le handle covering cap refs st rest 0)
    (hyields : rest.map copied = out ++ rest'.map copied) :
    rest' = [] := by
  cases h
  exact map_eq_nil_iff.mp (append_eq_nil_iff.mp hyields.symm).2

/-- **Any calls**: what was yielded, and what remains. Induction on the calls. -/
theorem run_remains {calls : List Call} (h : Remains s le handle covering cap refs st rest n)
    (hsound : ∀ r ∈ refs, r.Sound s le covering) (hready : ∀ call ∈ calls, call.ready.Extends s)
    (hcap : refs.length ≤ cap) :
    ∃ st' results rest', st.run calls = some (st', results) ∧
      rest.map copied = results.flatMap yielded ++ rest'.map copied ∧
      (.ok .done ∈ results → rest' = []) ∧
      (∀ p ∈ calls.zip results, p.2 = .error .corrupt → ¬Roomy rest p.1.room) ∧
      ∀ good : List Call, good.Sublist calls →
        (∀ call ∈ good, s.Extends call.ready ∧ 0 < call.maxGets ∧ Roomy rest call.room) → 0 < n →
        n ≤ good.length → .ok .done ∈ results := by
  induction calls generalizing st rest n with
  | nil =>
    refine ⟨st, [], rest, rfl, rfl, nofun, fun p hp => (nomatch hp), fun good hgood _ hn hlen => ?_⟩
    rw [sublist_nil.mp hgood, length_nil] at hlen
    omega
  | cons call calls ih =>
    obtain ⟨st₁, result, rest₁, n₁, hcall, hadv⟩ :=
      nextCopy_advances h hsound (hready call mem_cons_self) hcap
    obtain ⟨st₂, results, rest₂, hrun, hyields, hdone, hok, hprogress⟩ :=
      ih hadv.remains (forall_mem_cons.mp hready).2
    -- what remains is part of what there was
    have hsub : ∀ room, Roomy rest room → Roomy rest₁ room := fun room hroomy =>
      roomy_of_yields hadv hroomy
    refine ⟨st₂, result :: results, rest₂, ?_, ?_, ?_, ?_, ?_⟩
    · rw [ValueIndexStream.run, hcall]
      change (st₁.run calls >>= _) = _
      rw [hrun]
      rfl
    · rw [hadv.yields, hyields, flatMap_cons, append_assoc]
    · intro hin
      rcases mem_cons.mp hin with hnow | hlater
      · obtain rfl := hadv.done_iff.mp hnow.symm
        exact rest_of_done hadv.remains hyields
      · exact hdone hlater
    · intro p hp hcorrupt hroomy
      rw [zip_cons_cons, mem_cons] at hp
      rcases hp with rfl | hlater
      · exact hadv.intact hroomy hcorrupt
      · exact hok p hlater hcorrupt (hsub _ hroomy)
    intro good hgood heffective hn hlen
    rcases Nat.eq_zero_or_pos n₁ with hzero | hpos
    · exact mem_cons.mpr (.inl (hadv.done_iff.mpr hzero).symm)
    refine mem_cons_of_mem _ ?_
    have hrest : ∀ good : List Call, (∀ c ∈ good, s.Extends c.ready ∧ 0 < c.maxGets ∧
        Roomy rest c.room) → ∀ c ∈ good, s.Extends c.ready ∧ 0 < c.maxGets ∧ Roomy rest₁ c.room :=
      fun good hall c hc => ⟨(hall c hc).1, (hall c hc).2.1, hsub _ (hall c hc).2.2⟩
    cases hgood with
    | cons _ hskip =>
      have hbound := hadv.bound
      exact hprogress good hskip (hrest good heffective) hpos (by omega)
    | @cons_cons good _ _ htail =>
      obtain ⟨hhas, hgets, hroomy⟩ := heffective call mem_cons_self
      rw [length_cons] at hlen
      rcases hadv.effective hhas hgets hroomy with hless | hzero
      · exact hprogress good htail (hrest good (forall_mem_cons.mp heffective).2) hpos (by omega)
      · omega

/-! ## Too few places -/

/-- **A stream that cannot note all blocks** of the rosters it still has to read. -/
def Crowded (s : BlockStore) (le : Bytes → Bytes → Prop) (covering : Bool) (st : ValueIndexStream) :
    Prop :=
  ∃ root rosters, Chain s le covering root rosters ∧ st.state = .rosterCollect root ∧ st.data = [] ∧
    st.blocks.length ≤ st.capacity ∧ st.capacity < st.blocks.length + rosters.flatten.length

/-- A stream with too few places yields nothing and does not end. -/
lemma nextCopy_crowded (h : Crowded s le covering st) (hready : call.ready.Extends s) :
    ∃ st' result, st.nextCopy call.ready call.maxGets call.room = some (st', result) ∧
      Crowded s le covering st' ∧ yielded result = [] ∧ result ≠ .ok .done := by
  obtain ⟨root, rosters, chain, hstate, hdata, hplaces, hcrowded⟩ := h
  unfold nextCopy
  rw [if_neg (fun hne => hne hdata), hstate]
  cases chain with
  | nil =>
    rw [flatten_nil, length_nil] at hcrowded
    omega
  | @cons id previous fresh older stored named hcount sound rest =>
    have hstay : Crowded s le covering st :=
      ⟨some id, fresh :: older, .cons stored named hcount sound rest, hstate, hdata, hplaces,
        hcrowded⟩
    simp only
    unfold nextRoster
    split
    · exact ⟨st, _, rfl, hstay, rfl, nofun⟩
    rcases hblock : call.ready id with _ | block
    · exact ⟨st, _, rfl, hstay, rfl, nofun⟩
    have hsame := hready _ _ hblock
    rw [stored] at hsame
    cases hsame
    simp only
    rw [flatten_cons, length_append] at hcrowded
    by_cases hfit : st.blocks.length + fresh.length ≤ st.capacity
    · rw [collectRoster_ok hcount (collectRefs_flatMap sound hfit),
        rosterPredecessor_payload rest.named]
      refine ⟨_, _, rfl, ⟨previous, older, rest, rfl, hdata, ?_, ?_⟩, rfl, nofun⟩
      · simp only [take_left, drop_left, length_append, length_reverse, length_map]
        omega
      · simp only [take_left, drop_left, length_append, length_reverse, length_map]
        omega
    obtain ⟨blocks, hfull, herror⟩ := collectRefs_crowded sound hplaces (by omega)
    rw [collectRoster_error hcount herror]
    refine ⟨_, _, rfl, ⟨some id, fresh :: older, .cons stored named hcount sound rest, hstate,
      hdata, ?_, ?_⟩, rfl, nofun⟩
    · simp only
      omega
    · simp only [flatten_cons, length_append]
      omega

/-- **It yields nothing and does not end.** -/
theorem run_crowded {calls : List Call} (h : Crowded s le covering st)
    (hready : ∀ call ∈ calls, call.ready.Extends s) :
    ∃ st' results, st.run calls = some (st', results) ∧ results.flatMap yielded = [] ∧
      .ok .done ∉ results := by
  induction calls generalizing st with
  | nil => exact ⟨st, [], rfl, rfl, not_mem_nil⟩
  | cons call calls ih =>
    obtain ⟨st₁, result, hcall, hcrowded, hnone, hgoes⟩ :=
      nextCopy_crowded h (hready call mem_cons_self)
    obtain ⟨st₂, results, hrun, hrest, hnever⟩ :=
      ih hcrowded (forall_mem_cons.mp hready).2
    refine ⟨st₂, result :: results, ?_, ?_, ?_⟩
    · rw [ValueIndexStream.run, hcall]
      change (st₁.run calls >>= _) = _
      rw [hrun]
      rfl
    · rw [flatMap_cons, hnone, hrest, append_nil]
    · rw [mem_cons, not_or]
      exact ⟨fun heq => hgoes heq.symm, hnever⟩

end Step

/-! ## Generations -/

section Generations

variable {s : BlockStore} {le : Bytes → Bytes → Prop} {handle : ValueIndexHandle}
  {ros : List (List DataRef)} {cov : Bool} {es : List ValueIndexEntry}

/-- **What a stream with enough places yields.** -/
theorem Generation.run_start (h : Generation s le handle ros cov es) {cap : ℕ}
    (hcap : (chainRefs ros).length ≤ cap) {calls : List Call}
    (hready : ∀ call ∈ calls, call.ready.Extends s) :
    ∃ st results, (start cap handle).run calls = some (st, results) ∧
      results.flatMap yielded <+: es.map copied ∧
      (.ok .done ∈ results → results.flatMap yielded = es.map copied) ∧
      (∀ p ∈ calls.zip results, p.2 = .error .corrupt → ¬Roomy es p.1.room) ∧
      ∀ good : List Call, good.Sublist calls →
        (∀ call ∈ good, s.Extends call.ready ∧ 0 < call.maxGets ∧ Roomy es call.room) →
        2 * es.length + 2 ≤ good.length → .ok .done ∈ results := by
  have hcount := h.count
  have hrosters := h.rosters_le
  rw [h.entries_eq] at hcount hrosters ⊢
  have hcollect := @Remains.collect s le handle cov cap (chainRefs ros) _ ros [] false
    h.chain (append_nil _).symm hcount.symm
  obtain ⟨st, results, rest, hrun, hyields, hdone, hok, hprogress⟩ :=
    run_remains hcollect h.chain.sound hready hcap
  refine ⟨st, results, hrun, ⟨_, hyields.symm⟩, fun hin => ?_, hok, ?_⟩
  · rw [hyields, hdone hin, map_nil, append_nil]
  · intro good hgood heffective hlen
    exact hprogress good hgood heffective (Nat.succ_pos _) (by omega)

/-- So it is over any sequence of calls. -/
lemma Generation.run_start_crowded (h : Generation s le handle ros cov es)
    {cap : ℕ} (hcap : cap < (chainRefs ros).length) {calls : List Call}
    (hready : ∀ call ∈ calls, call.ready.Extends s) :
    ∃ st results, (start cap handle).run calls = some (st, results) ∧
      results.flatMap yielded = [] ∧ .ok .done ∉ results := by
  refine run_crowded ⟨_, ros, h.chain, rfl, rfl, zero_le, ?_⟩ hready
  have hperm : (chainRefs ros).length = ros.flatten.length :=
    (reverse_perm ros).flatten.length_eq
  show cap < 0 + ros.flatten.length
  omega

end Generations

/-- **Value-index generations lose nothing**, whatever the writer accepted: `walk`, `probe` and
`range` visit exactly what they should, and a stream with a place for every data block yields the
entries in the order in which they were appended, whichever reads were ready; one with fewer places
yields nothing. -/
theorem generation_loses_nothing (w : BlockWriter) (compare : Bytes → Bytes → Ordering)
    (before after : BlockStore) (entries : List ValueIndexEntry) (handle : ValueIndexHandle)
    (hkeys : ∀ e ∈ entries, e.key ≠ [])
    (hbuild : ValueIndexWriter.build w compare before entries = .ok (after, handle)) :
    (∃ found, handle.walk after = some (.ok found) ∧
      found.Perm (entries.map ValueIndexEntry.record)) ∧
      (∀ hash, ∃ found, handle.probe after hash = some (.ok found) ∧
        found.Perm ((entries.map ValueIndexEntry.record).filter (·.hash == hash))) ∧
      (∀ classify, MonotoneClassifier (Accepted compare) classify →
        ∃ found, handle.range after classify = some (.ok found) ∧
          found.Perm ((entries.map ValueIndexEntry.record).filter
            fun record => classify record.key == .isMatch)) ∧
      ∃ rosters covering, Generation after (Accepted compare) handle rosters covering entries ∧
        ∀ (capacity : ℕ) (calls : List Call), (∀ call ∈ calls, call.ready.Extends after) →
          ((chainRefs rosters).length ≤ capacity →
            ∃ st results, (start capacity handle).run calls = some (st, results) ∧
              results.flatMap yielded <+: entries.map copied ∧
              (.ok .done ∈ results → results.flatMap yielded = entries.map copied) ∧
              (∀ p ∈ calls.zip results, p.2 = .error .corrupt → ¬Roomy entries p.1.room) ∧
              ∀ good : List Call, good.Sublist calls →
                (∀ call ∈ good, after.Extends call.ready ∧ 0 < call.maxGets ∧
                  Roomy entries call.room) → 2 * entries.length + 2 ≤ good.length →
                .ok .done ∈ results) ∧
            (capacity < (chainRefs rosters).length →
              ∃ st results, (start capacity handle).run calls = some (st, results) ∧
                results.flatMap yielded = [] ∧ .ok .done ∉ results) := by
  obtain ⟨rosters, covering, hgen⟩ := build_generation hkeys hbuild
  refine ⟨hgen.walk_eq, hgen.probe_eq, fun classify hmono => hgen.range_eq hmono,
    rosters, covering, hgen, fun capacity calls hready => ⟨fun hcap => ?_, fun hcap => ?_⟩⟩
  · exact hgen.run_start hcap hready
  · exact hgen.run_start_crowded hcap hready

/-- A writer that takes the first free of four names. -/
def firstFree : BlockWriter where
  name s _ :=
    ([⟨1, by decide⟩, ⟨2, by decide⟩, ⟨3, by decide⟩, ⟨4, by decide⟩] : List BlockId).find?
      fun id => s id = none
  apart s b id h := by
    have hfree := find?_some h
    have hmem := mem_of_find?_eq_some h
    simp only [mem_cons, not_mem_nil, or_false] at hmem
    refine ⟨?_, .inl (of_decide_eq_true hfree)⟩
    rcases hmem with rfl | rfl | rfl | rfl
    all_goals exact Nat.succ_ne_zero _

/-- An entry with a long key. A data block has no room for two of them, and a roster no room for the
bounds of two such blocks. -/
def longEntry (first : UInt8) (rest : Bytes) : ValueIndexEntry :=
  ⟨5, 7, 9, first :: rest, some rest⟩

open ValueIndexWriter in
/-- Two long entries in the order of their bytes are accepted. -/
lemma longEntries_built {rest : Bytes} (hrest : rest.length = 120000) :
    ∃ after handle, ValueIndexWriter.build firstFree (List.compareLex compare) (fun _ => none)
      [longEntry 1 rest, longEntry 2 rest] = .ok (after, handle) := by
  have hless : List.compareLex compare (1 :: rest) (2 :: rest) = .lt := rfl
  rcases hbuild : ValueIndexWriter.build firstFree (List.compareLex compare) (fun _ => none)
    [longEntry 1 rest, longEntry 2 rest] with err | ⟨after, handle⟩
  · simp [ValueIndexWriter.build, appendAll, appendInner, accept, pendingRoom, ValueIndexWriter.new,
      put, longEntry, valueIndexKeyMax, valueIndexTupleMax, maxPayload, hrest, entryHeader, bind,
      Except.bind, pure, Except.pure, flush, BlockWriter.writeBlock, firstFree, hless, addReference,
      rosterRoom, flushRoster, finish, inlineBounds, boundsLength, orderedBlockRefHeader,
      filteredBlockRef, blockFilterBytes, rosterHeader, withReference,
      Function.update_apply] at hbuild
  · exact ⟨after, handle, rfl⟩

/-- **Two entries in two data blocks and two chained rosters** are read back by the walk, found by a
probe of their hash, and streamed in order by every stream with enough places. -/
theorem generation_loses_nothing_long :
    ∃ rest : Bytes, ∃ after handle, rest.length = 120000 ∧
      ValueIndexWriter.build firstFree (List.compareLex compare) (fun _ => none)
        [longEntry 1 rest, longEntry 2 rest] = .ok (after, handle) ∧
      (∃ found, handle.walk after = some (.ok found) ∧
        found.Perm [(longEntry 1 rest).record, (longEntry 2 rest).record]) ∧
      (∃ found, handle.probe after 5 = some (.ok found) ∧
        found.Perm [(longEntry 1 rest).record, (longEntry 2 rest).record]) ∧
      ∃ places, ∀ calls : List Call, (∀ call ∈ calls, call.ready.Extends after) →
        ∃ st results, (start places handle).run calls = some (st, results) ∧
          (.ok .done ∈ results →
            results.flatMap yielded = [(longEntry 1 rest).copied, (longEntry 2 rest).copied]) := by
  obtain ⟨rest, hrest⟩ : ∃ rest : Bytes, rest.length = 120000 :=
    ⟨replicate 120000 0, length_replicate ..⟩
  obtain ⟨after, handle, hbuild⟩ := longEntries_built hrest
  obtain ⟨hwalk, hprobe, -, rosters, covering, -, hstream⟩ := generation_loses_nothing firstFree
    (List.compareLex compare) (fun _ => none) after [longEntry 1 rest, longEntry 2 rest] handle
    (by simp [longEntry]) hbuild
  refine ⟨rest, after, handle, hrest, hbuild, hwalk, hprobe 5, (chainRefs rosters).length, ?_⟩
  intro calls hready
  obtain ⟨st, results, hrun, -, hdone, -⟩ := (hstream _ calls hready).1 le_rfl
  exact ⟨st, results, hrun, hdone⟩

end Pos3ql
