import Pos3ql.Store.Lz4

/-!
# What the LZ4 reader accepts

* `Block`: the grammar of a block. A sequence is literals and a match whose offset stays inside what
  has been written; the last sequence is literals alone, and the match half of its token means
  nothing. A length is written in one way only (`readLength_eq_some`).
* `decompressInto`: the reader on its buffer, where an index may be out of bounds.
* **`decompress_iff_block`**: the reader accepts the blocks that fit the buffer, and writes their
  expansion.

Source: `store/lz4.rs` (`decompress`).
-/

namespace Pos3ql

open Foundation List Option

namespace Lz4

/-- **A block**: what it adds to the text so far. -/
inductive Block : Bytes → Bytes → Bytes → Prop
  | last (out literals : Bytes) (unused : ℕ) :
    Block out (literalBytes literals unused) (out ++ literals)
  | sequence {out stream text : Bytes} (literals : Bytes) {offset : ℕ} (code : ℕ)
    (hoffset : 0 < offset) (hback : offset ≤ (out ++ literals).length) (hwidth : offset < 2 ^ 16)
    (hrest : Block (backCopy offset (code + minMatch) (out ++ literals)) stream text) :
    Block out (matchBytes literals code offset ++ stream) text

variable {capacity fuel n nibble : ℕ} {stream out text rest : Bytes}

lemma length_backCopy {distance : ℕ} (hpos : 0 < distance) (hback : distance ≤ out.length) :
    (backCopy distance n out).length = out.length + n := by
  induction n generalizing out with
  | zero => rfl
  | succ n ih =>
    have hone : ((out.drop (out.length - distance)).take 1).length = 1 := by
      rw [length_take, length_drop]
      omega
    rw [backCopy, ih (by rw [length_append]; omega), length_append]
    omega

lemma Block.length_le (h : Block out stream text) : out.length ≤ text.length := by
  induction h with
  | last out literals => rw [length_append]; exact Nat.le_add_right _ _
  | sequence literals code hoffset hback _ _ ih =>
    rw [length_backCopy hoffset hback, length_append] at ih
    omega

lemma addLength_eq_some {m : ℕ} {bytes : Bytes} (h : addLength m bytes = some (n, rest)) :
    m ≤ n ∧ bytes = lengthBytes (n - m) ++ rest := by
  induction bytes generalizing m with
  | nil => cases h
  | cons byte bytes ih =>
    rw [addLength] at h
    split at h
    · rename_i hbyte
      obtain ⟨hle, htail⟩ := ih h
      refine ⟨by omega, ?_⟩
      rw [lengthBytes_of_le (by omega), hbyte, htail, Nat.sub_sub]
      rfl
    · rename_i hbyte
      cases h
      have hlt : byte.toNat < 255 := by
        have hne : byte.toNat ≠ 255 := fun heq => hbyte (UInt8.toNat_inj.mp heq)
        have := byte.toNat_lt
        omega
      rw [Nat.add_sub_cancel_left, lengthBytes_of_lt hlt, UInt8.ofNat_toNat]
      exact ⟨Nat.le_add_right _ _, rfl⟩

/-- **A length is read as it is written.** -/
lemma readLength_eq_some {bytes : Bytes} (hnibble : nibble < 16)
    (h : readLength nibble bytes = some (n, rest)) :
    nibble = min n 15 ∧ bytes = extension n ++ rest := by
  unfold readLength at h
  split at h
  · rename_i hfull
    rw [hfull] at h ⊢
    obtain ⟨hle, htail⟩ := addLength_eq_some h
    rw [extension, if_pos hle]
    exact ⟨by omega, htail⟩
  · cases h
    rw [extension, if_neg (by omega)]
    exact ⟨by omega, rfl⟩

/-- A byte is the token of its halves. -/
lemma halves_spec (t : UInt8) :
    (t >>> 4).toNat < 16 ∧ (t &&& 0x0F).toNat < 16 ∧
      t = UInt8.ofNat (t >>> 4).toNat <<< 4 ||| UInt8.ofNat (t &&& 0x0F).toNat := by
  obtain ⟨i, rfl⟩ : ∃ i : Fin 256, t = UInt8.ofNat i :=
    ⟨⟨t.toNat, t.toNat_lt⟩, UInt8.ofNat_toNat.symm⟩
  revert i
  decide +kernel

lemma eq_token {t : UInt8} {litLen code : ℕ} (hlit : (t >>> 4).toNat = min litLen 15)
    (hmatch : (t &&& 0x0F).toNat = min code 15) : t = token litLen code := by
  rw [(halves_spec t).2.2, hlit, hmatch]
  rfl

/-- The bytes of the last sequence, as they are read. -/
lemma block_last {t : UInt8} {literals : Bytes}
    (hnibble : (t >>> 4).toNat = min literals.length 15) :
    Block out (t :: (extension literals.length ++ literals)) (out ++ literals) := by
  have hunused := Nat.min_eq_left (Nat.le_of_lt_succ (halves_spec t).2.1)
  rw [eq_token hnibble hunused.symm]
  exact .last ..

/-- The bytes of a sequence with a match, as they are read. -/
lemma block_sequence {t low high : UInt8} {literals : Bytes} {code : ℕ}
    (hnibble : (t >>> 4).toNat = min literals.length 15) (hcode : (t &&& 0x0F).toNat = min code 15)
    (hpos : 0 < leNat [low, high]) (hback : leNat [low, high] ≤ (out ++ literals).length)
    (hrest : Block (backCopy (leNat [low, high]) (code + minMatch) (out ++ literals)) rest text) :
    Block out (t :: (extension literals.length ++
      (literals ++ low :: high :: (extension code ++ rest)))) text := by
  have hwidth : leNat [low, high] < 2 ^ 16 := by simpa using leNat_lt [low, high]
  have hbytes : leBytes 2 (leNat [low, high]) = [low, high] := leBytes_leNat [low, high]
  have hseq := Block.sequence literals code hpos hback hwidth hrest
  rw [matchBytes, literalBytes, ← eq_token hnibble hcode, hbytes] at hseq
  simpa using hseq

/-- A block is read. Induction on the block. -/
lemma decompressLoop_of_block (h : Block out stream text) (hroom : text.length ≤ capacity)
    (hfuel : stream.length ≤ fuel) : decompressLoop capacity fuel stream out = some text := by
  induction h generalizing fuel with
  | last out literals unused => exact decompressLoop_last hfuel hroom
  | sequence literals code hoffset hback hwidth hrest ih =>
    have hle := (length_backCopy hoffset hback).symm.le.trans hrest.length_le
    obtain ⟨fuel', hfuel', hloop⟩ :=
      decompressLoop_match hfuel hoffset hback hwidth (hle.trans hroom)
    rw [hloop, ih hroom hfuel']

/-! ## The buffer

`decompressLoop` collects the text; the source writes into a buffer at an index, and an index out of
bounds or a loop that does not end would leave it without an answer. -/

/-- Source: `output[to..to + count].copy_from_slice(&input[at..at + count])`. -/
def copyFromSlice (output : Bytes) (dest : ℕ) (input : Bytes) (count : ℕ) : Option Bytes :=
  if input.length < count ∨ output.length < dest + count then none
  else some (output.take dest ++ input.take count ++ output.drop (dest + count))

/-- Source: the loop `output[out + i] = output[from + i]`. -/
def copyMatch : ℕ → ℕ → ℕ → Bytes → Option Bytes
  | _, _, 0, output => some output
  | source, dest, count + 1, output =>
    match output[source]? with
    | none => none
    | some byte =>
      if dest < output.length then copyMatch (source + 1) (dest + 1) count (output.set dest byte)
      else none

/-- **Source: `decompress`**, from an index of the buffer on: `some` of what it returns with the
buffer it leaves; no answer for an index out of bounds, or when the rounds are used up. -/
def decompressInto : ℕ → Bytes → Bytes → ℕ → Option (Option (ℕ × Bytes))
  | 0, _, _, _ => none
  | _ + 1, [], _, _ => some none
  | fuel + 1, token :: rest, output, out =>
    match readLength (token >>> 4).toNat rest with
    | none => some none
    | some (litLen, rest) =>
      if rest.length < litLen ∨ output.length < out + litLen then some none
      else
        match copyFromSlice output out rest litLen with
        | none => none
        | some output =>
          let out := out + litLen
          match rest.drop litLen with
          | [] => some (some (out, output))
          | [_] => some none
          | low :: high :: rest =>
            let offset := leNat [low, high]
            if offset = 0 ∨ out < offset then some none
            else
              match readLength (token &&& 0x0F).toNat rest with
              | none => some none
              | some (matchLen, rest) =>
                let matchLen := matchLen + minMatch
                if output.length < out + matchLen then some none
                else
                  match copyMatch (out - offset) out matchLen output with
                  | none => none
                  | some output => decompressInto fuel rest output (out + matchLen)

lemma copyMatch_eq (out tail : Bytes) {offset : ℕ} (hpos : 0 < offset) (hback : offset ≤ out.length)
    (hroom : n ≤ tail.length) :
    copyMatch (out.length - offset) out.length n (out ++ tail) =
      some (backCopy offset n out ++ tail.drop n) := by
  induction n generalizing out tail with
  | zero => rfl
  | succ n ih =>
    rcases tail with _ | ⟨old, tail⟩
    · cases hroom
    have hlt : out.length - offset < out.length := by omega
    have hbyte : (out.drop (out.length - offset)).take 1 = [out[out.length - offset]] := by
      rw [drop_eq_getElem_cons hlt]
      rfl
    have hnext := ih (out ++ [out[out.length - offset]]) tail
      (by rw [length_append]; omega) (Nat.le_of_succ_le_succ hroom)
    have hindex : out.length + 1 - offset = out.length - offset + 1 := by omega
    rw [length_append, length_singleton, hindex] at hnext
    rw [copyMatch, getElem?_append_left hlt, getElem?_eq_getElem hlt, backCopy, hbyte]
    simpa using hnext

lemma copyFromSlice_eq {input : Bytes} (tail : Bytes)
    (hroom : ¬(input.length < n ∨ (out ++ tail).length < out.length + n)) :
    copyFromSlice (out ++ tail) out.length input n = some (out ++ input.take n ++ tail.drop n) := by
  rw [copyFromSlice, if_neg hroom, take_left, drop_length_add_append]

/-- **What one buffer gets.** The reader refuses as `decompressLoop` does, or it has read a block
and the buffer holds its expansion. Induction on the rounds. -/
lemma decompressInto_spec (out tail : Bytes) (hfuel : stream.length < fuel) :
    decompressInto fuel stream (out ++ tail) out.length = some none ∧
        decompressLoop (out ++ tail).length fuel stream out = none ∨
      ∃ text, Block out stream text ∧ text.length ≤ (out ++ tail).length ∧
        decompressInto fuel stream (out ++ tail) out.length =
          some (some (text.length, text ++ tail.drop (text.length - out.length))) := by
  induction fuel generalizing stream out tail with
  | zero => cases hfuel
  | succ fuel ih =>
    rcases stream with _ | ⟨t, stream⟩
    · exact .inl ⟨rfl, rfl⟩
    rw [decompressInto, decompressLoop]
    rcases hlit : readLength (t >>> 4).toNat stream with _ | ⟨litLen, rest⟩
    · exact .inl ⟨rfl, rfl⟩
    obtain ⟨hnibble, rfl⟩ := readLength_eq_some (halves_spec t).1 hlit
    dsimp only
    by_cases hroom : rest.length < litLen ∨ (out ++ tail).length < out.length + litLen
    · rw [if_pos hroom, if_pos hroom]
      exact .inl ⟨rfl, rfl⟩
    rw [if_neg hroom, if_neg hroom, copyFromSlice_eq tail hroom]
    rw [not_or, not_lt, not_lt] at hroom
    obtain ⟨literals, after, rfl, rfl⟩ : ∃ literals after, rest = literals ++ after ∧
        literals.length = litLen :=
      ⟨_, _, (take_append_drop litLen rest).symm, length_take_of_le hroom.1⟩
    rw [take_left, drop_left]
    rw [← length_append] at hroom ⊢
    rcases after with _ | ⟨low, _ | ⟨high, after⟩⟩
    · refine .inr ⟨out ++ literals, ?_, hroom.2, ?_⟩
      · rw [append_nil]
        exact block_last hnibble
      · rw [length_append, Nat.add_sub_cancel_left]
    · exact .inl ⟨rfl, rfl⟩
    dsimp only
    by_cases hoffset : leNat [low, high] = 0 ∨ (out ++ literals).length < leNat [low, high]
    · rw [if_pos hoffset, if_pos hoffset]
      exact .inl ⟨rfl, rfl⟩
    rw [if_neg hoffset, if_neg hoffset]
    rcases hmatch : readLength (t &&& 0x0F).toNat after with _ | ⟨code, rest⟩
    · exact .inl ⟨rfl, rfl⟩
    obtain ⟨hcode, rfl⟩ := readLength_eq_some (halves_spec t).2.1 hmatch
    dsimp only
    have hlength : (out ++ literals ++ tail.drop literals.length).length =
        (out ++ tail).length := by
      simp only [length_append, length_drop] at hroom ⊢
      omega
    rw [hlength]
    by_cases hfit : (out ++ tail).length < (out ++ literals).length + (code + minMatch)
    · rw [if_pos hfit, if_pos hfit]
      exact .inl ⟨rfl, rfl⟩
    rw [not_or, not_lt] at hoffset
    have hpos := Nat.pos_of_ne_zero hoffset.1
    have hleft : code + minMatch ≤ (tail.drop literals.length).length := by
      rw [← hlength, length_append] at hfit
      omega
    rw [if_neg hfit, if_neg hfit, copyMatch_eq _ _ hpos hoffset.2 hleft]
    dsimp only
    have hcopied : (backCopy (leNat [low, high]) (code + minMatch) (out ++ literals)).length = _ :=
      length_backCopy hpos hoffset.2
    have htotal : (out ++ tail).length = (backCopy (leNat [low, high]) (code + minMatch)
        (out ++ literals) ++ (tail.drop literals.length).drop (code + minMatch)).length := by
      simp only [length_append, length_drop, hcopied] at hlength hleft ⊢
      omega
    have hshorter : rest.length < fuel := by
      simp only [length_cons, length_append] at hfuel
      omega
    rw [← hcopied, htotal]
    refine (ih _ _ hshorter).imp_right ?_
    rintro ⟨text, hblock, hle, hinto⟩
    refine ⟨text, block_sequence hnibble hcode hpos hoffset.2 hblock, hle, hinto.trans ?_⟩
    have hmore := hblock.length_le
    rw [hcopied, length_append] at hmore
    rw [drop_drop, drop_drop, hcopied, length_append]
    congr 5
    omega

/-- **The reader's specification.** For every input and buffer, `decompress` gives an answer without
an index out of bounds. It is `some n` exactly when the input is a block whose expansion has `n`
bytes and fits; the buffer then begins with the expansion and is untouched behind it. -/
theorem decompress_iff_block (input output : Bytes) :
    ∃ answer, decompressInto (input.length + 1) input output 0 = some answer ∧
      ∀ n buffer, answer = some (n, buffer) ↔
        ∃ text, Block [] input text ∧ text.length = n ∧ n ≤ output.length ∧
          buffer = text ++ output.drop n := by
  have hread : ∀ {text}, Block [] input text → text.length ≤ output.length →
      decompressLoop output.length (input.length + 1) input [] = some text :=
    fun hblock hle => decompressLoop_of_block hblock hle (Nat.le_succ _)
  rcases decompressInto_spec [] output (lt_add_one input.length) with
    ⟨hinto, hnone⟩ | ⟨text, hblock, hle, hinto⟩
  · refine ⟨none, hinto, fun n buffer => iff_of_false nofun ?_⟩
    rintro ⟨text, hblock, rfl, hle, -⟩
    cases hnone.symm.trans (hread hblock hle)
  · refine ⟨_, hinto, fun n buffer => ⟨?_, ?_⟩⟩
    · rintro ⟨⟩
      exact ⟨text, hblock, rfl, hle, rfl⟩
    · rintro ⟨text', hblock', rfl, hle', rfl⟩
      cases (hread hblock hle).symm.trans (hread hblock' hle')
      rfl

end Lz4

end Pos3ql
