import Pos3ql.Foundation.BackCopy
import Pos3ql.Foundation.Bytes

/-!
# LZ4 blocks

A block is a row of sequences: a token, literals, and a back reference to what has been written
already; the last sequence is literals alone. The compressor looks for repeats with a table of
positions hashed by the next four bytes.

* `emit`, `compress`: the writer. `emit_match`: a sequence is written whole, or the buffer is too
  small.
* `decompress`: the reader, which checks every length against both buffers.
* `Decodes`: a stream that completes the text from some position on; `decodes_last`,
  `decodes_match`.
* **`compressLoop_decodes`**: whatever the table holds, what the loop writes is read back.
* **`decompress_compress`**.

A buffer is modelled by its size and the bytes written to its front. The table holds positions cut
to 32 bits, as the code does, so inputs of any length are covered. Source: `store/lz4.rs`.
-/

namespace Pos3ql

open Foundation List Option

namespace Lz4

/-! ## The writer -/

/-- Source: `HASH_BITS`. -/
def hashBits : ℕ := 13

/-- Source: `MIN_MATCH`. -/
def minMatch : ℕ := 4

/-- Source: `LAST_LITERALS`. -/
def lastLiterals : ℕ := 5

/-- Source: `MATCH_GUARD`. -/
def matchGuard : ℕ := 12

/-- Source: `hash`. -/
def hash (sequence : UInt32) : ℕ := (sequence * 2654435761 >>> UInt32.ofNat (32 - hashBits)).toNat

/-- Source: `read_u32`. -/
def readU32 (data : Bytes) (at_ : ℕ) : UInt32 := UInt32.ofNat (leNat ((data.drop at_).take 4))

/-- Append to a buffer with room for `capacity` bytes. -/
def put (capacity : ℕ) (out bytes : Bytes) : Option Bytes :=
  if capacity < out.length + bytes.length then none else some (out ++ bytes)

/-- The rest of a length that does not fit its half of the token. Every round but the last takes 255
off, so one more than the rest bounds the rounds. Source: the loops of `emit`. -/
def putLength (capacity : ℕ) : ℕ → Bytes → ℕ → Option Bytes
  | 0, _, _ => none
  | fuel + 1, out, rest =>
    if 255 ≤ rest then do
      let out ← put capacity out [255]
      putLength capacity fuel out (rest - 255)
    else put capacity out [UInt8.ofNat rest]

/-- What the token leaves of a length. Source: the two branches of `emit` around these loops. -/
def putExtension (capacity : ℕ) (out : Bytes) (n : ℕ) : Option Bytes :=
  if 15 ≤ n then putLength capacity (n - 15 + 1) out (n - 15) else some out

/-- Source: the closure `emit` of `compress`. -/
def emit (capacity : ℕ) (out literals : Bytes) (matchLen offset : ℕ) : Option Bytes := do
  let litLen := literals.length
  let matchCode := if minMatch ≤ matchLen then some (matchLen - minMatch) else none
  let tokenLit := UInt8.ofNat (min litLen 15)
  let tokenMatch := matchCode.elim 0 fun m => UInt8.ofNat (min m 15)
  let out ← put capacity out [tokenLit <<< 4 ||| tokenMatch]
  let out ← putExtension capacity out litLen
  let out ← put capacity out literals
  match matchCode with
  | none => some out
  | some code => do
      let out ← put capacity out (leBytes 2 offset)
      putExtension capacity out code

/-- Source: the loop of `compress`; the result is the start of the pending literals and the output.
Every round advances, so `limit` bounds the rounds. -/
def compressLoop (input : Bytes) (capacity limit : ℕ) :
    ℕ → (ℕ → ℕ) → ℕ → ℕ → Bytes → Option (ℕ × Bytes)
  | 0, _, anchor, _, out => some (anchor, out)
  | fuel + 1, table, anchor, at_, out =>
    if at_ < limit then
      let sequence := readU32 input at_
      let slot := hash sequence
      let candidate := table slot
      let table := Function.update table slot (at_ % 2 ^ 32)
      if candidate < at_ ∧ at_ - candidate ≤ 65535 ∧ readU32 input candidate = sequence then
        -- extend the match forward, up to the literals at the end
        let len := minMatch + matchLength (input.length - lastLiterals - (at_ + minMatch))
          (input.drop (candidate + minMatch)) (input.drop (at_ + minMatch))
        match emit capacity out ((input.take at_).drop anchor) len (at_ - candidate) with
        | none => none
        | some out => compressLoop input capacity limit fuel table (at_ + len) (at_ + len) out
      else compressLoop input capacity limit fuel table anchor (at_ + 1) out
    else some (anchor, out)

/-- **Source: `compress`**, into a buffer of `capacity` bytes; the result is what was written. -/
def compress (input : Bytes) (capacity : ℕ) : Option Bytes := do
  let (anchor, out) ←
    if matchGuard < input.length then
      compressLoop input capacity (input.length - matchGuard) (input.length - matchGuard)
        (fun _ => 0) 0 0 []
    else some (0, [])
  emit capacity out (input.drop anchor) 0 0

/-! ## The reader -/

/-- Source: the loops of `decompress` that add up a length. -/
def addLength : ℕ → Bytes → Option (ℕ × Bytes)
  | _, [] => none
  | n, byte :: rest => if byte = 255 then addLength (n + 255) rest else some (n + byte.toNat, rest)

/-- A length from its half of the token. -/
def readLength (nibble : ℕ) (rest : Bytes) : Option (ℕ × Bytes) :=
  if nibble = 15 then addLength nibble rest else some (nibble, rest)

/-- Source: the loop of `decompress`, on the bytes not yet read. Every round takes a token, so the
length of the input bounds the rounds. -/
def decompressLoop (capacity : ℕ) : ℕ → Bytes → Bytes → Option Bytes
  | 0, _, _ => none
  | _ + 1, [], _ => none
  | fuel + 1, token :: rest, out =>
    match readLength (token >>> 4).toNat rest with
    | none => none
    | some (litLen, rest) =>
      if rest.length < litLen ∨ capacity < out.length + litLen then none
      else
        let out := out ++ rest.take litLen
        match rest.drop litLen with
        | [] => some out
        | [_] => none
        | low :: high :: rest =>
          let offset := leNat [low, high]
          if offset = 0 ∨ out.length < offset then none
          else
            match readLength (token &&& 0x0F).toNat rest with
            | none => none
            | some (matchLen, rest) =>
              if capacity < out.length + (matchLen + minMatch) then none
              else decompressLoop capacity fuel rest (backCopy offset (matchLen + minMatch) out)

/-- **Source: `decompress`**, into a buffer of `capacity` bytes; the result is what was written. -/
def decompress (input : Bytes) (capacity : ℕ) : Option Bytes :=
  decompressLoop capacity input.length input []

/-! ## Sequences -/

lemma put_bind_put (cap : ℕ) (out first second : Bytes) :
    ((put cap out first).bind fun out => put cap out second) = put cap out (first ++ second) := by
  unfold put
  by_cases hfirst : cap < out.length + first.length
  · have hboth : cap < out.length + (first ++ second).length := by
      rw [length_append]
      omega
    rw [if_pos hfirst, if_pos hboth]
    rfl
  · rw [if_neg hfirst, bind_some, length_append, length_append, append_assoc, add_assoc]

/-- The bytes of the rest of a length. -/
def lengthBytes (rest : ℕ) : Bytes := replicate (rest / 255) 255 ++ [UInt8.ofNat (rest % 255)]

variable {rest fuel capacity : ℕ} {out input : Bytes}

lemma lengthBytes_of_lt (h : rest < 255) : lengthBytes rest = [UInt8.ofNat rest] := by
  rw [lengthBytes, Nat.div_eq_of_lt h, Nat.mod_eq_of_lt h]
  rfl

lemma lengthBytes_of_le (h : 255 ≤ rest) : lengthBytes rest = 255 :: lengthBytes (rest - 255) := by
  have hdiv : rest / 255 = (rest - 255) / 255 + 1 := by omega
  have hmod : rest % 255 = (rest - 255) % 255 := by omega
  rw [lengthBytes, hdiv, hmod]
  rfl

lemma putLength_eq (cap : ℕ) (out : Bytes) (hfuel : rest < fuel) :
    putLength cap fuel out rest = put cap out (lengthBytes rest) := by
  induction fuel generalizing out rest with
  | zero => nomatch hfuel
  | succ fuel ih =>
    rw [putLength]
    by_cases hlong : 255 ≤ rest
    · have hcons := put_bind_put cap out [255] (lengthBytes (rest - 255))
      rw [if_pos hlong, lengthBytes_of_le hlong, ← nil_append (lengthBytes _), ← cons_append,
        ← hcons]
      congr 1
      funext out
      exact ih out (by omega)
    · rw [if_neg hlong, lengthBytes_of_lt (by omega)]

/-- What follows the token for a length. -/
def extension (n : ℕ) : Bytes := if 15 ≤ n then lengthBytes (n - 15) else []

lemma readLength_append (n : ℕ) (tail : Bytes) :
    readLength (min n 15) (extension n ++ tail) = some (n, tail) := by
  have hadd : ∀ rest m : ℕ, addLength m (lengthBytes rest ++ tail) = some (m + rest, tail) := by
    intro rest
    induction rest using Nat.strongRecOn with
    | ind rest ih =>
      intro m
      by_cases hlong : 255 ≤ rest
      · rw [lengthBytes_of_le hlong, cons_append, addLength, if_pos rfl, ih (rest - 255) (by omega)]
        have hsum : m + 255 + (rest - 255) = m + rest := by omega
        rw [hsum]
      have hne : UInt8.ofNat rest ≠ 255 := by
        intro heq
        have hval : (UInt8.ofNat rest).toNat = 255 := by rw [heq]; rfl
        rw [UInt8.toNat_ofNat'] at hval
        omega
      rw [lengthBytes_of_lt (by omega), singleton_append, addLength, if_neg hne,
        UInt8.toNat_ofNat', Nat.mod_eq_of_lt (by omega)]
  unfold readLength extension
  by_cases h : 15 ≤ n
  · rw [Nat.min_eq_right h, if_pos rfl, if_pos h, hadd]
    congr 2
    omega
  · rw [Nat.min_eq_left (by omega), if_neg (by omega), if_neg h, nil_append]

lemma token_halves :
    ∀ a < 16, ∀ b < 16, ((UInt8.ofNat a <<< 4 ||| UInt8.ofNat b) >>> 4).toNat = a ∧
      ((UInt8.ofNat a <<< 4 ||| UInt8.ofNat b) &&& 0x0F).toNat = b := by
  decide

/-- The token of a sequence. -/
def token (litLen matchCode : ℕ) : UInt8 :=
  UInt8.ofNat (min litLen 15) <<< 4 ||| UInt8.ofNat (min matchCode 15)

lemma token_lit (litLen matchCode : ℕ) : (token litLen matchCode >>> 4).toNat = min litLen 15 :=
  (token_halves _ (by omega) _ (by omega)).1

lemma token_match (litLen matchCode : ℕ) :
    (token litLen matchCode &&& 0x0F).toNat = min matchCode 15 :=
  (token_halves _ (by omega) _ (by omega)).2

/-- The token and the literals of a sequence. -/
def literalBytes (literals : Bytes) (matchCode : ℕ) : Bytes :=
  token literals.length matchCode :: (extension literals.length ++ literals)

/-- The bytes of a sequence with a match. -/
def matchBytes (literals : Bytes) (matchCode offset : ℕ) : Bytes :=
  literalBytes literals matchCode ++ (leBytes 2 offset ++ extension matchCode)

lemma put_bind_extension (cap : ℕ) (out written : Bytes) (n : ℕ) :
    ((put cap out written).bind fun out => putExtension cap out n) =
      put cap out (written ++ extension n) := by
  unfold putExtension extension
  by_cases h : 15 ≤ n
  · simp only [if_pos h, putLength_eq cap _ (lt_add_one (n - 15))]
    exact put_bind_put ..
  · simp only [if_neg h, append_nil]
    exact bind_fun_some _

/-- **A sequence of literals is written whole**, or there is no room. -/
theorem emit_last (cap : ℕ) (out lits : Bytes) :
    emit cap out lits 0 0 = put cap out (literalBytes lits 0) := by
  unfold emit
  simp only [show ¬minMatch ≤ 0 by decide, if_false, bind_eq_bind, bind_fun_some]
  rw [← bind_assoc, put_bind_extension, put_bind_put]
  rfl

/-- **A sequence with a match is written whole**, or there is no room. -/
theorem emit_match (cap : ℕ) (out lits : Bytes) (code off : ℕ) :
    emit cap out lits (minMatch + code) off = put cap out (matchBytes lits code off) := by
  unfold emit
  simp only [Nat.le_add_right, if_true, Nat.add_sub_cancel_left, elim_some, bind_eq_bind]
  rw [← bind_assoc, put_bind_extension, ← bind_assoc, put_bind_put,
    ← bind_assoc, put_bind_put, put_bind_extension]
  simp only [matchBytes, literalBytes, token, append_assoc, cons_append, nil_append]

/-! ## Reading sequences -/

lemma readLength_literals (lits tail : Bytes) (code : ℕ) :
    readLength (token lits.length code >>> 4).toNat (extension lits.length ++ (lits ++ tail)) =
      some (lits.length, lits ++ tail) := by
  rw [token_lit, readLength_append]

/-- **The last sequence** is read back; the match half of its token is not read. -/
theorem decompressLoop_last {lits : Bytes} {code : ℕ}
    (hfuel : (literalBytes lits code).length ≤ fuel) (hroom : (out ++ lits).length ≤ capacity) :
    decompressLoop capacity fuel (literalBytes lits code) out = some (out ++ lits) := by
  obtain ⟨fuel, rfl⟩ := Nat.exists_eq_add_one.mpr (Nat.lt_of_lt_of_le (Nat.succ_pos _) hfuel)
  have hread := readLength_literals lits [] code
  rw [append_nil] at hread
  rw [length_append] at hroom
  simp only [literalBytes, decompressLoop, hread]
  rw [if_neg (by omega), take_length, drop_length]

/-- **A sequence with a match** is read back, and what follows is read next. -/
theorem decompressLoop_match {lits : Bytes} {code offset : ℕ} {tail : Bytes}
    (hfuel : (matchBytes lits code offset ++ tail).length ≤ fuel) (hoffset : 0 < offset)
    (hback : offset ≤ (out ++ lits).length) (hwidth : offset < 2 ^ 16)
    (hroom : (out ++ lits).length + (code + minMatch) ≤ capacity) :
    ∃ fuel', tail.length ≤ fuel' ∧
      decompressLoop capacity fuel (matchBytes lits code offset ++ tail) out =
        decompressLoop capacity fuel' tail (backCopy offset (code + minMatch) (out ++ lits)) := by
  obtain ⟨fuel, rfl⟩ := Nat.exists_eq_add_one.mpr (Nat.lt_of_lt_of_le (Nat.succ_pos _) hfuel)
  refine ⟨fuel, by simp [matchBytes, literalBytes] at hfuel; omega, ?_⟩
  rw [length_append] at hback hroom
  obtain ⟨low, high, hpair⟩ : ∃ low high, leBytes 2 offset = [low, high] := ⟨_, _, rfl⟩
  have hvalue : leNat [low, high] = offset := by
    rw [← hpair]
    exact leNat_leBytes hwidth
  have hread := readLength_literals lits (low :: high :: (extension code ++ tail)) code
  simp only [matchBytes, literalBytes, hpair, cons_append, append_assoc, nil_append, decompressLoop,
    hread]
  rw [if_neg (by simp; omega), take_left, drop_left]
  simp only [hvalue, length_append]
  rw [if_neg (by omega), token_match, readLength_append]
  simp only
  rw [if_neg (by omega)]

/-! ## The round trip -/

/-- **The stream completes the text** from a position on, in any buffer that holds the text. -/
def Decodes (input : Bytes) (anchor : ℕ) (stream : Bytes) : Prop :=
  ∀ capacity, input.length ≤ capacity → ∀ fuel, stream.length ≤ fuel →
    decompressLoop capacity fuel stream (input.take anchor) = some input

lemma decodes_last (input : Bytes) (anchor : ℕ) :
    Decodes input anchor (literalBytes (input.drop anchor) 0) := by
  intro capacity hcap fuel hfuel
  rw [decompressLoop_last hfuel (by rwa [take_append_drop]), take_append_drop]

lemma decodes_match {stream : Bytes} {anchor at_ cand code : ℕ} (hanchor : anchor ≤ at_)
    (hbefore : cand < at_) (hnear : at_ - cand ≤ 65535)
    (hend : at_ + (code + minMatch) ≤ input.length)
    (hrepeats : ∀ i < code + minMatch, input[cand + i]? = input[at_ + i]?)
    (hstream : Decodes input (at_ + (code + minMatch)) stream) :
    Decodes input anchor
      (matchBytes ((input.take at_).drop anchor) code (at_ - cand) ++ stream) := by
  intro capacity hcap fuel hfuel
  -- the literals complete the text up to the match
  have htext : input.take anchor ++ (input.take at_).drop anchor = input.take at_ := by
    have hsplit := take_append_drop anchor (input.take at_)
    rwa [take_take, min_eq_left hanchor] at hsplit
  have hlen : (input.take anchor ++ (input.take at_).drop anchor).length = at_ := by
    rw [htext, length_take]
    omega
  obtain ⟨fuel', hfuel', hloop⟩ := @decompressLoop_match fuel capacity (input.take anchor) _ _ _ _
    hfuel (by omega) (by omega) (by omega) (by omega)
  rw [hloop, htext, backCopy_take (by omega) (by omega) hend (fun i hi => ?_)]
  · exact hstream capacity hcap fuel' hfuel'
  · rw [Nat.sub_sub_self (le_of_lt hbefore)]
    exact hrepeats i hi

lemma readU32_inj {a b : ℕ} (ha : a + 4 ≤ input.length) (hb : b + 4 ≤ input.length)
    (h : readU32 input a = readU32 input b) {i : ℕ} (hi : i < 4) :
    input[a + i]? = input[b + i]? := by
  have hlen : ∀ {at_ : ℕ}, at_ + 4 ≤ input.length → ((input.drop at_).take 4).length = 4 := by
    intro at_ hle
    rw [length_take, length_drop]
    omega
  have hlt : ∀ {at_ : ℕ}, at_ + 4 ≤ input.length → leNat ((input.drop at_).take 4) < 2 ^ 32 := by
    intro at_ hle
    have := leNat_lt ((input.drop at_).take 4)
    rw [hlen hle] at this
    exact this
  have hbytes : (input.drop a).take 4 = (input.drop b).take 4 := by
    refine leNat_inj ((hlen ha).trans (hlen hb).symm) ?_
    have hval := congrArg UInt32.toNat h
    unfold readU32 at hval
    rwa [UInt32.toNat_ofNat', UInt32.toNat_ofNat', Nat.mod_eq_of_lt (hlt ha),
      Nat.mod_eq_of_lt (hlt hb)] at hval
  have hget : ∀ at_ : ℕ, input[at_ + i]? = ((input.drop at_).take 4)[i]? := by
    intro at_
    rw [getElem?_take_of_lt hi, getElem?_drop]
  rw [hget a, hget b, hbytes]

/-- **What the loop writes is read back**, whatever the table of positions holds: every candidate is
compared before it is used. Induction on the rounds. -/
theorem compressLoop_decodes {limit : ℕ} {table : ℕ → ℕ}
    {anchor at_ anchor' : ℕ} {out' : Bytes} (hlimit : limit + matchGuard = input.length)
    (hanchor : anchor ≤ at_)
    (hloop : compressLoop input capacity limit fuel table anchor at_ out = some (anchor', out')) :
    ∃ written, out' = out ++ written ∧
      ∀ stream, Decodes input anchor' stream → Decodes input anchor (written ++ stream) := by
  have hdone : ∀ {anchor anchor' : ℕ} {out out' : Bytes},
      some (anchor, out) = some (anchor', out') →
      ∃ written, out' = out ++ written ∧
        ∀ stream, Decodes input anchor' stream → Decodes input anchor (written ++ stream) := by
    intro anchor anchor' out out' heq
    cases heq
    exact ⟨[], (append_nil _).symm, fun _ h => h⟩
  induction fuel generalizing table anchor at_ out with
  | zero => exact hdone hloop
  | succ fuel ih =>
    rw [compressLoop] at hloop
    by_cases hlt : at_ < limit
    · rw [if_pos hlt] at hloop
      dsimp only at hloop
      set candidate := table (hash (readU32 input at_)) with hcandidate
      by_cases hmatch : candidate < at_ ∧ at_ - candidate ≤ 65535 ∧
          readU32 input candidate = readU32 input at_
      · rw [if_pos hmatch] at hloop
        obtain ⟨hbefore, hnear, hsame⟩ := hmatch
        set code := matchLength (input.length - lastLiterals - (at_ + minMatch))
          (input.drop (candidate + minMatch)) (input.drop (at_ + minMatch)) with hcode
        rw [emit_match] at hloop
        unfold put at hloop
        split_ifs at hloop with hroom
        have hguard : matchGuard = 12 := rfl
        have hmin : minMatch = 4 := rfl
        have hlast : lastLiterals = 5 := rfl
        have hcodeLe : code ≤ input.length - lastLiterals - (at_ + minMatch) :=
          matchLength_le _ _ _
        obtain ⟨written, hout, hdecodes⟩ := ih le_rfl hloop
        refine ⟨matchBytes ((input.take at_).drop anchor) code (at_ - candidate) ++ written, ?_,
          fun stream hstream => ?_⟩
        · rw [hout, append_assoc]
        rw [append_assoc]
        have hrest := hdecodes stream hstream
        rw [add_comm minMatch code] at hrest
        refine decodes_match hanchor hbefore hnear (by omega) (fun i hi => ?_) hrest
        -- four bytes compared as a number, the others one by one
        by_cases hi4 : i < 4
        · exact readU32_inj (by omega) (by omega) hsame hi4
        have hstep := @matchLength_spec _ _ _ _ _ (i - 4) (show i - 4 < code by omega)
        rw [getElem?_drop, getElem?_drop, hmin,
          show candidate + 4 + (i - 4) = candidate + i by omega,
          show at_ + 4 + (i - 4) = at_ + i by omega] at hstep
        exact hstep
      · rw [if_neg hmatch] at hloop
        exact ih (Nat.le_succ_of_le hanchor) hloop
    · rw [if_neg hlt] at hloop
      exact hdone hloop

/-- **LZ4 round trip.** Whatever `compress` wrote, for any input and any output buffer, `decompress`
turns into the input again, in any buffer that is large enough for it. -/
theorem decompress_compress (input : Bytes) (outputCapacity restoredCapacity : ℕ)
    {compressed : Bytes} (hcompress : compress input outputCapacity = some compressed)
    (hroom : input.length ≤ restoredCapacity) :
    decompress compressed restoredCapacity = some input := by
  -- the streams of the loop and of the tail
  have htail : ∀ {anchor : ℕ} {out : Bytes},
      emit outputCapacity out (input.drop anchor) 0 0 = some compressed →
      compressed = out ++ literalBytes (input.drop anchor) 0 := by
    intro anchor out hemit
    rw [emit_last] at hemit
    unfold put at hemit
    split_ifs at hemit
    exact (some.inj hemit).symm
  have hdecodes : Decodes input 0 compressed := by
    unfold compress at hcompress
    by_cases hlong : matchGuard < input.length
    · rw [if_pos hlong, bind_eq_bind] at hcompress
      obtain ⟨⟨anchor, out⟩, hloop, hemit⟩ := bind_eq_some_iff.mp hcompress
      obtain ⟨written, hout, hwritten⟩ :=
        compressLoop_decodes (Nat.sub_add_cancel (le_of_lt hlong)) le_rfl hloop
      rw [htail hemit, hout]
      exact hwritten _ (decodes_last input anchor)
    · rw [if_neg hlong, bind_eq_bind, bind_some] at hcompress
      rw [htail hcompress]
      exact decodes_last input 0
  exact hdecodes restoredCapacity hroom compressed.length le_rfl

/-- A run of one byte is a match that overlaps itself. -/
theorem decompress_compress_run :
    compress (replicate 40 97) 16 = some [0x1f, 97, 1, 0, 15, 0x50, 97, 97, 97, 97, 97] ∧
      decompress [0x1f, 97, 1, 0, 15, 0x50, 97, 97, 97, 97, 97] 40 = some (replicate 40 97) := by
  have hcompress : compress (replicate 40 97) 16 =
      some [0x1f, 97, 1, 0, 15, 0x50, 97, 97, 97, 97, 97] := by decide +kernel
  exact ⟨hcompress, decompress_compress _ 16 40 hcompress (by decide)⟩

end Lz4

end Pos3ql
