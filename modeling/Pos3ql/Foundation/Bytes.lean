import Mathlib

/-!
# Bytes: little-endian numbers, and reading a format back

* `leBytes w n` writes a number in `w` bytes, lowest first; `leNat` reads it (`leNat_leBytes`).
* `Take` reads a byte string from its front and fails when it is too short. For each reader there is
  a lemma that says what it does on bytes written by its writer and followed by anything
  (`le_append`, `counted_append`, `flag_append`, `optional_append`): the round trip of a format of
  several fields is a chain of them, joined by `run_bind_some`.
* `zeros n` is a run of zero bytes.
-/

namespace Pos3ql.Foundation

open List

/-- A byte string. -/
abbrev Bytes := List UInt8

/-! ## Numbers -/

/-- `n` in `w` bytes, lowest first, cut to that width. -/
def leBytes : ℕ → ℕ → Bytes
  | 0, _ => []
  | w + 1, n => UInt8.ofNat n :: leBytes w (n / 256)

/-- The number some bytes spell, lowest first. -/
def leNat : Bytes → ℕ
  | [] => 0
  | b :: rest => b.toNat + 256 * leNat rest

@[simp]
lemma length_leBytes (w n : ℕ) : (leBytes w n).length = w := by
  induction w generalizing n with
  | zero => rfl
  | succ w ih => rw [leBytes, length_cons, ih]

variable {n k : ℕ}

/-- Writing and reading a number. Induction on the width. -/
lemma leNat_leBytes {w : ℕ} (h : n < 256 ^ w) : leNat (leBytes w n) = n := by
  induction w generalizing n with
  | zero =>
    simp only [Nat.pow_zero, Nat.lt_one_iff] at h
    rw [h]
    rfl
  | succ w ih =>
    have hdiv : n / 256 < 256 ^ w := by
      rw [Nat.pow_succ, mul_comm] at h
      exact Nat.div_lt_of_lt_mul h
    rw [leBytes, leNat, ih hdiv, UInt8.toNat_ofNat']
    omega

/-- Bytes spell a number below the bound. -/
lemma leNat_lt (bytes : Bytes) : leNat bytes < 256 ^ bytes.length := by
  induction bytes with
  | nil => exact Nat.one_pos
  | cons b rest ih =>
    have hb := b.toNat_lt
    rw [leNat, length_cons]
    omega

/-- Writing what was read. -/
lemma leBytes_leNat (bytes : Bytes) : leBytes bytes.length (leNat bytes) = bytes := by
  induction bytes with
  | nil => rfl
  | cons b rest ih =>
    have hb := b.toNat_lt
    have hdiv : leNat (b :: rest) / 256 = leNat rest := by
      rw [leNat]
      omega
    have hlow : UInt8.ofNat (leNat (b :: rest)) = b := by
      refine UInt8.toNat_inj.mp ?_
      rw [UInt8.toNat_ofNat', leNat]
      omega
    rw [length_cons, leBytes, hdiv, ih, hlow]

/-- Equal numbers, equal bytes. -/
lemma leNat_inj {a b : Bytes} (hlength : a.length = b.length) (h : leNat a = leNat b) : a = b := by
  rw [← leBytes_leNat a, ← leBytes_leNat b, hlength, h]

/-! ## Zeros -/

/-- A run of zero bytes. -/
def zeros (n : ℕ) : Bytes := replicate n 0

@[simp]
lemma length_zeros (n : ℕ) : (zeros n).length = n := length_replicate ..

/-- The first `k` bytes, and zeros for the others. -/
def torn (k : ℕ) (bytes : Bytes) : Bytes := bytes.take k ++ zeros (bytes.length - k)

/-- A reader of the front of a byte string. -/
abbrev Take := StateT Bytes Option

namespace Take

/-- The next `n` bytes. -/
def bytes (n : ℕ) : Take Bytes := fun input =>
  if n ≤ input.length then some (input.take n, input.drop n) else none

/-- The next `w` bytes as a number. -/
def le (w : ℕ) : Take ℕ := do
  let raw ← bytes w
  pure (leNat raw)

/-- Bytes preceded by their length in `w` bytes. -/
def counted (w : ℕ) : Take Bytes := do
  let n ← le w
  bytes n

/-- A byte that is 0 or 1. -/
def flag : Take Bool := do
  match ← le 1 with
  | 0 => pure false
  | 1 => pure true
  | _ => failure

/-- A value that may be absent, after a byte that says so. -/
def optional {α : Type} (t : Take α) : Take (Option α) := do
  if ← flag then
    let a ← t
    pure (some a)
  else pure none

/-- A value that must exist. -/
def ofOption {α : Type} : Option α → Take α
  | some a => pure a
  | none => failure

/-- Read all of the input. -/
def all {α : Type} (t : Take α) (input : Bytes) : Option α :=
  match t.run input with
  | some (a, []) => some a
  | _ => none

/-- The bytes of a flag. -/
def flagBytes (b : Bool) : Bytes := [if b then 1 else 0]

/-- The bytes of a value that may be absent. -/
def optionalBytes {α : Type} (write : α → Bytes) : Option α → Bytes
  | none => flagBytes false
  | some a => flagBytes true ++ write a

/-- The bytes of a counted string. -/
def countedBytes (w : ℕ) (raw : Bytes) : Bytes := leBytes w raw.length ++ raw

section Laws

variable {α β : Type} {rest : Bytes}

variable {t : Take α} {a : α} {raw : Bytes} {n w : ℕ}

/-- One reader after another. -/
lemma run_bind_some {f : α → Take β} {input next : Bytes}
    (h : t.run input = some (a, next)) : (t >>= f).run input = (f a).run next := by
  rw [StateT.run_bind, h]
  rfl

/-- Raw bytes are read back. -/
lemma bytes_append (h : raw.length = n) : (bytes n).run (raw ++ rest) = some (raw, rest) := by
  subst h
  change (if _ then _ else _) = _
  rw [if_pos (by simp), take_left, drop_left]

/-- A number is read back. -/
lemma le_append (h : n < 256 ^ w) : (le w).run (leBytes w n ++ rest) = some (n, rest) := by
  unfold le
  rw [run_bind_some (bytes_append (length_leBytes w n)), leNat_leBytes h]
  rfl

/-- Counted bytes are read back. -/
lemma counted_append (h : raw.length < 256 ^ w) :
    (counted w).run (countedBytes w raw ++ rest) = some (raw, rest) := by
  unfold counted countedBytes
  rw [append_assoc, run_bind_some (le_append h)]
  exact bytes_append rfl

/-- A flag is read back. -/
lemma flag_append (b : Bool) : flag.run (flagBytes b ++ rest) = some (b, rest) := by
  have hone : flagBytes b = leBytes 1 (if b then 1 else 0) := by cases b <;> rfl
  unfold flag
  cases b <;> rfl

/-- An optional value is read back. -/
lemma optional_append {write : α → Bytes} {value : Option α}
    (h : ∀ a, value = some a → t.run (write a ++ rest) = some (a, rest)) :
    (optional t).run (optionalBytes write value ++ rest) = some (value, rest) := by
  unfold optional optionalBytes
  rcases value with _ | a
  · rw [run_bind_some (flag_append false)]
    rfl
  · rw [append_assoc, run_bind_some (flag_append true), if_pos rfl, run_bind_some (h a rfl)]
    rfl

/-- A value that is there. -/
lemma ofOption_run {value : Option α} (h : value = some a) :
    (ofOption value).run rest = some (a, rest) := by
  rw [h]
  rfl

/-- A reader at the end of its input. -/
lemma run_of_append (h : t.run (raw ++ []) = some (a, [])) : t.run raw = some (a, []) := by
  rwa [append_nil] at h

/-- A reader that uses up its input. -/
lemma all_of_run {input : Bytes} (h : t.run input = some (a, [])) : t.all input = some a := by
  unfold all
  rw [h]

end Laws

end Take

end Pos3ql.Foundation
