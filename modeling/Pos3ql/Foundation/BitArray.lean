import Pos3ql.Foundation.Bytes

/-!
# Bits in a byte string

* `bitAt`, `setBit`: one bit of a byte string, by its position.
* **`bitAt_setBit_self`**, **`bitAt_setBit_mono`**: a bit that was set is set, and stays so.
-/

namespace Pos3ql.Foundation

open List

/-- The bit at a position. -/
def bitAt (bits : Bytes) (position : ℕ) : Bool :=
  (bits[position / 8]?).any fun byte => byte.toNat.testBit (position % 8)

/-- Set the bit at a position. -/
def setBit (bits : Bytes) (position : ℕ) : Bytes :=
  bits.modify (position / 8) fun byte => UInt8.ofNat (byte.toNat ||| 2 ^ (position % 8))

@[simp]
lemma length_setBit (bits : Bytes) (pos : ℕ) : (setBit bits pos).length = bits.length :=
  length_modify ..

lemma toNat_or_bit (byte : UInt8) (pos : ℕ) :
    (UInt8.ofNat (byte.toNat ||| 2 ^ (pos % 8))).toNat = byte.toNat ||| 2 ^ (pos % 8) := by
  have hbit : 2 ^ (pos % 8) < 2 ^ 8 :=
    Nat.pow_lt_pow_right (by omega) (Nat.mod_lt _ (by omega))
  have hor := Nat.or_lt_two_pow byte.toNat_lt hbit
  rw [UInt8.toNat_ofNat', Nat.mod_eq_of_lt hor]

/-- A bit that was set. -/
lemma bitAt_setBit_self {bits : Bytes} {pos : ℕ} (h : pos < bits.length * 8) :
    bitAt (setBit bits pos) pos := by
  have hlt : pos / 8 < bits.length := by omega
  unfold bitAt setBit
  rw [getElem?_modify_eq, getElem?_eq_getElem hlt, Option.map_eq_map, Option.map_some,
    Option.any_some,
    toNat_or_bit, Nat.testBit_or, Nat.testBit_two_pow_self, Bool.or_true]

/-- Set bits stay set. -/
lemma bitAt_setBit_mono {bits : Bytes} {p q : ℕ} (h : bitAt bits p) : bitAt (setBit bits q) p := by
  unfold bitAt at h ⊢
  unfold setBit
  by_cases hsame : q / 8 = p / 8
  · rw [hsame, getElem?_modify_eq]
    rcases hbyte : bits[p / 8]? with _ | byte
    · rw [hbyte] at h
      cases h
    · rw [hbyte, Option.any_some] at h
      rw [Option.map_eq_map, Option.map_some, Option.any_some, toNat_or_bit, Nat.testBit_or, h,
        Bool.true_or]
  · rw [getElem?_modify_ne _ _ hsame]
    exact h

end Pos3ql.Foundation
