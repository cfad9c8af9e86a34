import Mathlib

/-!
# Copying from what was written

A back reference copies bytes from an earlier place of the output to its end, one at a time, so that
it may run into the bytes it has just written. Where the output is a beginning of some text that
repeats itself at that distance, the copy is a longer beginning of the same text. Nothing here knows
what the elements are.

* `backCopy`: the copy, element by element.
* **`backCopy_take`**: a copy inside a text that repeats.
* `matchLength`: how far a text repeats, and `matchLength_spec`: it does so up to there.
-/

namespace Pos3ql.Foundation

open List

variable {α : Type}

/-- Append `n` elements, each the one `distance` before the end. -/
def backCopy (distance : ℕ) : ℕ → List α → List α
  | 0, out => out
  | n + 1, out => backCopy distance n (out ++ (out.drop (out.length - distance)).take 1)

/-- **A copy inside a text that repeats.** Induction on the length of the copy. -/
theorem backCopy_take {text : List α} {distance : ℕ} (hpos : 0 < distance) {n at_ : ℕ}
    (hback : distance ≤ at_) (hend : at_ + n ≤ text.length)
    (hrepeats : ∀ i < n, text[at_ - distance + i]? = text[at_ + i]?) :
    backCopy distance n (text.take at_) = text.take (at_ + n) := by
  induction n generalizing at_ with
  | zero => rfl
  | succ n ih =>
    have hlt : at_ < text.length := by omega
    have hlength : (text.take at_).length = at_ := by
      rw [length_take]
      omega
    -- the element copied is the next of the text
    have hcopied : ((text.take at_).drop (at_ - distance)).take 1 = [text[at_]] := by
      have hfrom : at_ - distance < text.length := by omega
      have hsame : text[at_ - distance] = text[at_] := by
        have h0 := hrepeats 0 (Nat.succ_pos n)
        rw [add_zero, add_zero, getElem?_eq_getElem hfrom, getElem?_eq_getElem hlt] at h0
        exact Option.some.inj h0
      rw [drop_take, take_take, drop_eq_getElem_cons hfrom, hsame, min_eq_left (by omega)]
      rfl
    rw [backCopy, hlength, hcopied, take_append_getElem hlt,
      ih (by omega) (by omega) (fun i hi => ?_)]
    · congr 1
      omega
    have h := hrepeats (i + 1) (by omega)
    rw [show at_ + 1 - distance + i = at_ - distance + (i + 1) by omega,
      show at_ + 1 + i = at_ + (i + 1) by omega]
    exact h

variable [DecidableEq α]

/-- How far `ahead` agrees with `behind`, up to a limit. -/
def matchLength : ℕ → List α → List α → ℕ
  | 0, _, _ => 0
  | limit + 1, a :: behind, b :: ahead => if a = b then matchLength limit behind ahead + 1 else 0
  | _ + 1, _, _ => 0

/-- A match ends at the limit. -/
lemma matchLength_le (limit : ℕ) (behind ahead : List α) :
    matchLength limit behind ahead ≤ limit := by
  induction limit generalizing behind ahead with
  | zero => exact le_rfl
  | succ limit ih =>
    rcases behind with _ | ⟨a, behind⟩
    · exact zero_le
    rcases ahead with _ | ⟨b, ahead⟩
    · exact zero_le
    rw [matchLength]
    split
    · exact Nat.succ_le_succ (ih behind ahead)
    · exact zero_le

/-- The matched elements agree. -/
lemma matchLength_spec {limit : ℕ} {behind ahead : List α} {i : ℕ}
    (h : i < matchLength limit behind ahead) : behind[i]? = ahead[i]? := by
  induction limit generalizing behind ahead i with
  | zero => nomatch h
  | succ limit ih =>
    rcases behind with _ | ⟨a, behind⟩
    · nomatch h
    rcases ahead with _ | ⟨b, ahead⟩
    · nomatch h
    rw [matchLength] at h
    split at h
    · rename_i hab
      rcases i with _ | i
      · rw [getElem?_cons_zero, getElem?_cons_zero, hab]
      · rw [getElem?_cons_succ]
        exact ih (Nat.lt_of_succ_lt_succ h)
    · nomatch h

end Pos3ql.Foundation
