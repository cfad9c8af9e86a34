import Mathlib

/-!
# Sorted sequences cut into runs

A long sequence is stored as a list of runs, and a search looks at one run only.

* `bisectLast` is the binary search for the last index at which a predicate that holds up to some
  point still holds, as `while lo < hi` loops compute it (`bisectLast_spec`).
* `find?_flatten_eq_iff` says exactly when searching one run finds what searching the whole sequence
  finds.
-/

namespace Pos3ql.Foundation

open List Option

/-! ## Binary search -/

/-- The last index in `lo..hi` at which `p` holds, for a `p` that holds up to some point. `fuel`
bounds the iterations. -/
def bisectLast (p : ℕ → Bool) : ℕ → ℕ → ℕ → ℕ
  | 0, lo, _ => lo
  | fuel + 1, lo, hi =>
    if lo < hi then
      let mid := (lo + hi + 1) / 2
      if p mid then bisectLast p fuel mid hi else bisectLast p fuel lo (mid - 1)
    else lo

/-- **Binary search finds the last index.** Induction on the fuel: each iteration shortens the
range, keeping `p` true at its lower end and false above its upper end. -/
theorem bisectLast_spec {p : ℕ → Bool} {fuel lo hi top : ℕ}
    (hdown : ∀ i j, i ≤ j → j ≤ top → p j → p i) (hfuel : hi - lo ≤ fuel) (hle : lo ≤ hi)
    (hlo : p lo) (htop : hi ≤ top) (habove : ∀ i, hi < i → i ≤ top → p i = false) :
    bisectLast p fuel lo hi ≤ hi ∧ p (bisectLast p fuel lo hi) ∧
      ∀ i, bisectLast p fuel lo hi < i → i ≤ top → p i = false := by
  induction fuel generalizing lo hi with
  | zero =>
    have heq : hi = lo := by omega
    subst heq
    exact ⟨le_rfl, hlo, habove⟩
  | succ fuel ih =>
    unfold bisectLast
    by_cases hlt : lo < hi
    swap
    · have heq : hi = lo := by omega
      subst heq
      rw [if_neg hlt]
      exact ⟨le_rfl, hlo, habove⟩
    rw [if_pos hlt]
    by_cases hmid : p ((lo + hi + 1) / 2) = true
    · rw [if_pos hmid]
      exact @ih ((lo + hi + 1) / 2) hi (by omega) (by omega) hmid htop habove
    rw [if_neg hmid]
    have habove' : ∀ i, (lo + hi + 1) / 2 - 1 < i → i ≤ top → p i = false := by
      intro i hi₁ hi₂
      exact Bool.eq_false_iff.mpr fun hp => hmid (hdown _ i (by omega) hi₂ hp)
    obtain ⟨h₂, h₃, h₄⟩ := ih (by omega) (by omega) hlo (by omega) habove'
    exact ⟨by omega, h₃, h₄⟩

/-! ## Runs -/

section Runs

variable {α : Type} {runs : List (List α)}

/-- The runs before one of them, that run, and the later ones. -/
lemma flatten_split (runs : List (List α)) (c : ℕ) :
    runs.flatten = (runs.take c).flatten ++ (runs.getD c [] ++ (runs.drop (c + 1)).flatten) := by
  induction runs generalizing c with
  | nil => simp
  | cons run rest ih =>
    cases c with
    | zero => simp
    | succ c => rw [flatten_cons, ih c, take_succ_cons, flatten_cons, append_assoc]; rfl

/-- An element of some run. -/
lemma mem_flatten_iff {e : α} : e ∈ runs.flatten ↔ ∃ i, e ∈ runs.getD i [] := by
  simp only [getD_eq_getElem?_getD]
  constructor
  · intro h
    obtain ⟨run, hrun, he⟩ := mem_flatten.mp h
    obtain ⟨i, hi⟩ := mem_iff_getElem?.mp hrun
    exact ⟨i, by rwa [hi]⟩
  · rintro ⟨i, he⟩
    rcases hi : runs[i]? with _ | run
    · simp [hi] at he
    · exact mem_flatten.mpr ⟨run, mem_of_getElem? hi, by rwa [hi] at he⟩

/-- An element of an early run. -/
lemma mem_flatten_take {c : ℕ} {e : α} :
    e ∈ (runs.take c).flatten ↔ ∃ i < c, e ∈ runs.getD i [] := by
  simp only [mem_flatten_iff, getD_eq_getElem?_getD, getElem?_take]
  refine exists_congr fun i => ?_
  split
  · rename_i hi
    exact (and_iff_right hi).symm
  · rename_i hi
    exact iff_of_false not_mem_nil fun h => hi h.1

/-- An element of a late run. -/
lemma mem_flatten_drop {c : ℕ} {e : α} :
    e ∈ (runs.drop c).flatten ↔ ∃ j, c ≤ j ∧ e ∈ runs.getD j [] := by
  simp only [mem_flatten_iff, getD_eq_getElem?_getD, getElem?_drop]
  constructor
  · rintro ⟨j, he⟩
    exact ⟨c + j, Nat.le_add_right c j, he⟩
  · rintro ⟨j, hj, he⟩
    exact ⟨j - c, by rwa [Nat.add_sub_cancel' hj]⟩

/-- Earlier runs come first. -/
lemma rel_of_runs {R : α → α → Prop} (hsorted : runs.flatten.Pairwise R) {i j : ℕ} (hij : i < j)
    {a b : α} (ha : a ∈ runs.getD i []) (hb : b ∈ runs.getD j []) : R a b := by
  rw [flatten_split runs i, pairwise_append] at hsorted
  exact (pairwise_append.mp hsorted.2.1).2.2 a ha b (mem_flatten_drop.mpr ⟨j, hij, hb⟩)

/-- Each run is sorted. -/
lemma pairwise_run {R : α → α → Prop} (hsorted : runs.flatten.Pairwise R) (i : ℕ) :
    (runs.getD i []).Pairwise R := by
  rw [getD_eq_getElem?_getD]
  rcases hget : runs[i]? with _ | run
  · exact .nil
  · exact (pairwise_flatten.mp hsorted).1 run (mem_of_getElem? hget)

/-- **Searching one run.** It finds what searching all of them finds exactly when nothing is found
before the run, and nothing after it unless something is found in it. -/
theorem find?_flatten_eq_iff (p : α → Bool) (hnodup : runs.flatten.Nodup) (c : ℕ) :
    runs.flatten.find? p = (runs.getD c []).find? p ↔ (∀ i < c, ∀ e ∈ runs.getD i [], p e = false) ∧
        ((∃ e ∈ runs.getD c [], p e) ∨ ∀ j, c < j → ∀ e ∈ runs.getD j [], p e = false) := by
  have hbefore : (∀ i < c, ∀ e ∈ runs.getD i [], p e = false) ↔
      (runs.take c).flatten.find? p = none := by
    simp only [find?_eq_none, mem_flatten_take, Bool.not_eq_true]
    refine ⟨?_, fun h i hi e he => h e ⟨i, hi, he⟩⟩
    rintro h e ⟨i, hi, he⟩
    exact h i hi e he
  have hafter : (∀ j, c < j → ∀ e ∈ runs.getD j [], p e = false) ↔
      (runs.drop (c + 1)).flatten.find? p = none := by
    simp only [find?_eq_none, mem_flatten_drop, Bool.not_eq_true]
    refine ⟨?_, fun h j hj e he => h e ⟨j, hj, he⟩⟩
    rintro h e ⟨j, hj, he⟩
    exact h j hj e he
  rw [flatten_split runs c] at hnodup ⊢
  rw [hbefore, hafter, find?_append, find?_append, ← find?_isSome]
  rcases hfirst : (runs.take c).flatten.find? p with _ | x
  · rcases (runs.getD c []).find? p with _ | y
    · simp
    · simp
  · -- found before the run: it cannot be found again
    refine iff_of_false (fun h => ?_) (fun h => nomatch h.1)
    have hagain := mem_of_find?_eq_some (h.symm.trans (Option.some_or ..))
    exact (nodup_append.mp hnodup).2.2 x (mem_of_find?_eq_some hfirst) x (mem_append_left _ hagain)
      rfl

end Runs

end Pos3ql.Foundation
