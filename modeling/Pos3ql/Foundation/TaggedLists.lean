import Mathlib

/-!
# Lists made of tagged parts

Parts are delivered one after another, each element with the tag of its part. What is delivered is a
prefix of what is due exactly when no element is delivered after one that was left out.

* `taggedBy tag content parts`: the elements of the parts, in order.
* `Gapless got due parts`: complete parts, then one that may break off, then nothing.
* **`taggedBy_prefix_iff`**: the two say the same when the tags differ.
-/

namespace Pos3ql.Foundation

open List

variable {α β ι : Type} {tag : β → ι} {got due : β → List α} {parts : List β}

/-- The elements of the parts, in order, each with the tag of its part. -/
def taggedBy (tag : β → ι) (content : β → List α) (parts : List β) : List (ι × α) :=
  parts.flatMap fun part => (content part).map fun a => (tag part, a)

/-- Complete parts, then one that may break off, then nothing. -/
def Gapless (got due : β → List α) : List β → Prop
  | [] => True
  | part :: rest =>
    (got part = due part ∧ Gapless got due rest) ∨
      (got part <+: due part ∧ ∀ later ∈ rest, got later = [])

/-- The first part and the rest. -/
lemma taggedBy_cons (cont : β → List α) (part : β) (rest : List β) :
    taggedBy tag cont (part :: rest) =
      (cont part).map (fun a => (tag part, a)) ++ taggedBy tag cont rest :=
  flatMap_cons ..

/-- Parts joined. -/
lemma taggedBy_append (cont : β → List α) (first second : List β) :
    taggedBy tag cont (first ++ second) = taggedBy tag cont first ++ taggedBy tag cont second :=
  flatMap_append ..

/-- Nothing: every part is empty. -/
lemma taggedBy_eq_nil {cont : β → List α} :
    taggedBy tag cont parts = [] ↔ ∀ part ∈ parts, cont part = [] := by
  simp only [taggedBy, flatMap_eq_nil_iff, map_eq_nil_iff]

/-- A tag belongs to a part. -/
lemma tag_of_mem_taggedBy {cont : β → List α} {e : ι × α}
    (h : e ∈ taggedBy tag cont parts) : ∃ part ∈ parts, e.1 = tag part := by
  obtain ⟨part, hpart, he⟩ := mem_flatMap.mp h
  obtain ⟨a, -, rfl⟩ := mem_map.mp he
  exact ⟨part, hpart, rfl⟩

/-- The first part of a prefix: complete, or broken off with nothing after it. Induction on what is
delivered of it. -/
lemma tagged_front {t : ι} {xs ys : List α} {later more : List (ι × α)}
    (hlater : ∀ e ∈ later, e.1 ≠ t) (hmore : ∀ e ∈ more, e.1 ≠ t)
    (h : xs.map (fun a => (t, a)) ++ later <+: ys.map (fun a => (t, a)) ++ more) :
    (xs = ys ∧ later <+: more) ∨ (xs <+: ys ∧ later = []) := by
  induction xs generalizing ys with
  | nil =>
    rcases ys with _ | ⟨y, ys⟩
    · exact .inl ⟨rfl, h⟩
    refine .inr ⟨⟨_, rfl⟩, ?_⟩
    -- what is delivered next would have to be the element left out
    rcases later with _ | ⟨e, later⟩
    · rfl
    · exact absurd (congrArg Prod.fst (cons_prefix_cons.mp h).1) (hlater e mem_cons_self)
  | cons x xs ih =>
    rcases ys with _ | ⟨y, ys⟩
    · obtain ⟨_, rfl⟩ := h
      exact absurd rfl (hmore (t, x) mem_cons_self)
    obtain ⟨hxy, hrest⟩ := cons_prefix_cons.mp h
    obtain rfl := (Prod.mk.inj hxy).2
    rcases ih hrest with ⟨rfl, hpre⟩ | ⟨hpre, hnil⟩
    · exact .inl ⟨rfl, hpre⟩
    · exact .inr ⟨cons_prefix_cons.mpr ⟨rfl, hpre⟩, hnil⟩

/-- A delivery stops in the first part or goes beyond it. -/
lemma taggedBy_cons_prefix {part : β} {rest : List β}
    (hdistinct : ∀ later ∈ rest, tag part ≠ tag later)
    (h : taggedBy tag got (part :: rest) <+: taggedBy tag due (part :: rest)) :
    (got part = due part ∧ taggedBy tag got rest <+: taggedBy tag due rest) ∨
      (got part <+: due part ∧ ∀ later ∈ rest, got later = []) := by
  have htags : ∀ {cont : β → List α}, ∀ e ∈ taggedBy tag cont rest, e.1 ≠ tag part := by
    intro cont e he heq
    obtain ⟨later, hlater, htag⟩ := tag_of_mem_taggedBy he
    exact hdistinct later hlater (heq.symm.trans htag)
  exact (tagged_front htags htags h).imp_right (And.imp_right taggedBy_eq_nil.mp)

/-- **A delivery without a gap is a prefix of what is due.** Induction on the parts. -/
theorem taggedBy_prefix_iff (hdistinct : parts.Pairwise fun part later => tag part ≠ tag later) :
    taggedBy tag got parts <+: taggedBy tag due parts ↔ Gapless got due parts := by
  induction parts with
  | nil => exact ⟨fun _ => trivial, fun _ => prefix_rfl⟩
  | cons part rest ih =>
    obtain ⟨hfirst, hrest⟩ := pairwise_cons.mp hdistinct
    constructor
    · intro h
      rcases taggedBy_cons_prefix hfirst h with ⟨heq, hpre⟩ | hbroken
      · exact .inl ⟨heq, (ih hrest).mp hpre⟩
      · exact .inr hbroken
    rintro (⟨heq, hgapless⟩ | ⟨hpre, hnone⟩)
    · rw [taggedBy_cons, taggedBy_cons, heq, prefix_append_right_inj]
      exact (ih hrest).mpr hgapless
    · rw [taggedBy_cons, taggedBy_eq_nil.mpr hnone, append_nil]
      exact (hpre.map _).trans (prefix_append ..)

end Pos3ql.Foundation
