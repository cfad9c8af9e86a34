import Mathlib

/-!
# Wait-for graphs

Nodes that wait for at most one other node each. A new wait is admitted after a walk along the
waits, from the node waited for: coming back to the waiter means a deadlock. The walk is cut off
after a fixed number of steps. Nothing here knows what the nodes are.

* `Acyclic`, kept by sub-relations (`Acyclic.mono`) and by renaming a node (`Acyclic.map`);
  `Acyclic.existsUnique_end`: where the waits end.
* `Adding`: the graph with one wait set; `acyclic_adding_iff` says when it has no cycle.
* **`walk_eq_true_iff`**: the cut-off walk decides reachability once the steps outnumber the
  waiters.
-/

namespace Pos3ql.Foundation

open Relation

variable {κ : Type}

/-! ## Cycles -/

/-- No node waits for itself, through any number of others. -/
def Acyclic (E : κ → κ → Prop) : Prop := ∀ x, ¬TransGen E x x

/-- Fewer edges make no cycle. -/
lemma Acyclic.mono {E F : κ → κ → Prop} (hF : Acyclic F) (h : ∀ x y, E x y → F x y) : Acyclic E :=
  fun x hx => hF x (TransGen.mono h x x hx)

/-- No edges, no cycle. -/
lemma acyclic_empty : Acyclic fun _ _ : κ => False := by
  intro x hx
  obtain ⟨_, _, h⟩ := TransGen.tail'_iff.mp hx
  exact h

/-- Renaming nodes keeps a graph acyclic when no two of its nodes become one. -/
lemma Acyclic.map {E : κ → κ → Prop} (hE : Acyclic E) {f : κ → κ} {nodes : Set κ}
    (hnodes : ∀ x y, E x y → x ∈ nodes ∧ y ∈ nodes) (hf : Set.InjOn f nodes) :
    Acyclic (Relation.Map E f f) := by
  -- a path of the renamed graph is the image of a path
  have hpath : ∀ a c, TransGen (Relation.Map E f f) a c →
      ∃ x z, TransGen E x z ∧ f x = a ∧ f z = c ∧ x ∈ nodes ∧ z ∈ nodes := by
    intro a c h
    induction h with
    | single h =>
      obtain ⟨x, y, hxy, rfl, rfl⟩ := h
      exact ⟨x, y, .single hxy, rfl, rfl, hnodes x y hxy⟩
    | tail _ h ih =>
      obtain ⟨x, z, hxz, rfl, hz, hx, hzn⟩ := ih
      obtain ⟨y, w, hyw, hy, rfl⟩ := h
      obtain ⟨hyn, hwn⟩ := hnodes y w hyw
      obtain rfl := hf hzn hyn (hz.trans hy.symm)
      exact ⟨x, w, hxz.tail hyw, rfl, rfl, hx, hwn⟩
  intro a ha
  obtain ⟨x, z, hxz, hx, hz, hxn, hzn⟩ := hpath a a ha
  obtain rfl := hf hxn hzn (hx.trans hz.symm)
  exact hE x hxz

/-- **Without a cycle, and with one way on from each node, every node leads to exactly one end.** -/
lemma Acyclic.existsUnique_end [Finite κ] {E : κ → κ → Prop} (hE : Acyclic E)
    (hunique : Relator.RightUnique E) (x : κ) : ∃! y, ReflTransGen E x y ∧ ∀ z, ¬E y z := by
  have hwell : WellFounded (flip (TransGen E)) := by
    have : IsTrans κ (flip (TransGen E)) := ⟨fun _ _ _ hab hbc => hbc.trans hab⟩
    have : Std.Irrefl (flip (TransGen E)) := ⟨hE⟩
    exact Finite.wellFounded_of_trans_of_irrefl _
  induction x using hwell.induction with
  | h x ih =>
  by_cases hnext : ∃ z, E x z
  · obtain ⟨z, hz⟩ := hnext
    obtain ⟨y, ⟨hpath, hend⟩, honly⟩ := ih z (.single hz)
    refine ⟨y, ⟨hpath.head hz, hend⟩, fun y' hy' => ?_⟩
    rcases hy'.1.cases_head with rfl | ⟨z', hz', hrest⟩
    · exact absurd hz (hy'.2 z)
    · exact honly y' ⟨hunique hz hz' ▸ hrest, hy'.2⟩
  · refine ⟨x, ⟨.refl, not_exists.mp hnext⟩, fun y hy => ?_⟩
    rcases hy.1.cases_head with rfl | ⟨z, hz, -⟩
    · rfl
    · exact absurd ⟨z, hz⟩ hnext

/-! ## One more wait -/

/-- The graph in which `w` waits for `b`, and for nobody else. -/
def Adding (E : κ → κ → Prop) (w b : κ) (x y : κ) : Prop := x = w ∧ y = b ∨ x ≠ w ∧ E x y

/-- The waits of everybody else. -/
def Others (E : κ → κ → Prop) (w : κ) (x y : κ) : Prop := x ≠ w ∧ E x y

variable {E : κ → κ → Prop} {w b : κ}

/-- A path of the new graph either was there before, or goes through the new wait. -/
lemma transGen_adding {x y : κ} (h : TransGen (Adding E w b) x y) :
    TransGen (Others E w) x y ∨
      ReflTransGen (Adding E w b) x w ∧ ReflTransGen (Adding E w b) b y := by
  induction h with
  | single h =>
    rcases h with ⟨rfl, rfl⟩ | h
    · exact .inr ⟨.refl, .refl⟩
    · exact .inl (.single h)
  | tail _ h ih =>
    rcases ih with ih | ⟨hw, hb⟩
    · rcases h with ⟨rfl, rfl⟩ | h
      · exact .inr ⟨(TransGen.mono (fun _ _ => Or.inr) _ _ ih).to_reflTransGen, .refl⟩
      · exact .inl (ih.tail h)
    · exact .inr ⟨hw, hb.tail h⟩

/-- **A new wait closes a cycle exactly when the node waited for leads back to the waiter.** -/
theorem acyclic_adding_iff (hE : Acyclic E) :
    Acyclic (Adding E w b) ↔ ¬ReflTransGen (Adding E w b) b w := by
  constructor
  · intro hacyc hback
    exact hacyc w (TransGen.head' (.inl ⟨rfl, rfl⟩) hback)
  intro hback x hx
  rcases transGen_adding hx with h | ⟨hw, hb⟩
  · exact hE x (TransGen.mono (fun _ _ h => h.2) x x h)
  · exact hback (hb.trans hw)

/-! ## The walk -/

/-- Follow the waits from a node towards `target`, at most `n` nodes far. -/
def walk [DecidableEq κ] (next : κ → Option κ) (target : κ) : ℕ → κ → Bool
  | 0, _ => false
  | n + 1, x =>
    if x = target then true
    else
      match next x with
      | none => false
      | some y => walk next target n y

section Walk

variable [DecidableEq κ] {next : κ → Option κ} {target x : κ} {n : ℕ}

/-- A walk is a path. -/
lemma reflTransGen_of_walk (h : walk next target n x) :
    ReflTransGen (fun x y => next x = some y) x target := by
  induction n generalizing x with
  | zero => cases h
  | succ n ih =>
    rw [walk] at h
    by_cases hx : x = target
    · exact hx ▸ .refl
    rw [if_neg hx] at h
    rcases hnext : next x with _ | y
    · simp [hnext] at h
    · simp only [hnext] at h
      exact .head hnext (ih h)

/-- A walk that does not arrive has come to an end, or has visited as many nodes as it may. -/
lemma walk_eq_false (h : walk next target n x = false) :
    ¬ReflTransGen (fun x y => next x = some y) x target ∨
      ∃ visited : List κ, visited.length = n ∧ (∀ y ∈ visited.head?, y = x) ∧
        (∀ y ∈ visited, (next y).isSome) ∧
        visited.IsChain (Others (fun x y => next x = some y) target) := by
  induction n generalizing x with
  | zero => exact .inr ⟨[], rfl, by simp, by simp, .nil⟩
  | succ n ih =>
    rw [walk] at h
    by_cases hx : x = target
    · rw [if_pos hx] at h; cases h
    rw [if_neg hx] at h
    rcases hnext : next x with _ | y
    · -- the end of the waits
      left
      intro hreach
      rcases ReflTransGen.cases_head hreach with rfl | ⟨z, hz, _⟩
      · exact hx rfl
      · rw [hnext] at hz; cases hz
    simp only [hnext] at h
    rcases ih h with hstop | ⟨visited, hlen, hhead, hsome, hchain⟩
    · left
      intro hreach
      rcases ReflTransGen.cases_head hreach with rfl | ⟨z, hz, hrest⟩
      · exact hx rfl
      · obtain rfl := Option.some.inj (hnext.symm.trans hz)
        exact hstop hrest
    right
    refine ⟨x :: visited, by simp [hlen], by simp, ?_, ?_⟩
    · exact List.forall_mem_cons.mpr ⟨by simp [hnext], hsome⟩
    · refine hchain.cons ?_
      intro z hz
      exact ⟨hx, (hhead z hz).symm ▸ hnext⟩

/-- **The cut-off walk decides whether a node leads to the target**, when more steps are allowed
than there are waiters and the waits of everybody else form no cycle. -/
theorem walk_eq_true_iff {waiters : List κ} (hwaiters : ∀ x, (next x).isSome → x ∈ waiters)
    (hacyc : Acyclic (Others (fun x y => next x = some y) target)) (hn : waiters.length < n) :
    walk next target n x ↔
      ReflTransGen (fun x y => next x = some y) x target := by
  refine ⟨reflTransGen_of_walk, fun hreach => ?_⟩
  by_contra hwalk
  rw [Bool.not_eq_true] at hwalk
  rcases walk_eq_false hwalk with hstop | ⟨visited, hlen, -, hsome, hchain⟩
  · exact hstop hreach
  -- a node visited twice would lie on a cycle, so there are no more of them than waiters
  have hpairs : visited.Pairwise (TransGen (Others (fun x y => next x = some y) target)) :=
    (hchain.imp fun _ _ => TransGen.single).pairwise
  have hnodup : visited.Nodup := by
    refine hpairs.imp fun {a b} hab heq => ?_
    subst heq
    exact hacyc a hab
  have hsub : visited ⊆ waiters := fun y hy => hwaiters y (hsome y hy)
  have hle := (hnodup.subperm hsub).length_le
  omega

end Walk

end Pos3ql.Foundation
