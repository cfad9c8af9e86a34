import Mathlib

/-!
# Exclusion of conflicting modes

Holders that hold resources in modes, some of which conflict. Nothing here knows what holders,
resources and modes are, or how a registry stores them.

* `Excludes`: holders that are apart never hold conflicting modes of one resource.
* `Excludes.mono`: releases, and moving holders together, keep that.
* `Excludes.grant`: so does a grant that conflicts with nothing held by anybody apart.
-/

namespace Pos3ql.Foundation

variable {η ρ μ : Type} {apart apart' : η → η → Prop} {conflicts : μ → μ → Prop}
  {holds holds' : η → ρ → μ → Prop}

/-- Holders that are apart never hold conflicting modes of one resource. -/
def Excludes (apart : η → η → Prop) (conflicts : μ → μ → Prop) (holds : η → ρ → μ → Prop) : Prop :=
  ∀ h h' r m m', apart h h' → holds h r m → holds h' r m' → ¬conflicts m m'

/-- Fewer holds exclude as well. -/
lemma Excludes.mono (hx : Excludes apart conflicts holds)
    (hapart : ∀ h h', apart' h h' → apart h h') (hholds : ∀ h r m, holds' h r m → holds h r m) :
    Excludes apart' conflicts holds' := by
  intro h h' r m m' hne hm hm'
  exact hx h h' r m m' (hapart h h' hne) (hholds h r m hm) (hholds h' r m' hm')

/-- **A grant that conflicts with nothing keeps exclusion.** -/
theorem Excludes.grant (hx : Excludes apart conflicts holds)
    (hsymm : ∀ m m', conflicts m m' → conflicts m' m) (happarts : ∀ h h', apart h h' → apart h' h)
    (holder : η) (resource : ρ) (asked : μ → Prop) (hself : ¬apart holder holder)
    (hholds : ∀ h r m, holds' h r m → holds h r m ∨ h = holder ∧ r = resource ∧ asked m)
    (hfree : ∀ h m m', apart holder h → holds h resource m' → asked m → ¬conflicts m m') :
    Excludes apart conflicts holds' := by
  intro h h' r m m' hne hm hm'
  rcases hholds h r m hm with hold | ⟨rfl, rfl, hask⟩
  · rcases hholds h' r m' hm' with hold' | ⟨rfl, rfl, hask'⟩
    · exact hx h h' r m m' hne hold hold'
    · intro hconflict
      exact hfree h m' m (happarts h h' hne) hold hask' (hsymm m m' hconflict)
  · rcases hholds h' r m' hm' with hold' | ⟨rfl, -, -⟩
    · exact hfree h' m m' hne hold' hask
    · exact absurd hne hself

end Pos3ql.Foundation
