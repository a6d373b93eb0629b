import Mathlib.Logic.Basic
import Mathlib.Tactic.Common

/-!
# Conserved resources

Owners pass resources to each other. A change of the holdings conserves the resources when each one
that was held is still held, or is gone for good, and nothing is held that was not held before.

* `Conserved`: such a change; `Conserved.move`, `Conserved.shift`, `Conserved.leave`: the changes
  that pass resources on.
-/

namespace Ownership

universe u v

variable {ι : Type u} {ρ : Type v}

/-- What was held is still held or gone, and what is held was held before. -/
structure Conserved (holds holds' : ι → Option ρ) (gone : ρ → Prop) : Prop where
  back : ∀ x r, holds' x = some r → ∃ y, holds y = some r
  forth : ∀ x r, holds x = some r → (∃ y, holds' y = some r) ∨ gone r

namespace Conserved

variable {holds holds' : ι → Option ρ} {gone : ρ → Prop} {x y z : ι}

/-- Nothing changes hands. -/
theorem of_eq (h : ∀ w, holds' w = holds w) : Conserved holds holds' gone where
  back w _ hw := ⟨w, (h w).symm.trans hw⟩
  forth w _ hw := .inl ⟨w, (h w).trans hw⟩

/-- What `x` held goes to `y`, and what `y` held goes to `z`, which held nothing, or is gone. -/
theorem shift (hx : holds' x = none) (hy : holds' y = holds x) (hz : holds z = none)
    (hyz : holds' z = holds y ∨ holds' z = none ∧ ∀ r, holds y = some r → gone r)
    (hother : ∀ w, w ≠ x → w ≠ y → w ≠ z → holds' w = holds w) :
    Conserved holds holds' gone where
  back w r hw := by
    by_cases hwx : w = x
    · rw [hwx, hx] at hw
      cases hw
    by_cases hwy : w = y
    · exact ⟨x, by rw [← hy, ← hwy, hw]⟩
    by_cases hwz : w = z
    · subst hwz
      rcases hyz with hyz | ⟨hnone, -⟩
      · exact ⟨y, by rw [← hyz, hw]⟩
      · rw [hnone] at hw
        cases hw
    · exact ⟨w, by rw [← hother w hwx hwy hwz, hw]⟩
  forth w r hw := by
    by_cases hwx : w = x
    · exact .inl ⟨y, by rw [hy, ← hwx, hw]⟩
    by_cases hwy : w = y
    · subst hwy
      rcases hyz with hyz | ⟨-, hgone⟩
      · exact .inl ⟨z, by rw [hyz, hw]⟩
      · exact .inr (hgone r hw)
    by_cases hwz : w = z
    · rw [hwz, hz] at hw
      cases hw
    · exact .inl ⟨w, by rw [hother w hwx hwy hwz, hw]⟩

/-- What `x` held goes to `y`, which held nothing. -/
theorem move (hx : holds' x = none) (hxy : holds' y = holds x) (hy : holds y = none)
    (hother : ∀ w, w ≠ x → w ≠ y → holds' w = holds w) : Conserved holds holds' gone where
  back w r hw := by
    by_cases hwx : w = x
    · rw [hwx, hx] at hw
      cases hw
    by_cases hwy : w = y
    · exact ⟨x, by rw [← hxy, ← hwy, hw]⟩
    · exact ⟨w, by rw [← hother w hwx hwy, hw]⟩
  forth w r hw := by
    by_cases hwx : w = x
    · exact .inl ⟨y, by rw [hxy, ← hwx, hw]⟩
    by_cases hwy : w = y
    · rw [hwy, hy] at hw
      cases hw
    · exact .inl ⟨w, by rw [hother w hwx hwy, hw]⟩

/-- What `x` held is gone. -/
theorem leave (hx : holds' x = none) (hgone : ∀ r, holds x = some r → gone r)
    (hother : ∀ w, w ≠ x → holds' w = holds w) : Conserved holds holds' gone where
  back w r hw := by
    by_cases hwx : w = x
    · rw [hwx, hx] at hw
      cases hw
    · exact ⟨w, by rw [← hother w hwx, hw]⟩
  forth w r hw := by
    by_cases hwx : w = x
    · exact .inr (hgone r (hwx ▸ hw))
    · exact .inl ⟨w, by rw [hother w hwx, hw]⟩

end Conserved

end Ownership
