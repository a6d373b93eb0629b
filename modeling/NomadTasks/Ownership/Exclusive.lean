import Mathlib.Logic.Function.Basic
import Mathlib.Tactic.Common

/-!
# Exclusive ownership

A family of owners, each of which may hold one resource. Ownership is exclusive when no resource
has two owners. Every change of one owner's holding keeps it so, as long as what the owner then
holds is held by no other.
-/

namespace Ownership

universe u v

variable {ι : Type u} {ρ : Type v}

/-- No two owners hold the same resource. -/
def Exclusive (holds : ι → Option ρ) : Prop :=
  ∀ x y r, holds x = some r → holds y = some r → x = y

namespace Exclusive

variable {holds : ι → Option ρ}

/-- Nobody holds anything. -/
theorem none : Exclusive fun _ : ι => (Option.none : Option ρ) := fun _ _ _ h => nomatch h

/-- What one owner holds, another does not. -/
theorem ne_of_ne (h : Exclusive holds) {x y : ι} {r : ρ} (hx : holds x = some r) (hne : y ≠ x) :
    holds y ≠ some r := fun hy => hne (h y x r hy hx)

/-- Owners that hold at most what they held before. -/
theorem sub (h : Exclusive holds) {holds' : ι → Option ρ}
    (hsub : ∀ z r, holds' z = some r → holds z = some r) : Exclusive holds' :=
  fun x y r hx hy => h x y r (hsub x r hx) (hsub y r hy)

/-- A resource changes its owner from `x` to `y`. -/
theorem move (h : Exclusive holds) {holds' : ι → Option ρ} {x y : ι}
    (hx : holds' x = Option.none) (hy : ∀ r, holds' y = some r → holds x = some r)
    (hother : ∀ w r, w ≠ y → holds' w = some r → holds w = some r) : Exclusive holds' := by
  -- nobody but `y` holds now what `x` held
  have hne : ∀ w r, w ≠ y → holds' y = some r → holds' w ≠ some r := by
    intro w r hw hyr hwr
    obtain rfl : x = w := h x w r (hy r hyr) (hother w r hw hwr)
    rw [hx] at hwr
    cases hwr
  intro w w' r hw hw'
  by_cases hwy : w = y
  · by_cases hwy' : w' = y
    · rw [hwy, hwy']
    · exact absurd hw' (hne w' r hwy' (hwy ▸ hw))
  · by_cases hwy' : w' = y
    · exact absurd hw (hne w r hwy (hwy' ▸ hw'))
    · exact h w w' r (hother w r hwy hw) (hother w' r hwy' hw')

variable [DecidableEq ι]

/-- Two resources change their owners at once, from `y` to `z` and from `x` to `y`. -/
theorem shift (h : Exclusive holds) {holds' : ι → Option ρ} {x y z : ι} (hxy : x ≠ y)
    (hyz : y ≠ z) (hxz : x ≠ z) (hx : holds' x = Option.none)
    (hy : ∀ r, holds' y = some r → holds x = some r)
    (hz : ∀ r, holds' z = some r → holds y = some r)
    (hother : ∀ w r, w ≠ y → w ≠ z → holds' w = some r → holds w = some r) :
    Exclusive holds' := by
  have hmid : Exclusive (Function.update (Function.update holds y Option.none) z (holds' z)) := by
    refine h.move (x := y) (y := z) (by simp [hyz]) (fun r hr => hz r (by simpa using hr)) ?_
    intro w r hwz hw
    rw [Function.update_of_ne hwz] at hw
    by_cases hwy : w = y
    · subst hwy
      simp at hw
    · rwa [Function.update_of_ne hwy] at hw
  refine hmid.move (x := x) (y := y) hx (fun r hr => ?_) fun w r hwy hw => ?_
  · rw [Function.update_of_ne hxz, Function.update_of_ne hxy]
    exact hy r hr
  · by_cases hwz : w = z
    · subst hwz
      rwa [Function.update_self]
    · rw [Function.update_of_ne hwz, Function.update_of_ne hwy]
      exact hother w r hwy hwz hw

/-- The holding of one owner is replaced by one that no other has. -/
theorem update (h : Exclusive holds) {x : ι} {v : Option ρ}
    (hv : ∀ r, v = some r → ∀ y, y ≠ x → holds y ≠ some r) :
    Exclusive (Function.update holds x v) := by
  intro y z r hy hz
  by_cases hyx : y = x <;> by_cases hzx : z = x
  · rw [hyx, hzx]
  · subst hyx
    rw [Function.update_self] at hy
    rw [Function.update_of_ne hzx] at hz
    exact absurd hz (hv r hy z hzx)
  · subst hzx
    rw [Function.update_self] at hz
    rw [Function.update_of_ne hyx] at hy
    exact absurd hy (hv r hz y hyx)
  · rw [Function.update_of_ne hyx] at hy
    rw [Function.update_of_ne hzx] at hz
    exact h y z r hy hz

/-- An owner takes a resource that nobody holds. -/
theorem acquire (h : Exclusive holds) {x : ι} {r : ρ} (hr : ∀ y, holds y ≠ some r) :
    Exclusive (Function.update holds x (some r)) := by
  refine h.update fun r' hr' y _ => ?_
  cases hr'
  exact hr y

/-- An owner gives up what it holds. -/
theorem drop (h : Exclusive holds) (x : ι) : Exclusive (Function.update holds x Option.none) :=
  h.update fun _ hr => nomatch hr

/-- An owner keeps what it holds. -/
theorem keep (h : Exclusive holds) {x : ι} {v : Option ρ} (hv : v = holds x) :
    Exclusive (Function.update holds x v) := by
  subst hv
  rwa [Function.update_eq_self]

end Exclusive

end Ownership
