import Mathlib.Algebra.BigOperators.Group.Finset.Basic
import Mathlib.Algebra.Order.BigOperators.Group.Finset

/-!
# Counted ownership

Where a resource may be held several times, its owners are counted: `tally n held` is how often the
owners below `n` hold it. A change of one owner's holding changes the tally by as much.
-/

namespace Ownership

/-- How often the owners below `n` hold the resource. -/
def tally (n : ℕ) (held : ℕ → ℕ) : ℕ := ∑ x ∈ Finset.range n, held x

section Tally

variable {n : ℕ} {held held' : ℕ → ℕ} {x y : ℕ}

/-- One owner changes what it holds. -/
theorem tally_change (hx : x < n) (h : ∀ z, z ≠ x → held' z = held z) :
    tally n held' + held x = tally n held + held' x := by
  have hmem : x ∈ Finset.range n := Finset.mem_range.mpr hx
  have hrest : ∑ z ∈ (Finset.range n).erase x, held' z = ∑ z ∈ (Finset.range n).erase x, held z :=
    Finset.sum_congr rfl fun z hz => h z (Finset.ne_of_mem_erase hz)
  rw [tally, tally, ← Finset.add_sum_erase _ held hmem, ← Finset.add_sum_erase _ held' hmem, hrest]
  omega

/-- One owner changes its state, which says what it holds. -/
theorem tally_update {α : Type*} (g : α → ℕ) (f : ℕ → α) (hx : x < n) (v : α) :
    tally n (fun z => g (Function.update f x v z)) + g (f x) =
      tally n (fun z => g (f z)) + g v := by
  have h := tally_change hx fun z hz => congrArg g (Function.update_of_ne hz v f)
  rwa [Function.update_self] at h

theorem le_tally (held : ℕ → ℕ) (hx : x < n) : held x ≤ tally n held :=
  Finset.single_le_sum (fun _ _ => Nat.zero_le _) (Finset.mem_range.mpr hx)

/-- Nobody holds what is held by nobody. -/
theorem tally_eq_zero : tally n held = 0 ↔ ∀ z < n, held z = 0 := by
  simp [tally, Finset.sum_eq_zero_iff]

/-- What is held at most once has one owner. -/
theorem eq_of_tally_le_one (h : tally n held ≤ 1) (hx : x < n) (hy : y < n) (hhx : 0 < held x)
    (hhy : 0 < held y) : x = y := by
  by_contra hne
  have hmem : x ∈ Finset.range n := Finset.mem_range.mpr hx
  have hmem' : y ∈ (Finset.range n).erase x :=
    Finset.mem_erase.mpr ⟨Ne.symm hne, Finset.mem_range.mpr hy⟩
  have hle : held y ≤ ∑ z ∈ (Finset.range n).erase x, held z :=
    Finset.single_le_sum (fun _ _ => Nat.zero_le _) hmem'
  rw [tally, ← Finset.add_sum_erase _ held hmem] at h
  omega

end Tally

end Ownership
