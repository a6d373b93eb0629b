import Mathlib.Tactic.Common
import Mathlib.Logic.Function.Basic

/-!
# Tickets drawn from a counter

Processes `ι` draw tickets from a counter that starts at zero: each draw takes the counter's value
and advances it. `Issued ticket n` says that the tickets held are exactly the numbers below `n`,
each held by one process.
-/

namespace Ticket

universe u

variable {ι : Type u} {ticket : ι → Option ℕ} {n : ℕ}

/-- The numbers below `n`, and no others, are held, each by exactly one process. -/
structure Issued (ticket : ι → Option ℕ) (n : ℕ) : Prop where
  lt : ∀ i p, ticket i = some p → p < n
  unique : ∀ i j p, ticket i = some p → ticket j = some p → i = j
  held : ∀ p, p < n → ∃ i, ticket i = some p

/-- Before any draw, no ticket is held. -/
theorem Issued.none : Issued (fun _ : ι => Option.none) 0 where
  lt _ _ h := by cases h
  unique _ _ _ h := by cases h
  held _ h := absurd h (Nat.not_lt_zero _)

theorem Issued.existsUnique (h : Issued ticket n) {p : ℕ} (hp : p < n) :
    ∃! i, ticket i = some p := by
  obtain ⟨i, hi⟩ := h.held p hp
  exact ⟨i, hi, fun j hj => h.unique j i p hj hi⟩

/-- A process other than the holder of ticket `p` does not hold it. -/
theorem Issued.ne_of_ne (h : Issued ticket n) {i j : ι} {p : ℕ} (hi : ticket i = some p)
    (hj : j ≠ i) : ticket j ≠ some p :=
  fun hjp => hj (h.unique j i p hjp hi)

/-- A process without a ticket draws the next one. -/
theorem Issued.draw [DecidableEq ι] (h : Issued ticket n) {i : ι} (hi : ticket i = Option.none) :
    Issued (Function.update ticket i (some n)) (n + 1) := by
  have hcases : ∀ j p, Function.update ticket i (some n) j = some p →
      (j = i ∧ p = n) ∨ (ticket j = some p ∧ p < n) := by
    intro j p hj
    by_cases hji : j = i
    · subst hji
      rw [Function.update_self, Option.some.injEq] at hj
      exact .inl ⟨rfl, hj.symm⟩
    · rw [Function.update_of_ne hji] at hj
      exact .inr ⟨hj, h.lt j p hj⟩
  refine ⟨fun j p hj => ?_, fun a b p ha hb => ?_, fun p hp => ?_⟩
  · rcases hcases j p hj with ⟨_, rfl⟩ | ⟨_, hlt⟩ <;> omega
  · rcases hcases a p ha with ⟨rfl, rfl⟩ | ⟨ha', hlt⟩ <;>
      rcases hcases b _ hb with ⟨rfl, hp⟩ | ⟨hb', hlt'⟩
    · rfl
    · omega
    · omega
    · exact h.unique a b p ha' hb'
  · rcases Nat.lt_succ_iff_lt_or_eq.mp hp with hlt | rfl
    · obtain ⟨j, hj⟩ := h.held p hlt
      have hne : j ≠ i := by rintro rfl; simp [hi] at hj
      exact ⟨j, by rwa [Function.update_of_ne hne]⟩
    · exact ⟨i, Function.update_self ..⟩

end Ticket
