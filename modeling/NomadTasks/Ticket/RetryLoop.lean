import Mathlib.Data.Fintype.Card
import NomadTasks.Ticket.Issued

/-!
# Drawing a ticket with a retry loop

A process draws its ticket with a compare-and-exchange loop: it loads the counter, checks whether
the ticket can be used, and exchanges the counter against its successor. It goes round again when
the check shows a stale value, when the counter has moved on, and when the exchange fails for no
reason.

* `RetryLoop.Step`: one step of the process, with the counter before and after it.
* `RetryLoop.bound`: how many steps it can have taken, by the tickets drawn and the exchanges failed
  for no reason since it began.
* `Issued.exists_holders`: the tickets of an interval are held by as many processes.
-/

namespace Ticket

universe u

/-- The processes that hold the tickets from `a` up to `b`. -/
theorem Issued.exists_holders {ι : Type u} {ticket : ι → Option ℕ} {n a b : ℕ}
    (h : Issued ticket n) (hb : b ≤ n) :
    ∃ holders : Finset ι, holders.card = b - a ∧
      ∀ i ∈ holders, ∃ p, a ≤ p ∧ p < b ∧ ticket i = some p := by
  classical
  choose holder hholder using fun p : Fin (b - a) => h.held (a + p) (by omega)
  refine ⟨Finset.univ.image holder, ?_, fun i hi => ?_⟩
  · rw [Finset.card_image_of_injective, Finset.card_univ, Fintype.card_fin]
    intro p q hpq
    have hp := hholder p
    rw [hpq, hholder q, Option.some.injEq] at hp
    exact Fin.ext (Nat.add_left_cancel hp.symm)
  · obtain ⟨p, -, rfl⟩ := Finset.mem_image.mp hi
    exact ⟨a + p, by omega, by omega, hholder p⟩

/-- Where a process is in its loop, and the ticket it is after. -/
inductive RetryLoop
  | load
  | check (p : ℕ)
  | exchange (p : ℕ)
  /-- The ticket has been drawn, and `n` steps have been taken since. -/
  | drawn (p n : ℕ)
  | givenUp (p : ℕ)

namespace RetryLoop

/-- One step of the process, with the counter at `c` before it and at `c'` after it; `idle` says
that an exchange has failed although the counter had not moved. -/
inductive Step : ℕ → ℕ → (idle : Bool) → RetryLoop → RetryLoop → Prop
  | load {c : ℕ} : Step c c false .load (.check c)
  | ready {c p : ℕ} : Step c c false (.check p) (.exchange p)
  | giveUp {c p : ℕ} : Step c c false (.check p) (.givenUp p)
  | stale {c p : ℕ} (h : p < c) : Step c c false (.check p) .load
  | draw {c : ℕ} : Step c (c + 1) false (.exchange c) (.drawn c 0)
  | overtaken {c p : ℕ} (h : p < c) : Step c c false (.exchange p) (.check c)
  | idle {c : ℕ} : Step c c true (.exchange c) (.check c)
  | finish {c p n : ℕ} : Step c c false (.drawn p n) (.drawn p (n + 1))

/-- The loop has come by its ticket between the counter's value `c₀` and its value `c`. -/
def Within (c₀ c : ℕ) : RetryLoop → Prop
  | .load => c₀ ≤ c
  | .check p | .exchange p | .givenUp p => c₀ ≤ p ∧ p ≤ c
  | .drawn p _ => c₀ ≤ p ∧ p < c

/-- The most steps taken so far by a process that began with the counter at `c₀`, when the counter
is at `c` and `m` of its exchanges have failed for no reason. -/
def bound (c₀ c m : ℕ) : RetryLoop → ℕ
  | .load => 2 * (c - c₀ + m)
  | .check p => 2 * (p - c₀ + m) + 1
  | .exchange p | .givenUp p => 2 * (p - c₀ + m) + 2
  | .drawn p n => 2 * (p - c₀ + m) + 3 + n

/-- The last value of the counter that the process has taken into account. -/
def limit (c : ℕ) : RetryLoop → ℕ
  | .load => c
  | .check p | .exchange p | .givenUp p | .drawn p _ => p

variable {c₀ c c' m : ℕ} {idle : Bool} {l l' : RetryLoop}

/-- The counter moves on without the process. -/
theorem Within.mono (h : l.Within c₀ c) (hc : c ≤ c') : l.Within c₀ c' := by
  cases l <;> simp only [Within] at h ⊢ <;> omega

theorem bound_mono (hc : c ≤ c') : l.bound c₀ c m ≤ l.bound c₀ c' m := by
  cases l <;> simp only [bound] <;> omega

theorem Step.within (h : Step c c' idle l l') (hl : l.Within c₀ c) : l'.Within c₀ c' := by
  cases h <;> simp only [Within] at hl ⊢ <;> omega

/-- A step is paid for by the loop's progress, by a ticket that another process has drawn, or by an
exchange that failed for no reason. -/
theorem Step.bound_succ (h : Step c c' idle l l') (hl : l.Within c₀ c) :
    l.bound c₀ c m + 1 ≤ l'.bound c₀ c' (m + idle.toNat) := by
  cases h <;> simp only [Within] at hl <;> simp only [bound, Bool.toNat_true, Bool.toNat_false] <;>
    omega

theorem Within.limit_le (h : l.Within c₀ c) : l.limit c ≤ c := by
  cases l <;> simp only [Within] at h <;> simp only [limit] <;> omega

/-- The bound by the tickets drawn between the counter's value at the beginning and the limit. -/
theorem bound_le {n : ℕ} (hn : ∀ p n', l = .drawn p n' → n' ≤ n) :
    l.bound c₀ c m ≤ 2 * (l.limit c - c₀ + m) + 3 + n := by
  cases l with
  | drawn p n' =>
    have := hn p n' rfl
    simp only [bound, limit]
    omega
  | _ => simp only [bound, limit]; omega

end RetryLoop

end Ticket
