import Mathlib.Data.List.Nodup
import NomadTasks.Transition.System

/-!
# Linearization points

A concurrent object serves calls, indexed by `ι`, that take several steps each. A call takes effect
at one of its steps, its linearization point: `effect s a` is the call that the step `a` lets take
effect in `s` and the completed operation `e` that it performs, if there is one. A sequential
specification `accept x e` is the abstract state after `e`, or `none` where `e` cannot have been
performed.

* `History.effects`: the operations of a run in the order of their linearization points.
* `LinearizationPoints`: what has to be shown of each step. `done s i` is the operation that call
  `i` has performed, read off the state, and `Rep s x` relates the states with the abstract ones.
* `LinearizationPoints.legal`, `mem_effects_iff`, `nodup_calls`, `sublist_of_before`: the operations
  of a run are legal, are those of the calls that have taken effect, each once, and are in an order
  that agrees with real time.
-/

namespace Transition

variable {σ α ι E A : Type*}

/-- The operations that have taken effect in a run, each with its call, oldest first. -/
def History.effects (effect : σ → α → Option (ι × E)) (h : History σ α) : List (ι × E) :=
  h.reverse.filterMap fun e => effect e.1 e.2

section Effects

variable {effect : σ → α → Option (ι × E)} {h : History σ α} {s : σ} {a : α}

@[simp] theorem History.effects_nil : History.effects effect ([] : History σ α) = [] := rfl

theorem History.effects_cons :
    History.effects effect ((s, a) :: h) = h.effects effect ++ (effect s a).toList := by
  cases heff : effect s a <;> simp [History.effects, heff]

theorem History.effects_cons_none (heff : effect s a = none) :
    History.effects effect ((s, a) :: h) = h.effects effect := by
  rw [History.effects_cons, heff, Option.toList_none, List.append_nil]

theorem History.effects_cons_some {p : ι × E} (heff : effect s a = some p) :
    History.effects effect ((s, a) :: h) = h.effects effect ++ [p] := by
  rw [History.effects_cons, heff, Option.toList_some]

end Effects

/-- Every step of the runs under `ok` is the linearization point of one call, which performs an
operation that the specification accepts, or of none, and then the abstract state stays. -/
structure LinearizationPoints (L : System σ α) (ok : History σ α → σ → α → Prop)
    (effect : σ → α → Option (ι × E)) (done : σ → ι → Option E) (accept : A → E → Option A)
    (Rep : σ → A → Prop) (x₀ : A) : Prop where
  init : ∀ s, L.init s → Rep s x₀ ∧ ∀ i, done s i = none
  silent : ∀ {h s a s'}, L.Run ok h s → ok h s a → L.step s a = some s' → effect s a = none →
    (∀ x, Rep s x → Rep s' x) ∧ ∀ i, done s' i = done s i
  effective : ∀ {h s a s' i e}, L.Run ok h s → ok h s a → L.step s a = some s' →
    effect s a = some (i, e) →
    (∀ x, Rep s x → ∃ x', accept x e = some x' ∧ Rep s' x') ∧
      done s i = none ∧ done s' i = some e ∧ ∀ j, j ≠ i → done s' j = done s j

namespace LinearizationPoints

variable {L : System σ α} {ok : History σ α → σ → α → Prop} {effect : σ → α → Option (ι × E)}
  {done : σ → ι → Option E} {accept : A → E → Option A} {Rep : σ → A → Prop} {x₀ : A}
  {h : History σ α} {s : σ}

/-- The operations of a run, in the order of their linearization points, lead the specification to
an abstract state that the last state represents. -/
theorem legal (hp : LinearizationPoints L ok effect done accept Rep x₀) (hr : L.Run ok h s) :
    ∃ x, ((h.effects effect).map Prod.snd).foldlM accept x₀ = some x ∧ Rep s x := by
  induction hr with
  | init hs => exact ⟨x₀, rfl, (hp.init _ hs).1⟩
  | @step h s s' a hr hok hs ih =>
    obtain ⟨x, hx, hrep⟩ := ih
    cases heff : effect s a with
    | none =>
      rw [History.effects_cons_none heff]
      exact ⟨x, hx, (hp.silent hr hok hs heff).1 x hrep⟩
    | some p =>
      obtain ⟨x', hacc, hrep'⟩ := (hp.effective hr hok hs heff).1 x hrep
      refine ⟨x', ?_, hrep'⟩
      rw [History.effects_cons_some heff, List.map_append, List.foldlM_append, hx]
      simp [hacc]

/-- The operations of a run are those of the calls that have taken effect. -/
theorem mem_effects_iff (hp : LinearizationPoints L ok effect done accept Rep x₀)
    (hr : L.Run ok h s) {i : ι} {e : E} : (i, e) ∈ h.effects effect ↔ done s i = some e := by
  induction hr generalizing i e with
  | init hs => simp [(hp.init _ hs).2 i]
  | @step h s s' a hr hok hs ih =>
    cases heff : effect s a with
    | none => rw [History.effects_cons_none heff, ih, (hp.silent hr hok hs heff).2 i]
    | some p =>
      obtain ⟨-, hnone, hsome, hframe⟩ := hp.effective hr hok hs heff
      rw [History.effects_cons_some heff, List.mem_append, List.mem_singleton, ih]
      by_cases hi : i = p.1
      · subst hi
        simp [hnone, hsome, Prod.ext_iff, eq_comm]
      · simp [hframe i hi, Prod.ext_iff, hi]

/-- A call takes effect at most once. -/
theorem nodup_calls (hp : LinearizationPoints L ok effect done accept Rep x₀)
    (hr : L.Run ok h s) : ((h.effects effect).map Prod.fst).Nodup := by
  induction hr with
  | init => exact List.nodup_nil
  | @step h s s' a hr hok hs ih =>
    cases heff : effect s a with
    | none => rwa [History.effects_cons_none heff]
    | some p =>
      rw [History.effects_cons_some heff, List.map_append]
      refine ih.append (List.nodup_singleton _) fun j hj hjp => ?_
      obtain rfl : j = p.1 := by simpa using hjp
      obtain ⟨⟨i, e⟩, he, rfl⟩ := List.mem_map.mp hj
      have hnone := (hp.effective hr hok hs heff).2.1
      simp [(hp.mem_effects_iff hr).mp he] at hnone

/-- The operations up to an earlier state of the run come first. -/
theorem exists_prefix (effect : σ → α → Option (ι × E)) (hr : L.Run ok h s) {e₀ : σ × α}
    (he₀ : e₀ ∈ h) :
    ∃ h₀, L.Run ok h₀ e₀.1 ∧ h₀.effects effect <+: h.effects effect := by
  induction hr with
  | init => cases he₀
  | @step h s s' a hr hok hs ih =>
    have hnext : h.effects effect <+: History.effects effect ((s, a) :: h) := by
      rw [History.effects_cons]
      exact List.prefix_append ..
    rcases List.mem_cons.mp he₀ with rfl | he₀
    · exact ⟨h, hr, hnext⟩
    · obtain ⟨h₀, hr₀, hpre⟩ := ih he₀
      exact ⟨h₀, hr₀, hpre.trans hnext⟩

/-- What had taken effect in a state of the run comes before what took effect later. -/
theorem sublist_of_before (hp : LinearizationPoints L ok effect done accept Rep x₀)
    (hr : L.Run ok h s) {e₀ : σ × α} (he₀ : e₀ ∈ h) {i j : ι} {e e' : E}
    (hi : done e₀.1 i = some e) (hj : done e₀.1 j = none) (hj' : done s j = some e') :
    [(i, e), (j, e')].Sublist (h.effects effect) := by
  obtain ⟨h₀, hr₀, later, hlater⟩ := exists_prefix effect hr he₀
  have hbefore : (i, e) ∈ h₀.effects effect := (hp.mem_effects_iff hr₀).mpr hi
  have hafter : (j, e') ∈ later := by
    have hmem := (hp.mem_effects_iff hr).mpr hj'
    rw [← hlater, List.mem_append] at hmem
    refine hmem.resolve_left fun hold => ?_
    simp [(hp.mem_effects_iff hr₀).mp hold] at hj
  rw [← hlater]
  exact (List.singleton_sublist.mpr hbefore).append (List.singleton_sublist.mpr hafter)

end LinearizationPoints

end Transition
