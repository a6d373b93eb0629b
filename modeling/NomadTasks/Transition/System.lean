import Mathlib.Tactic.Common

/-!
# Labelled transition systems and their runs

A system of interleaved processes is a set of initial states and a partial step function: the
label says which process moves and resolves what its step leaves open, and `none` means that the
label is not enabled. A run carries its history, newest step first, so that a condition on a step
and a property of a state can both speak about the past.

* `System.Run ok h s`: `h` is the history of a run that ends in `s` and each of whose steps meets
  the condition `ok`.
* `History.Once P h`: the run has passed through a state with the property `P`.
* `System.Reachable s`: some run, under no condition, ends in `s`.
* `System.Run.invariant`: what holds initially and is preserved by every step holds at the end of
  every run.
* `System.exists_run_of_trace`: a list of labels that evaluates is a run, so that a concrete run
  is checked by computation; `System.evaluated` keeps the terms small that a step stores.
* `System.Run.map`: a step-by-step simulation maps runs to runs.
* `System.Run.simulate`: a simulation by a relation follows a run by a run.
* `System.Inevitable A C P s`: under labels of `A` and while `C` holds, every run from `s` comes to
  a state with `P`.
-/

namespace Transition

universe u v

/-- A labelled transition system with states `σ` and labels `α`. -/
structure System (σ : Type u) (α : Type v) where
  /-- The states a run can start in. -/
  init : σ → Prop
  /-- The state after a step, or `none` when the label is not enabled. -/
  step : σ → α → Option σ

/-- The steps of a run, newest first: the state each step was taken in, and its label. -/
abbrev History (σ : Type u) (α : Type v) := List (σ × α)

/-- Some earlier state of the run had the property. -/
def History.Once {σ : Type u} {α : Type v} (P : σ → Prop) (h : History σ α) : Prop :=
  ∃ e ∈ h, P e.1

namespace History

variable {σ : Type u} {α : Type v} {P Q : σ → Prop} {h : History σ α} {s : σ} {a : α}

instance [DecidablePred P] (h : History σ α) : Decidable (h.Once P) :=
  inferInstanceAs (Decidable (∃ e ∈ h, P e.1))

theorem not_once_nil : ¬ Once P ([] : History σ α) := by rintro ⟨_, he, _⟩; cases he

/-- What held once holds once of every continuation. -/
theorem Once.cons (hP : h.Once P) (s : σ) (a : α) : Once P ((s, a) :: h) := by
  obtain ⟨e, he, hPe⟩ := hP
  exact ⟨e, List.mem_cons_of_mem _ he, hPe⟩

/-- What holds now has held once after the next step. -/
theorem Once.now (hP : P s) (a : α) (h : History σ α) : Once P ((s, a) :: h) :=
  ⟨(s, a), List.mem_cons_self, hP⟩

theorem once_cons : Once P ((s, a) :: h) ↔ P s ∨ h.Once P := by
  simp [Once]

theorem Once.mono (hP : h.Once P) (hPQ : ∀ s, P s → Q s) : h.Once Q := by
  obtain ⟨e, he, hPe⟩ := hP
  exact ⟨e, he, hPQ _ hPe⟩

/-- The history seen through a function on states and a partial function on labels. -/
def image {τ β : Type*} (f : σ → τ) (g : σ → α → Option β) (h : History σ α) : History τ β :=
  h.filterMap fun e => (g e.1 e.2).map fun b => (f e.1, b)

section Image

variable {τ β : Type*} {f : σ → τ} {g : σ → α → Option β}

theorem image_cons_none (hg : g s a = none) : image f g ((s, a) :: h) = h.image f g := by
  simp [image, hg]

theorem image_cons_some {b : β} (hg : g s a = some b) :
    image f g ((s, a) :: h) = (f s, b) :: h.image f g := by
  simp [image, hg]

/-- What the image has passed through, the history has. -/
theorem Once.of_image {R : τ → Prop} (hR : (h.image f g).Once R) : h.Once fun s => R (f s) := by
  obtain ⟨e, he, hRe⟩ := hR
  obtain ⟨e', he', heq⟩ := List.mem_filterMap.mp he
  obtain ⟨b, -, rfl⟩ := Option.map_eq_some_iff.mp heq
  exact ⟨e', he', hRe⟩

end Image

end History

namespace System

variable {σ : Type u} {α : Type v} (L : System σ α)

/-- `L.Run ok h s`: a run with history `h` ends in `s`, and each of its steps meets `ok` in the
history and the state it was taken in. -/
inductive Run (ok : History σ α → σ → α → Prop) : History σ α → σ → Prop
  | init {s : σ} (hs : L.init s) : Run ok [] s
  | step {h : History σ α} {s s' : σ} {a : α} (hr : Run ok h s) (hok : ok h s a)
      (hs : L.step s a = some s') : Run ok ((s, a) :: h) s'

/-- A state that some run ends in. -/
def Reachable (s : σ) : Prop := ∃ h, L.Run (fun _ _ _ => True) h s

variable {L}

/-- The invariant rule: a predicate on histories and states that holds initially and is preserved
by every step that meets the condition holds at the end of every run. -/
theorem Run.invariant {ok : History σ α → σ → α → Prop} {P : History σ α → σ → Prop}
    (hinit : ∀ s, L.init s → P [] s)
    (hstep : ∀ h s a s', L.Run ok h s → P h s → ok h s a → L.step s a = some s' →
      P ((s, a) :: h) s')
    {h : History σ α} {s : σ} (hr : L.Run ok h s) : P h s := by
  induction hr with
  | init hs => exact hinit _ hs
  | step hr hok hs ih => exact hstep _ _ _ _ hr ih hok hs

/-- Every state in the history of a run is itself the end of a run under the same condition. -/
theorem Run.before {ok : History σ α → σ → α → Prop} {h : History σ α} {s : σ}
    (hr : L.Run ok h s) {e : σ × α} (he : e ∈ h) : ∃ h', L.Run ok h' e.1 := by
  induction hr with
  | init => cases he
  | step hr _ _ ih =>
    rcases List.mem_cons.mp he with rfl | he
    · exact ⟨_, hr⟩
    · exact ih he

/-- Every step in the history of a run was taken at the end of a run, under the condition. -/
theorem Run.met {ok : History σ α → σ → α → Prop} {h : History σ α} {s : σ}
    (hr : L.Run ok h s) {e : σ × α} (he : e ∈ h) : ∃ h', L.Run ok h' e.1 ∧ ok h' e.1 e.2 := by
  induction hr with
  | init => cases he
  | step hr hok _ ih =>
    rcases List.mem_cons.mp he with rfl | he
    · exact ⟨_, hr, hok⟩
    · exact ih he

/-- What relates the states before and after each step, and is a preorder, relates the state that a
step of the history has led to with all later states. -/
theorem Run.after {ok : History σ α → σ → α → Prop} {R : σ → σ → Prop} (hrefl : ∀ s, R s s)
    (htrans : ∀ s s' s'', R s s' → R s' s'' → R s s'')
    (hstep : ∀ h s a s', L.Run ok h s → L.step s a = some s' → R s s')
    {after before : History σ α} {e : σ × α} {s : σ} (hr : L.Run ok (after ++ e :: before) s) :
    ∃ s₁, L.step e.1 e.2 = some s₁ ∧ R s₁ s ∧ ∀ d ∈ after, R s₁ d.1 := by
  induction after generalizing s with
  | nil =>
    cases hr with
    | step _ _ hs => exact ⟨s, hs, hrefl s, nofun⟩
  | cons d after ih =>
    cases hr with
    | step hr' _ hs =>
      obtain ⟨s₁, hs₁, hR, hafter⟩ := ih hr'
      exact ⟨s₁, hs₁, htrans _ _ _ hR (hstep _ _ _ _ hr' hs), List.forall_mem_cons.mpr ⟨hR, hafter⟩⟩

/-- A run under a condition is a run under every weaker one. -/
theorem Run.mono {ok ok' : History σ α → σ → α → Prop} (hw : ∀ h s a, ok h s a → ok' h s a)
    {h : History σ α} {s : σ} (hr : L.Run ok h s) : L.Run ok' h s := by
  induction hr with
  | init hs => exact .init hs
  | step _ hok hs ih => exact .step ih (hw _ _ _ hok) hs

theorem Run.reachable {ok : History σ α → σ → α → Prop} {h : History σ α} {s : σ}
    (hr : L.Run ok h s) : L.Reachable s :=
  ⟨h, hr.mono fun _ _ _ _ => trivial⟩

/-- The invariant rule for predicates on states alone. -/
theorem Reachable.invariant {P : σ → Prop} (hinit : ∀ s, L.init s → P s)
    (hstep : ∀ s a s', P s → L.step s a = some s' → P s') {s : σ} (hr : L.Reachable s) : P s := by
  obtain ⟨h, hrun⟩ := hr
  exact hrun.invariant (P := fun _ s => P s) hinit fun _ s a s' _ hP _ hs => hstep s a s' hP hs

theorem Reachable.of_init {s : σ} (hs : L.init s) : L.Reachable s := ⟨[], .init hs⟩

theorem Reachable.step {s s' : σ} {a : α} (hr : L.Reachable s) (hs : L.step s a = some s') :
    L.Reachable s' := by
  obtain ⟨h, hrun⟩ := hr
  exact ⟨_, .step hrun trivial hs⟩

/-! ## Concrete runs -/

variable (L)

/-- The history and the final state of the run that takes the labels `as` from `s₀`, after the
history `h`. -/
def trace (h : History σ α) (s₀ : σ) : List α → Option (History σ α × σ)
  | [] => some (h, s₀)
  | a :: as => (L.step s₀ a).bind fun s => trace ((s₀, a) :: h) s as

variable {L}

/-- Every step of a history meets the condition. -/
def StepsMeet (ok : History σ α → σ → α → Prop) : History σ α → Prop
  | [] => True
  | (s, a) :: h => ok h s a ∧ StepsMeet ok h

instance StepsMeet.decidable (ok : History σ α → σ → α → Prop) [∀ h s a, Decidable (ok h s a)] :
    ∀ h, Decidable (StepsMeet ok h)
  | [] => .isTrue trivial
  | (s, a) :: h =>
    have := StepsMeet.decidable ok h
    inferInstanceAs (Decidable (ok h s a ∧ StepsMeet ok h))

/-- A condition met by every step of the evaluated history is met by the run's earlier part. -/
private theorem stepsMeet_of_trace {ok : History σ α → σ → α → Prop} :
    ∀ {as : List α} {h h' : History σ α} {s₀ s : σ}, L.trace h s₀ as = some (h', s) →
      StepsMeet ok h' → StepsMeet ok h
  | [], h, h', s₀, s, ht, hm => by
    simp only [trace, Option.some.injEq, Prod.mk.injEq] at ht
    exact ht.1 ▸ hm
  | a :: as, h, h', s₀, s, ht, hm => by
    simp only [trace, Option.bind_eq_some_iff] at ht
    obtain ⟨s₁, _, ht⟩ := ht
    exact (stepsMeet_of_trace ht hm).2

/-- Labels that evaluate after a run extend it. -/
theorem Run.trace {ok : History σ α → σ → α → Prop} :
    ∀ {as : List α} {h h' : History σ α} {s₀ s : σ}, L.Run ok h s₀ →
      L.trace h s₀ as = some (h', s) → StepsMeet ok h' → L.Run ok h' s
  | [], h, h', s₀, s, hr, ht, _ => by
    simp only [System.trace, Option.some.injEq, Prod.mk.injEq] at ht
    obtain ⟨rfl, rfl⟩ := ht
    exact hr
  | a :: as, h, h', s₀, s, hr, ht, hm => by
    simp only [System.trace, Option.bind_eq_some_iff] at ht
    obtain ⟨s₁, hs, ht⟩ := ht
    exact Run.trace (.step hr (stepsMeet_of_trace ht hm).1 hs) ht hm

/-- A list of labels that evaluates from an initial state, to a history that meets the condition
and a state with the property, shows that some run under the condition has it. -/
theorem exists_run_of_trace {ok : History σ α → σ → α → Prop} {P : History σ α → σ → Prop}
    {s₀ : σ} (hinit : L.init s₀) (as : List α)
    (h : ∃ r ∈ L.trace [] s₀ as, StepsMeet ok r.1 ∧ P r.1 r.2) :
    ∃ h s, L.Run ok h s ∧ P h s := by
  obtain ⟨⟨h, s⟩, ht, hm, hP⟩ := h
  exact ⟨h, s, Run.trace (.init hinit) ht hm, hP⟩

/-- The same with another step function that is equal, and evaluates better. -/
theorem exists_run_of_trace_by {step : σ → α → Option σ} (hstep : step = L.step)
    {ok : History σ α → σ → α → Prop} {P : History σ α → σ → Prop} {s₀ : σ} (hinit : L.init s₀)
    (as : List α)
    (h : ∃ r ∈ System.trace ⟨L.init, step⟩ [] s₀ as, StepsMeet ok r.1 ∧ P r.1 r.2) :
    ∃ h s, L.Run ok h s ∧ P h s := by
  subst hstep
  exact exists_run_of_trace hinit as h

/-- `k n`, where `n` is evaluated before `k` uses it. -/
def evaluated {β : Type*} (n : ℕ) (k : ℕ → β) : β :=
  match n with
  | 0 => k 0
  | n + 1 => k (n + 1)

@[simp] theorem evaluated_eq {β : Type*} (n : ℕ) (k : ℕ → β) : evaluated n k = k n := by
  cases n <;> rfl

private theorem stepsMeet_true : ∀ h : History σ α, StepsMeet (fun _ _ _ => True) h
  | [] => trivial
  | _ :: h => ⟨trivial, stepsMeet_true h⟩

/-- A state that a list of labels leads to is reachable. -/
theorem Reachable.of_trace {s₀ : σ} (hinit : L.init s₀) {as : List α} {r : History σ α × σ}
    (ht : L.trace [] s₀ as = some r) : L.Reachable r.2 :=
  ⟨r.1, Run.trace (.init hinit) ht (stepsMeet_true r.1)⟩

/-! ## Inevitability -/

section Inevitable

variable (L)

/-- Some label of `A` is enabled as long as the run has not come to a state with `P`, and whichever
of them are taken, it comes to one, through states with `C` only. -/
inductive Inevitable (A : α → Prop) (C P : σ → Prop) : σ → Prop
  | now {s : σ} (hP : P s) : Inevitable A C P s
  | next {s : σ} (hC : C s) (henabled : ∃ a s', A a ∧ L.step s a = some s')
      (hnext : ∀ a s', A a → L.step s a = some s' → Inevitable A C P s') : Inevitable A C P s

variable {L} {A : α → Prop} {C P : σ → Prop} {s s' : σ}

/-- A step that does not depend on the label. -/
theorem Inevitable.of_step (hC : C s) (hA : ∃ a, A a) (hs : ∀ a, A a → L.step s a = some s')
    (h : L.Inevitable A C P s') : L.Inevitable A C P s := by
  obtain ⟨a, ha⟩ := hA
  refine .next hC ⟨a, s', ha, hs a ha⟩ fun b s'' hb hs'' => ?_
  obtain rfl : s' = s'' := Option.some.inj ((hs b hb).symm.trans hs'')
  exact h

/-- What is inevitable follows from what every label leads to, unless it holds already. -/
theorem Inevitable.step {a : α} (h : L.Inevitable A C P s) (hP : ¬ P s) (ha : A a)
    (hs : L.step s a = some s') : L.Inevitable A C P s' := by
  cases h with
  | now hnow => exact absurd hnow hP
  | next _ _ hnext => exact hnext a s' ha hs

/-- Outside of `C`, only what holds already is inevitable. -/
theorem Inevitable.of_not (h : L.Inevitable A C P s) (hC : ¬ C s) : P s := by
  cases h with
  | now hP => exact hP
  | next hC' => exact absurd hC' hC

end Inevitable

/-! ## Simulations -/

section Simulation

variable {τ : Type*} {β : Type*} {M : System τ β}

/-- A simulation by a function on states: if every step of `L` in a state that its runs reach is a
step of `M`, or leaves the image unchanged, then reachable states map to reachable states. -/
theorem Reachable.map (f : σ → τ) (hinit : ∀ s, L.init s → M.init (f s))
    (hstep : ∀ s a s', L.step s a = some s' →
      f s' = f s ∨ ∃ b, M.step (f s) b = some (f s')) {s : σ} (hr : L.Reachable s) :
    M.Reachable (f s) := by
  refine hr.invariant (P := fun s => M.Reachable (f s)) (fun s hs => .of_init (hinit s hs)) ?_
  intro s a s' hP hs
  rcases hstep s a s' hs with heq | ⟨b, hb⟩
  · exact heq ▸ hP
  · exact hP.step hb

/-- A simulation maps runs to runs: `g` says which label of `M` a step of `L` takes, if any. -/
theorem Run.map {ok : History σ α → σ → α → Prop} {ok' : History τ β → τ → β → Prop} (f : σ → τ)
    (g : σ → α → Option β) (hinit : ∀ s, L.init s → M.init (f s))
    (hstep : ∀ h s a s', ok h s a → L.step s a = some s' →
      (g s a = none ∧ f s' = f s) ∨
        ∃ b, g s a = some b ∧ M.step (f s) b = some (f s') ∧ ok' (h.image f g) (f s) b)
    {h : History σ α} {s : σ} (hr : L.Run ok h s) : M.Run ok' (h.image f g) (f s) := by
  induction hr with
  | init hs => exact .init (hinit _ hs)
  | step hr hok hs ih =>
    rcases hstep _ _ _ _ hok hs with ⟨hg, hf⟩ | ⟨b, hg, hb, hok'⟩
    · rwa [History.image_cons_none hg, hf]
    · rw [History.image_cons_some hg]
      exact .step ih hok' hb

/-- A simulation by a relation: if every step of `L` keeps the relation to the state of `M` at hand,
or is followed by a step of `M`, then a run of `M` follows every run of `L`. -/
theorem Run.simulate {ok : History σ α → σ → α → Prop} {ok' : History τ β → τ → β → Prop}
    (R : σ → τ → Prop) (hinit : ∀ s, L.init s → ∃ m, M.init m ∧ R s m)
    (hstep : ∀ h h' s m a s', M.Run ok' h' m → R s m → ok h s a → L.step s a = some s' →
      R s' m ∨ ∃ b m', ok' h' m b ∧ M.step m b = some m' ∧ R s' m')
    {h : History σ α} {s : σ} (hr : L.Run ok h s) : ∃ h' m, M.Run ok' h' m ∧ R s m := by
  induction hr with
  | init hs =>
    obtain ⟨m, hm, hR⟩ := hinit _ hs
    exact ⟨[], m, .init hm, hR⟩
  | step hr hok hs ih =>
    obtain ⟨h', m, hrun, hR⟩ := ih
    rcases hstep _ _ _ _ _ _ hrun hR hok hs with hR' | ⟨b, m', hok', hm, hR'⟩
    · exact ⟨h', m, hrun, hR'⟩
    · exact ⟨_, m', .step hrun hok' hm, hR'⟩

end Simulation

end System

end Transition
