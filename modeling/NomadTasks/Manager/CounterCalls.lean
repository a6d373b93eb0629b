import NomadTasks.Manager.Orderly

/-!
# The calls that the fibers make on counters

A fiber that calls `Increment`, `Decrement` or `AddWaitingFiber` has the call to itself: no other
fiber takes its steps. This holds in every run.

* `FiberStep.counter_cases`: a step of a fiber begins a call, goes on with its own, or concerns no
  counter.
* `CallsInv`: every call has one fiber, and is the one that the fiber's program makes.
-/

namespace NomadTasks

open Transition

/-- The call is one that the program makes at this point. -/
def CounterUse.Makes : CounterUse → CounterCall → Prop
  | .scheduleJob .., .modify op _ => op = .increment 1
  | .waitForCounter .., .addWaiting .. => True
  | .modify _ op', .modify op _ => op = op'
  | .execute, .modify op _ => op = .decrement 1
  | _, _ => False

/-- `ScheduleJob` increments the counter of its job. -/
def FiberPc.OfItsCounter : FiberPc → Prop
  | .begin (.scheduleJob _ _ _ job) c | .call (.scheduleJob _ _ _ job) c _ => job.counter = some c
  | _ => True

section FiberStep

variable {opts : ManagerOptions} {s : ManagerState} {t f tls : ℕ} {act : Act} {pc pc' : FiberPc}

/-- A step of a fiber begins a call on a counter, goes on with its own, or does nothing to a
counter. -/
theorem FiberStep.counter_cases (h : FiberStep opts s f tls pc act pc') :
    (∃ use c x, pc = .begin use c ∧ pc' = .call use c x ∧ (s.counters c).calls x = .notStarted ∧
      act = .counter c (use.action x (s.tls tls).currentFiberIndex)) ∨
    (∃ use c x, pc = .call use c x ∧ pc' = .call use c x ∧
      ((s.counters c).calls x).inProgress = true ∧ act = .counter c (.step x)) ∨
    (∀ c a, act ≠ .counter c a) ∧ ∀ use c x, pc' ≠ .call use c x := by
  cases h with
  | «begin» hx => exact .inl ⟨_, _, _, rfl, rfl, hx, rfl⟩
  | call hx => exact .inr (.inl ⟨_, _, _, rfl, rfl, hx, rfl⟩)
  | _ => exact .inr (.inr ⟨by simp, by simp⟩)

theorem FiberStep.ofItsCounter (h : FiberStep opts s f tls pc act pc') (hpc : pc.OfItsCounter) :
    pc'.OfItsCounter := by
  cases h with
  | @«begin» use c x hx => cases use <;> exact hpc
  | @call use c x hx => cases use <;> exact hpc
  | opScheduleCounter | opSingle => rfl
  | queueFront hq hc => exact hc
  | executeNullDecrement hd hc | opFinishDecrement hc => trivial
  | _ => trivial

/-- The own code of a thread does nothing to a counter. -/
theorem ThreadStep.not_counter {pc pc' : ThreadPc} (h : ThreadStep s t pc act pc') (c : CtrId)
    (a : CounterAction ℕ) : act ≠ .counter c a := by
  cases h <;> simp

/-- Other acts keep the counters. -/
theorem ManagerState.apply_counters (hact : ∀ c a, act ≠ .counter c a) :
    (s.apply t f act).counters = s.counters := by
  cases act with
  | counter c a => exact absurd rfl (hact c a)
  | endWait caller | throwThrough caller => cases caller <;> rfl
  | _ => rfl

end FiberStep

/-- The call that begins. -/
theorem CounterUse.makes_begun (use : CounterUse) (x current : ℕ) :
    use.Makes (use.action x current).begun := by
  cases use <;> first | rfl | trivial

/-- A step of a call leaves it what it is. -/
theorem CounterUse.Makes.next {use : CounterUse} {call call' : CounterCall} {b : BaseCounter}
    {eff : Effect} (h : use.Makes call) (hn : call.next b = some (eff, call')) :
    use.Makes call' := by
  cases call with
  | notStarted => cases hn
  | addWaiting reg pc =>
    simp only [CounterCall.next, Option.map_eq_some_iff, Prod.mk.injEq] at hn
    obtain ⟨⟨eff', pc'⟩, -, -, rfl⟩ := hn
    cases use <;> exact h
  | modify op pc =>
    simp only [CounterCall.next, Option.map_eq_some_iff, Prod.mk.injEq] at hn
    obtain ⟨⟨eff', pc'⟩, -, -, rfl⟩ := hn
    cases use <;> exact h

theorem CounterUse.Makes.started {use : CounterUse} {call : CounterCall} (h : use.Makes call) :
    call ≠ .notStarted := by
  rintro rfl
  cases use <;> cases h

/-- What a step of fiber `f` does to the counters, with what it does to its program point. -/
inductive CounterMove (s s' : ManagerState) (f : ℕ) : FiberPc → FiberPc → Prop
  | begins {use : CounterUse} {c : CtrId} {x : ℕ} (hx : (s.counters c).calls x = .notStarted)
      (hs : ∃ current, s'.counters = Function.update s.counters c
        ((s.counters c).setCall x (use.action x current).begun)) :
      CounterMove s s' f (.begin use c) (.call use c x)
  | continues {use : CounterUse} {c : CtrId} {x : ℕ} {eff : Effect} {call : CounterCall}
      (hn : ((s.counters c).calls x).next (s.counters c).ctr = some (eff, call))
      (hs : s'.counters = Function.update s.counters c ((s.counters c).perform x eff call)) :
      CounterMove s s' f (.call use c x) (.call use c x)
  | other {pc pc' : FiberPc} (hs : s'.counters = s.counters)
      (hpc : ∀ use c x, pc' ≠ .call use c x) : CounterMove s s' f pc pc'

/-- Every step of a fiber is such a move. -/
theorem FiberStep.counterMove {opts : ManagerOptions} {s : ManagerState} {t f tls : ℕ} {act : Act}
    {pc pc' : FiberPc} (h : FiberStep opts s f tls pc act pc') (fiber : FiberState) :
    CounterMove s ((s.apply t f act).setFiber f fiber) f pc pc' := by
  rcases h.counter_cases with ⟨use, c, x, rfl, rfl, hx, rfl⟩ | ⟨use, c, x, rfl, rfl, hx, rfl⟩ |
    ⟨hact, hpc⟩
  · have hstep : counterStep (s.counters c) (use.action x (s.tls tls).currentFiberIndex) =
        some ((s.counters c).setCall x (use.action x (s.tls tls).currentFiberIndex).begun) := by
      cases use <;> simp [CounterUse.action, counterStep, hx]
    refine .begins hx ⟨(s.tls tls).currentFiberIndex, ?_⟩
    show (s.apply t f _).counters = _
    simp [ManagerState.apply, hstep]
  · obtain ⟨eff, call, hn⟩ := CounterCall.exists_next (b := (s.counters c).ctr) hx
    refine .continues hn ?_
    show (s.apply t f _).counters = _
    simp [ManagerState.apply, counterStep, hn]
  · exact .other (ManagerState.apply_counters hact) hpc

/-! ## The values of the counters -/

/-- The value of counter `c`. -/
def ManagerState.value (s : ManagerState) (c : CtrId) : CounterUnit := (s.counters c).ctr.counter

/-- The call has changed the value of its counter. -/
def CounterCall.modified : CounterCall → Bool
  | .modify _ .fetch => false
  | .modify .. => true
  | _ => false

/-- A modifier that has ended has changed the value. -/
theorem CounterCall.modified_of_ended {op : Modifier} {pc : ModifyPc}
    (h : (CounterCall.modify op pc).inProgress = false) :
    (CounterCall.modify op pc).modified = true := by
  cases pc <;> first | rfl | cases h

/-- `Increment` and `Decrement` have changed the value when they return. -/
theorem CounterUse.Makes.modified_of_ended {use : CounterUse} {call : CounterCall}
    (hmakes : use.Makes call) (hended : call.inProgress = false)
    (hwait : ∀ ctx caller v p, use ≠ .waitForCounter ctx caller v p) : call.modified = true := by
  cases call with
  | modify op pc => exact CounterCall.modified_of_ended hended
  | notStarted => exact absurd rfl hmakes.started
  | addWaiting reg pc =>
    cases use with
    | waitForCounter => exact absurd rfl (hwait _ _ _ _)
    | _ => cases hmakes

/-- Only the `fetch_add` or `fetch_sub` of a modifier changes the value. -/
theorem CounterCall.value_of_next {b : BaseCounter} {call call' : CounterCall} {eff : Effect}
    (hn : call.next b = some (eff, call')) :
    (∃ op, call = .modify op .fetch ∧ (b.apply eff).counter = op.value b.counter ∧
      call'.modified = true) ∨
    (b.apply eff).counter = b.counter ∧ call'.modified = call.modified := by
  by_cases hfetch : ∃ value, eff = .fetch value
  · obtain ⟨value, rfl⟩ := hfetch
    obtain ⟨op, rfl, rfl, rfl⟩ := CounterCall.next_fetch hn
    exact .inl ⟨op, rfl, rfl, rfl⟩
  · refine .inr ⟨b.apply_counter fun value hv => hfetch ⟨value, hv⟩, ?_⟩
    rcases call with _ | ⟨reg, pc⟩ | ⟨op, _ | ⟨prev, value, pc⟩ | prev⟩
    · cases hn
    · simp only [CounterCall.next, Option.map_eq_some_iff, Prod.mk.injEq] at hn
      obtain ⟨⟨eff', pc'⟩, -, -, rfl⟩ := hn
      rfl
    · cases hn
      exact absurd ⟨_, rfl⟩ hfetch
    · simp only [CounterCall.next, Option.map_eq_some_iff, ModifyPc.next, Prod.mk.injEq] at hn
      obtain ⟨⟨eff', pc'⟩, hpc, -, rfl⟩ := hn
      split at hpc <;> cases hpc <;> rfl
    · cases hn

/-- A step of a fiber changes the value of counter `c` if it is the `fetch_add` or `fetch_sub` of
its own call, and not otherwise. -/
theorem CounterMove.value_cases {s s' : ManagerState} {f : ℕ} {pc pc' : FiberPc}
    (hm : CounterMove s s' f pc pc') (c : CtrId) :
    (∃ use x op, pc = .call use c x ∧ pc' = .call use c x ∧
      (s.counters c).calls x = .modify op .fetch ∧
      s'.value c = op.value (s.value c) ∧ ((s'.counters c).calls x).modified = true) ∨
    s'.value c = s.value c ∧
      ∀ use x, pc' = .call use c x →
        pc = .begin use c ∧ ((s'.counters c).calls x).modified = false ∨
        pc = .call use c x ∧
          ((s'.counters c).calls x).modified = ((s.counters c).calls x).modified := by
  -- a call begins, takes one step, or nothing happens to the counters
  cases hm with
  | @begins use d x hx hs =>
    obtain ⟨current, hs⟩ := hs
    have hbegun : (use.action x current).begun.modified = false := by cases use <;> rfl
    refine .inr ⟨?_, ?_⟩
    · by_cases hcd : c = d
      · subst hcd
        simp [ManagerState.value, hs]
      · simp [ManagerState.value, hs, hcd]
    · rintro use' x' ⟨⟩
      exact .inl ⟨rfl, by simpa [hs] using hbegun⟩
  | @continues use d x eff call hn hs =>
    by_cases hcd : c = d
    · subst hcd
      rcases CounterCall.value_of_next hn with ⟨op, hcall, hvalue, hmod⟩ | ⟨hvalue, hmod⟩
      · exact .inl ⟨use, x, op, rfl, rfl, hcall,
          by simpa [ManagerState.value, hs] using hvalue, by simpa [hs] using hmod⟩
      · refine .inr ⟨by simpa [ManagerState.value, hs] using hvalue, ?_⟩
        rintro use' x' ⟨⟩
        exact .inr ⟨rfl, by simpa [hs] using hmod⟩
    · refine .inr ⟨by simp [ManagerState.value, hs, hcd], ?_⟩
      rintro use' x' ⟨⟩
      exact absurd rfl hcd
  | other hs hpc =>
    exact .inr ⟨by rw [ManagerState.value, hs]; rfl, fun use x h => absurd h (hpc use c x)⟩

/-! ## The invariant -/

/-- The fibers make the calls of their programs, each its own. -/
structure CallsInv (s : ManagerState) : Prop where
  makes : ∀ f use c x, (s.fibers f).pc = .call use c x → use.Makes ((s.counters c).calls x)
  own : ∀ f g use use' c x, (s.fibers f).pc = .call use c x → (s.fibers g).pc = .call use' c x →
    f = g
  itsCounter : ∀ f, (s.fibers f).pc.OfItsCounter

namespace CallsInv

variable {s s' : ManagerState} {f : ℕ} {pc : FiberPc}

/-- The step of a fiber keeps the calls of the others. -/
theorem calls_other (hi : CallsInv s) (hm : CounterMove s s' f (s.fibers f).pc pc) {g : ℕ}
    {use : CounterUse} {c : CtrId} {x : ℕ} (hgf : g ≠ f) (hg : (s.fibers g).pc = .call use c x) :
    (s'.counters c).calls x = (s.counters c).calls x := by
  generalize hpc : (s.fibers f).pc = pcf at hm
  have hstarted := (hi.makes g use c x hg).started
  cases hm with
  | @begins use' c' x' hx hs =>
    obtain ⟨current, hs⟩ := hs
    by_cases hc : c = c'
    · subst hc
      have hne : x ≠ x' := fun hxx => hstarted (hxx ▸ hx)
      simp [hs, hne]
    · simp [hs, hc]
  | @continues use' c' x' eff call hn hs =>
    by_cases hc : c = c'
    · subst hc
      have hne : x ≠ x' := fun hxx => hgf (hi.own g f use use' c x hg (hxx ▸ hpc))
      simp [hs, hne]
    · simp [hs, hc]
  | other hs => rw [hs]

/-- The call that the fiber has made is the one of its program. -/
theorem makes_self (hi : CallsInv s) (hm : CounterMove s s' f (s.fibers f).pc pc)
    {use : CounterUse} {c : CtrId} {x : ℕ} (hpc : pc = .call use c x) :
    use.Makes ((s'.counters c).calls x) := by
  subst hpc
  generalize hpc : (s.fibers f).pc = pcf at hm
  cases hm with
  | begins hx hs =>
    obtain ⟨current, hs⟩ := hs
    simpa [hs] using use.makes_begun x current
  | continues hn hs => simpa [hs] using (hi.makes f use c x hpc).next hn
  | other hs hother => exact absurd rfl (hother use c x)

/-- No other fiber has made the call that the fiber is in. -/
theorem ne_of_move (hi : CallsInv s) (hm : CounterMove s s' f (s.fibers f).pc pc)
    {use use' : CounterUse} {c : CtrId} {x : ℕ} (hpc : pc = .call use c x) {g : ℕ} (hgf : g ≠ f) :
    (s.fibers g).pc ≠ .call use' c x := by
  subst hpc
  intro hg
  generalize hpc : (s.fibers f).pc = pcf at hm
  cases hm with
  | begins hx hs => exact (hi.makes g use' c x hg).started hx
  | continues hn hs => exact hgf (hi.own g f use' use c x hg hpc)
  | other hs hother => exact hother use c x rfl

/-- Every step keeps the calls with their fibers. -/
theorem step {opts : ManagerOptions} {a : ManagerAction} (hi : CallsInv s)
    (hs : managerStep opts s a = some s') : CallsInv s' := by
  rcases managerStep_inv hs with ⟨f, pcf, act, pc, hrun, rfl, h, rfl⟩ |
    ⟨pcf, act, pc, hrun, rfl, h, rfl⟩
  · have hm := h.counterMove (t := a.thread) ⟨(s.fibers f).currentTLS a.thread, pc⟩
    have hself : ∀ fiber, (((s.apply a.thread f act).setFiber f fiber).fibers f) = fiber :=
      fun fiber => Function.update_self ..
    have hother : ∀ fiber g, g ≠ f →
        ((s.apply a.thread f act).setFiber f fiber).fibers g = s.fibers g := by
      intro fiber g hg
      rw [ManagerState.setFiber_fibers, Function.update_of_ne hg, ManagerState.apply_fibers]
    refine ⟨fun g use c x hg => ?_, fun g g' use use' c x hg hg' => ?_, fun g => ?_⟩
    · by_cases hgf : g = f
      · subst hgf
        exact hi.makes_self hm (by simpa [hself] using hg)
      · rw [hother _ g hgf] at hg
        rw [hi.calls_other hm hgf hg]
        exact hi.makes g use c x hg
    -- a new call is at an index that no other fiber uses
    · by_cases hgf : g = f <;> by_cases hgf' : g' = f
      · rw [hgf, hgf']
      · subst hgf
        rw [hother _ g' hgf'] at hg'
        exact absurd hg' (hi.ne_of_move hm (by simpa [hself] using hg) hgf')
      · subst hgf'
        rw [hother _ g hgf] at hg
        exact absurd hg (hi.ne_of_move hm (by simpa [hself] using hg') hgf)
      · rw [hother _ g hgf] at hg
        rw [hother _ g' hgf'] at hg'
        exact hi.own g g' use use' c x hg hg'
    · by_cases hgf : g = f
      · subst hgf
        rw [hself]
        exact h.ofItsCounter (hi.itsCounter g)
      · rw [hother _ g hgf]
        exact hi.itsCounter g
  -- the own code of a thread makes no call on a counter
  · have hcounters : (s.apply a.thread noFiber act).counters = s.counters :=
      ManagerState.apply_counters h.not_counter
    refine ⟨fun g use c x hg => ?_, fun g g' use use' c x hg hg' => ?_, fun g => ?_⟩
    · rw [ManagerState.setThread_fibers, ManagerState.apply_fibers] at hg
      rw [ManagerState.setThread_counters, hcounters]
      exact hi.makes g use c x hg
    · rw [ManagerState.setThread_fibers, ManagerState.apply_fibers] at hg hg'
      exact hi.own g g' use use' c x hg hg'
    · rw [ManagerState.setThread_fibers, ManagerState.apply_fibers]
      exact hi.itsCounter g

theorem start (opts : ManagerOptions) : CallsInv (.start opts) := by
  have hpc : ∀ f, ((ManagerState.start opts).fibers f).pc = .start := fun _ => rfl
  refine ⟨fun f use c x hf => ?_, fun f g use use' c x hf => ?_, fun f => ?_⟩
  · rw [hpc] at hf
    cases hf
  · rw [hpc] at hf
    cases hf
  · rw [hpc]
    trivial

end CallsInv

/-- In every run, the calls on the counters belong to one fiber each. -/
theorem callsInv_of_run {opts : ManagerOptions}
    {ok : History ManagerState ManagerAction → ManagerState → ManagerAction → Prop}
    {h : History ManagerState ManagerAction} {s : ManagerState}
    (hr : (managerSystem opts).Run ok h s) : CallsInv s := by
  refine hr.invariant (P := fun _ s => CallsInv s) (fun s hs => ?_)
    fun _ _ _ _ _ hi _ hs => hi.step hs
  obtain rfl : s = .start opts := hs
  exact .start opts

end NomadTasks
