import NomadTasks.Counter.Registration

/-!
# `WaitForCounter` on one counter

Any number of non-blocking `WaitForCounter` calls on one counter, with the `Increment` and
`Decrement` calls of other threads, in any sequentially consistent order. A wait compares the value
with its target, registers with `AddWaitingFiber`, and unless that returns `true` its fiber sleeps
until some thread resumes it by an entry of its ready list.

The `AddWaitingFiber` call of wait `x` is call `x` on the counter. Flags are allocated by `new` and
never reused, so that the entry of a ready list tells which wait it belongs to. Which thread has
the entry, and when it looks at its list, is left open.
-/

namespace NomadTasks

open Transition

variable {ι : Type}

/-- The program points of a `WaitForCounter` call. -/
inductive WaitCall
  | notStarted
  /-- `counter->GetValue() == targetValue`. -/
  | getValue (fiberIndex : ℕ) (targetValue : CounterUnit)
  /-- Inside `AddWaitingFiber`. -/
  | adding (reg : Registration)
  /-- `AddWaitingFiber` has returned `false`, and the fiber is switched away or about to be. -/
  | sleeping (reg : Registration)
  | returned (targetValue : CounterUnit)
  deriving DecidableEq

namespace WaitCall

/-- The value waited for. -/
def target : WaitCall → Option CounterUnit
  | .notStarted => none
  | .getValue _ targetValue | .returned targetValue => some targetValue
  | .adding reg | .sleeping reg => some reg.targetValue

/-- The call has begun and not yet returned. -/
def inProgress : WaitCall → Bool
  | .getValue _ _ | .adding _ | .sleeping _ => true
  | _ => false

/-- What the call has registered, or is about to register. -/
def registration : WaitCall → Option Registration
  | .adding reg | .sleeping reg => some reg
  | _ => none

end WaitCall

/-- A counter with the waits on it. -/
structure WaitState (ι : Type) where
  counter : CounterState ι
  waits : ι → WaitCall
  /-- The address of the next flag that `new` allocates. -/
  nextFlag : FlagPtr

/-- What can happen next. -/
inductive WaitAction (ι : Type)
  /-- `WaitForCounter(counter, targetValue)` is called on a fiber. -/
  | beginWait (x : ι) (fiberIndex : ℕ) (targetValue : CounterUnit)
  | getValue (x : ι)
  /-- An `Increment` or `Decrement` is called. -/
  | beginModify (x : ι) (op : Modifier)
  /-- A step inside `AddWaitingFiber`, `Increment` or `Decrement`. -/
  | step (x : ι)
  /-- `AddWaitingFiber` returns to `WaitForCounter`. -/
  | endAdd (x : ι)
  /-- A thread takes the entry of the wait from its ready list and switches to the fiber. -/
  | resume (x y : ι)

section System

variable [DecidableEq ι]

/-- Replace wait `x`. -/
def WaitState.setWait (s : WaitState ι) (x : ι) (w : WaitCall) : WaitState ι :=
  { s with waits := Function.update s.waits x w }

/-- One step of the interleaving. -/
def waitStep (s : WaitState ι) : WaitAction ι → Option (WaitState ι)
  | .beginWait x fiberIndex targetValue =>
      if s.waits x = .notStarted ∧ s.counter.calls x = .notStarted then
        some (s.setWait x (.getValue fiberIndex targetValue))
      else none
  | .getValue x =>
      match s.waits x with
      | .getValue fiberIndex targetValue =>
          if s.counter.ctr.counter = targetValue then some (s.setWait x (.returned targetValue))
          else
            let reg := { fiberIndex, targetValue, fiberStored := s.nextFlag }
            (counterStep s.counter (.beginAddWaiting x reg)).map fun counter =>
              { s.setWait x (.adding reg) with counter, nextFlag := s.nextFlag + 1 }
      | _ => none
  | .beginModify x op =>
      if s.waits x = .notStarted then
        (counterStep s.counter (.beginModify x op)).map fun counter => { s with counter }
      else none
  | .step x => (counterStep s.counter (.step x)).map fun counter => { s with counter }
  | .endAdd x =>
      match s.waits x, s.counter.calls x with
      | .adding reg, .addWaiting _ (.returned true) =>
          some (s.setWait x (.returned reg.targetValue))
      | .adding reg, .addWaiting _ (.returned false) => some (s.setWait x (.sleeping reg))
      | _, _ => none
  | .resume x y =>
      match s.waits x with
      | .sleeping reg =>
          if reg.entry ∈ s.counter.pushed y then some (s.setWait x (.returned reg.targetValue))
          else none
      | _ => none

/-- A counter with `n` slots from construction on, under any interleaving of waits and
modifiers. -/
def waitSystem (n : ℕ) (ι : Type) [DecidableEq ι] : System (WaitState ι) (WaitAction ι) where
  init s := s = { counter := .idle (.construct n), waits := fun _ => .notStarted, nextFlag := 1 }
  step := waitStep

/-- What a step of the interleaving is, case by case. -/
inductive WaitStep (s : WaitState ι) : WaitAction ι → WaitState ι → Prop
  | beginWait {x fiberIndex targetValue} (hw : s.waits x = .notStarted)
      (hc : s.counter.calls x = .notStarted) :
      WaitStep s (.beginWait x fiberIndex targetValue)
        (s.setWait x (.getValue fiberIndex targetValue))
  | already {x fiberIndex targetValue} (hw : s.waits x = .getValue fiberIndex targetValue)
      (hv : s.counter.ctr.counter = targetValue) :
      WaitStep s (.getValue x) (s.setWait x (.returned targetValue))
  | register {x fiberIndex targetValue reg} (hw : s.waits x = .getValue fiberIndex targetValue)
      (hv : s.counter.ctr.counter ≠ targetValue)
      (hreg : reg = { fiberIndex, targetValue, fiberStored := s.nextFlag })
      (hc : s.counter.calls x = .notStarted) :
      WaitStep s (.getValue x) { s.setWait x (.adding reg) with
        counter := s.counter.setCall x (.addWaiting reg (.casFree 0))
        nextFlag := s.nextFlag + 1 }
  | beginModify {x op} (hw : s.waits x = .notStarted) (hc : s.counter.calls x = .notStarted) :
      WaitStep s (.beginModify x op)
        { s with counter := s.counter.setCall x (.modify op .fetch) }
  | step {x eff c} (hn : (s.counter.calls x).next s.counter.ctr = some (eff, c)) :
      WaitStep s (.step x) { s with counter := s.counter.perform x eff c }
  | resolved {x reg reg'} (hw : s.waits x = .adding reg)
      (hc : s.counter.calls x = .addWaiting reg' (.returned true)) :
      WaitStep s (.endAdd x) (s.setWait x (.returned reg.targetValue))
  | sleep {x reg reg'} (hw : s.waits x = .adding reg)
      (hc : s.counter.calls x = .addWaiting reg' (.returned false)) :
      WaitStep s (.endAdd x) (s.setWait x (.sleeping reg))
  | resume {x y reg} (hw : s.waits x = .sleeping reg) (hp : reg.entry ∈ s.counter.pushed y) :
      WaitStep s (.resume x y) (s.setWait x (.returned reg.targetValue))

/-- The step function takes no other steps. -/
theorem WaitStep.of_waitStep {s s' : WaitState ι} {a : WaitAction ι}
    (h : waitStep s a = some s') : WaitStep s a s' := by
  cases a with
  | beginWait x fiberIndex targetValue =>
    simp only [waitStep, Option.ite_none_right_eq_some, Option.some.injEq] at h
    obtain ⟨⟨hw, hc⟩, rfl⟩ := h
    exact .beginWait hw hc
  | getValue x =>
    simp only [waitStep] at h
    split at h
    · next fiberIndex targetValue hw =>
      split at h
      · next hv =>
        cases h
        exact .already hw hv
      · next hv =>
        simp only [Option.map_eq_some_iff, counterStep, Option.ite_none_right_eq_some,
          Option.some.injEq] at h
        obtain ⟨counter, ⟨hc, rfl⟩, rfl⟩ := h
        exact .register hw hv rfl hc
    · cases h
  | beginModify x op =>
    simp only [waitStep, Option.ite_none_right_eq_some, Option.map_eq_some_iff, counterStep,
      Option.some.injEq] at h
    obtain ⟨hw, counter, ⟨hc, rfl⟩, rfl⟩ := h
    exact .beginModify hw hc
  | step x =>
    simp only [waitStep, counterStep, Option.map_eq_some_iff, Prod.exists] at h
    obtain ⟨counter, ⟨eff, c, hn, rfl⟩, rfl⟩ := h
    exact .step hn
  | endAdd x =>
    simp only [waitStep] at h
    split at h
    · next hw hc =>
      cases h
      exact .resolved hw hc
    · next hw hc =>
      cases h
      exact .sleep hw hc
    · cases h
  | resume x y =>
    simp only [waitStep] at h
    split at h
    · next hw =>
      simp only [Option.ite_none_right_eq_some, Option.some.injEq] at h
      obtain ⟨hp, rfl⟩ := h
      exact .resume hw hp
    · cases h

/-- The action on the counter that an action of the waits makes, if any. -/
def WaitAction.onCounter (s : WaitState ι) : WaitAction ι → Option (CounterAction ι)
  | .getValue x =>
      match s.waits x with
      | .getValue fiberIndex targetValue =>
          if s.counter.ctr.counter = targetValue then none
          else some (.beginAddWaiting x { fiberIndex, targetValue, fiberStored := s.nextFlag })
      | _ => none
  | .beginModify x op => some (.beginModify x op)
  | .step x => some (.step x)
  | _ => none

/-- A step either makes an action on the counter, or leaves the counter alone. -/
theorem waitStep_counter {s s' : WaitState ι} {a : WaitAction ι} (h : waitStep s a = some s') :
    (∃ c, a.onCounter s = some c ∧ counterStep s.counter c = some s'.counter) ∨
      s'.counter = s.counter := by
  cases WaitStep.of_waitStep h with
  | register hw hv hreg hc =>
    subst hreg
    refine .inl ⟨_, by simp only [WaitAction.onCounter, hw, if_neg hv]; rfl, ?_⟩
    simp [counterStep, hc, CounterAction.begun]
  | beginModify hw hc => exact .inl ⟨_, rfl, by simp [counterStep, hc, CounterAction.begun]⟩
  | step hn => exact .inl ⟨_, rfl, by simp [counterStep, hn]⟩
  | _ => exact .inr rfl

/-! ## The two ways in which a registration is claimed wrongly -/

/-- The modifier has changed the value, and knows which value it announces. -/
def CounterCall.fetched : CounterCall → Bool
  | .modify _ .fetch | .notStarted => false
  | _ => true

@[simp] theorem CounterCall.fetched_notStarted : CounterCall.notStarted.fetched = false := rfl

@[simp] theorem CounterCall.fetched_fetch (op : Modifier) :
    (CounterCall.modify op .fetch).fetched = false := rfl

/-- Wait `a` had begun before modifier `x` changed the value. -/
def BeganBefore (a x : ι) (s : WaitState ι) : Prop :=
  s.waits a ≠ .notStarted ∧ (s.counter.calls x).fetched = false

instance (a x : ι) : DecidablePred (BeganBefore a x) := fun _ => inferInstanceAs (Decidable (_ ∧ _))

/-- The step is the exchange by which a scan claims a registration that its announcement is not
for: the registration has another target than the announced value, or its wait began after the
value was announced; and the counter does not happen to have the target value either. -/
def misdirectedClaim (h : History (WaitState ι) (WaitAction ι)) (s : WaitState ι) :
    WaitAction ι → Bool
  | .step x =>
      match s.counter.calls x with
      | .modify _ (.check _ value (.casInUse i)) =>
          !(s.counter.ctr.waitingFibers i).inUse &&
            decide ((s.counter.ctr.waitingFibers i).targetValue ≠ s.counter.ctr.counter) &&
            (match s.counter.occupant i with
            | none => false
            | some a =>
              decide ((s.counter.ctr.waitingFibers i).targetValue ≠ value) ||
                decide (¬ h.Once (BeganBefore a x)))
      | _ => false
  | _ => false

/-- The condition of a run: no step is a stale claim, and none is a misdirected one. -/
def ClaimsInOrder (h : History (WaitState ι) (WaitAction ι)) (s : WaitState ι)
    (a : WaitAction ι) : Prop :=
  (∀ c ∈ a.onCounter s, staleClaim s.counter c = false) ∧ misdirectedClaim h s a = false

instance (h : History (WaitState ι) (WaitAction ι)) (s : WaitState ι) (a : WaitAction ι) :
    Decidable (ClaimsInOrder h s a) := inferInstanceAs (Decidable (_ ∧ _))

end System

end NomadTasks
