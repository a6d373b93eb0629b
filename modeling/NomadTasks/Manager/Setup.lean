import NomadTasks.Manager.NextJob

/-!
# Threads that are set up without a callback of the manager

Besides the threads that run `ThreadCallback_Worker` or `Run(main)`, there are those that run code
of their own: a thread that has called `SetupThread`, and the main thread after `Run(nullptr)`. Both
have a `TLS` and a fiber index, but their code stays on the thread's own fiber.

* `HostPc`: the program points of `SetupThread` and `Run(nullptr)`, and of the code that follows.
* `hostedSystem`: the manager with such threads.
* `hostedStep_cases`: what a step is.
-/

namespace NomadTasks

open Transition

/-- The program points of a thread that is set up without a callback. -/
inductive HostPc
  /-- The thread has a callback of the manager, or `Run(nullptr)` has failed. -/
  | none
  /-- `FindFreeFiber` in `SetupThread` or `Run`. -/
  | findFree (pc : FindPc)
  /-- `tls->_currentFiberIndex = …`. -/
  | setCurrent (fiberIndex : ℕ)
  /-- `mainFiber->SetCallback(FiberCallback_Main)` in `Run`. -/
  | setCallback (fiberIndex : ℕ)
  /-- The code after `SetupThread` or `Run` has returned, which runs on the thread's own fiber. -/
  | code (fiber : FiberState)
  deriving DecidableEq

/-- The manager, and the threads that are set up without a callback. -/
structure HostedState where
  mgr : ManagerState
  host : ℕ → HostPc

/-- One step of the own code of thread `t`. That code makes the calls of a main callback, and it is
not left while the manager runs. `Run(nullptr)` fails if the manager shuts down after the main
callback. -/
def HostPc.next (opts : ManagerOptions) (s : ManagerState) (t : ℕ) (choice : Choice) :
    HostPc → Option (Act × HostPc)
  | .none => Option.none
  | .findFree pc =>
      match pc.next opts.numFibers s.idleFibers (choice == .succeed) with
      | .inl pc' => some (.none, .findFree pc')
      | .inr f => some (.takeIdle f, .setCurrent f)
  | .setCurrent f =>
      some (.writeTls t (.currentFiberIndex f),
        if t ≠ 0 then .code ⟨t, .body .main⟩
        else if opts.shutdownAfterMainCallback then .none else .setCallback f)
  | .setCallback f => some (.setCallback f, .code ⟨t, .body .main⟩)
  | .code fiber =>
      if choice = .op .finish then Option.none
      else (fiber.pc.next opts s noFiber (fiber.currentTLS t) choice).map fun (act, pc) =>
        (act, .code ⟨fiber.currentTLS t, pc⟩)

/-- The fiber that the next step of a thread's own code switches to. -/
def HostPc.switchTarget : HostPc → Option ℕ
  | .code fiber => fiber.pc.switchTarget
  | _ => Option.none

namespace HostedState

/-- The fiber that the next step of thread `t` switches to. -/
def switchTarget (s : HostedState) (t : ℕ) : Option ℕ :=
  if s.mgr.running t = none ∧ s.host t ≠ .none then (s.host t).switchTarget
  else s.mgr.switchTarget t

/-- The manager with the threads of `setUp`, before any thread has taken a step. -/
def start (opts : ManagerOptions) (setUp : ℕ → Bool) : HostedState where
  mgr :=
    { ManagerState.start opts with
      threads := fun t => if setUp t then .returned else (ManagerState.start opts).threads t }
  host t := if setUp t && decide (t < opts.threadCount) then .findFree (.loadRelaxed 0) else .none

end HostedState

/-- `FiberCallback_Main` of a manager without a main callback does nothing. -/
def startsWithoutMain (setUp : ℕ → Bool) (s : ManagerState) (f : ℕ) : Bool :=
  setUp 0 && s.mainCallback f && decide ((s.fibers f).pc = .start)

/-- One step of the manager with such threads. -/
def hostedStep (opts : ManagerOptions) (setUp : ℕ → Bool) (s : HostedState) (a : ManagerAction) :
    Option HostedState :=
  match s.mgr.running a.thread with
  | some f =>
      if startsWithoutMain setUp s.mgr f then
        some { s with mgr := s.mgr.setFiber f ⟨a.thread, .switchBack⟩ }
      else (managerStep opts s.mgr a).map fun mgr => { s with mgr }
  | none =>
      if s.host a.thread = .none then (managerStep opts s.mgr a).map fun mgr => { s with mgr }
      else ((s.host a.thread).next opts s.mgr a.thread a.choice).map fun (act, pc) =>
        { mgr := s.mgr.apply a.thread noFiber act
          host := Function.update s.host a.thread pc }

/-- The manager whose threads `t` with `setUp t` are set up without a callback, and whose other
threads are spawned, under any interleaving. -/
def hostedSystem (opts : ManagerOptions) (setUp : ℕ → Bool) :
    System HostedState ManagerAction where
  init s := s = .start opts setUp
  step := hostedStep opts setUp

/-- `HostStep opts s t pc act pc'`: the own code of thread `t` takes a step from `pc` to `pc'` and
does `act`. -/
inductive HostStep (opts : ManagerOptions) (s : ManagerState) (t : ℕ) :
    HostPc → Act → HostPc → Prop
  | search {pc pc'} : HostStep opts s t (.findFree pc) .none (.findFree pc')
  | found {pc f} : HostStep opts s t (.findFree pc) (.takeIdle f) (.setCurrent f)
  | setCurrent {f} (ht : t ≠ 0) :
      HostStep opts s t (.setCurrent f) (.writeTls t (.currentFiberIndex f))
        (.code ⟨t, .body .main⟩)
  | setCurrentMain {f} (ht : t = 0) (ho : opts.shutdownAfterMainCallback = false) :
      HostStep opts s t (.setCurrent f) (.writeTls t (.currentFiberIndex f)) (.setCallback f)
  | nullCallback {f} (ht : t = 0) (ho : opts.shutdownAfterMainCallback = true) :
      HostStep opts s t (.setCurrent f) (.writeTls t (.currentFiberIndex f)) .none
  | setCallback {f} :
      HostStep opts s t (.setCallback f) (.setCallback f) (.code ⟨t, .body .main⟩)
  | code {fiber : FiberState} {act pc'}
      (h : FiberStep opts s noFiber (fiber.currentTLS t) fiber.pc act pc') :
      HostStep opts s t (.code fiber) act (.code ⟨fiber.currentTLS t, pc'⟩)

/-- Every step of a thread's own code is one of the list. -/
theorem hostStep_of_next {opts : ManagerOptions} {s : ManagerState} {t : ℕ} {choice : Choice}
    {act : Act} {pc pc' : HostPc} (h : pc.next opts s t choice = some (act, pc')) :
    HostStep opts s t pc act pc' := by
  revert h
  fun_cases HostPc.next opts s t choice pc <;> intro h
  · cases h
  · cases h
    exact .search
  · cases h
    exact .found
  -- the main thread goes on by its options, a worker starts its callback
  · by_cases ht : t = 0
    · subst ht
      by_cases ho : opts.shutdownAfterMainCallback = true
      · simp only [ne_eq, not_true_eq_false, if_false, ho, if_true, Option.some.injEq,
          Prod.mk.injEq] at h
        obtain ⟨rfl, rfl⟩ := h
        exact .nullCallback rfl ho
      · simp only [ne_eq, not_true_eq_false, if_false, ho, Option.some.injEq, Prod.mk.injEq] at h
        obtain ⟨rfl, rfl⟩ := h
        exact .setCurrentMain rfl (by simpa using ho)
    · simp only [ne_eq, ht, not_false_eq_true, if_true, Option.some.injEq, Prod.mk.injEq] at h
      obtain ⟨rfl, rfl⟩ := h
      exact .setCurrent ht
  · cases h
    exact .setCallback
  · cases h
  · simp only [Option.map_eq_some_iff, Prod.exists, Prod.mk.injEq] at h
    obtain ⟨act', pc'', hn, rfl, rfl⟩ := h
    exact .code (fiberStep_of_next hn)

/-- What a step is: one of the manager, by a fiber or by a thread with a callback; a main fiber that
starts without a main callback; or one of the own code of a thread that is set up. -/
theorem hostedStep_cases {opts : ManagerOptions} {setUp : ℕ → Bool} {s s' : HostedState}
    {a : ManagerAction} (h : hostedStep opts setUp s a = some s') :
    ((s.mgr.running a.thread ≠ none ∨ s.host a.thread = .none) ∧
      ∃ mgr, managerStep opts s.mgr a = some mgr ∧ s' = { s with mgr }) ∨
    (∃ f, s.mgr.running a.thread = some f ∧ (s.mgr.fibers f).pc = .start ∧
      s' = { s with mgr := s.mgr.setFiber f ⟨a.thread, .switchBack⟩ }) ∨
    ∃ act pc', s.mgr.running a.thread = none ∧ s.host a.thread ≠ .none ∧
      HostStep opts s.mgr a.thread (s.host a.thread) act pc' ∧
      s' = { mgr := s.mgr.apply a.thread noFiber act
             host := Function.update s.host a.thread pc' } := by
  rw [hostedStep] at h
  cases hrun : s.mgr.running a.thread with
  -- a thread that executes a fiber goes on with it; else its own code does
  | some f =>
    simp only [hrun] at h
    split at h
    · next hstart =>
      cases h
      simp only [startsWithoutMain, Bool.and_eq_true, decide_eq_true_eq] at hstart
      exact .inr (.inl ⟨f, rfl, hstart.2, rfl⟩)
    · obtain ⟨mgr, hs, rfl⟩ := Option.map_eq_some_iff.mp h
      exact .inl ⟨.inl (by simp), mgr, hs, rfl⟩
  | none =>
    simp only [hrun] at h
    split at h
    · next hhost =>
      obtain ⟨mgr, hs, rfl⟩ := Option.map_eq_some_iff.mp h
      exact .inl ⟨.inr hhost, mgr, hs, rfl⟩
    · next hhost =>
      simp only [Option.map_eq_some_iff, Prod.exists] at h
      obtain ⟨act, pc', hn, rfl⟩ := h
      exact .inr (.inr ⟨act, pc', rfl, hhost, hostStep_of_next hn, rfl⟩)

end NomadTasks
