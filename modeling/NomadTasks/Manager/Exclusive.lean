import NomadTasks.Manager.Orderly
import NomadTasks.Manager.Ready

/-!
# A fiber is executed by one thread at a time

The idle flags of the pool and the `fiberStored` flags of waiting fibers say which fibers may be
switched to. They are set by the fiber that has taken over the thread, so that a fiber whose flag
is set has left its thread.

* `fibers_exclusive`: in every orderly run, no fiber is executed by two threads, and the flags are
  set for fibers only that no thread executes.
* `fiber_on_two_threads`: a fiber that is resumed inside a `GetNextJob` called on another thread
  performs that thread's hand-off too early.
-/

namespace NomadTasks

open Transition

/-- No fiber is executed by two threads; a fiber whose idle flag or whose `fiberStored` flag is set
is not executed by any thread, nor is a fiber that a thread or a fiber has taken to switch to it. -/
structure FibersExclusive (s : ManagerState) : Prop where
  once : ∀ t u f, s.running t = some f → s.running u = some f → t = u
  idle : ∀ f t, s.idleFibers f = true → s.running t ≠ some f
  stored : ∀ p t, s.flags p = some true → s.running t ≠ some (s.flagFiber p)
  ready : ∀ u t g p, (g, p) ∈ (s.tls u).readyFibers → s.flags p = some true → s.running t ≠ some g
  reserved : ∀ f t g, (s.fibers f).pc.reserved = some g → s.running t ≠ some g
  threadReserved : ∀ u t g, (s.threads u).reserved = some g → s.running t ≠ some g

/-- A fiber is in one place at a time. -/
theorem ManagerInv.fibersExclusive {s : ManagerState} (hi : ManagerInv s) : FibersExclusive s where
  once _ _ _ ht hu := hi.own.run_unique ht hu
  idle f t hidle := hi.own.not_running (l := .idle f) rfl (by simp [ManagerState.holds, hidle])
  stored p t hp := hi.own.not_running (l := .stored p) rfl (by simp [ManagerState.holds, hp])
  ready u t g p hmem hp := by
    have hg := (hi.flag.entries.entry u g p hmem).2.1
    exact hi.own.not_running (l := .stored p) rfl (by simp [ManagerState.holds, hp, hg])
  reserved f t g hg := hi.own.not_running (l := .fiber f) rfl hg
  threadReserved u t g hg := hi.own.not_running (l := .thread u) rfl hg

/-- In every orderly run, every fiber is executed by one thread at a time. -/
theorem fibers_exclusive {opts : ManagerOptions} {h : History ManagerState ManagerAction}
    {s : ManagerState} (hr : (managerSystem opts).Run Orderly h s) : FibersExclusive s :=
  (managerInv_of_run hr).fibersExclusive

/-! ## A fiber that resumes on another thread -/

/-- Two worker threads besides the IO thread, and three fibers. -/
def twoWorkers : ManagerOptions := ⟨2, 3, false⟩

/-- The main callback waits for a job, fiber 1 executes the job and switches back, and the main
callback goes on. -/
def mainResumes : List ManagerAction :=
  mainWaitsFor .normal ++ threadSteps 0 4 ++ executeJob 0 ++ threadSteps 0 14

/-- Thread 1 takes fiber 1 from the pool, and the main callback waits for a second job on thread 0,
up to the point where its hand-off is in the `TLS`. -/
def waitsAgain : List ManagerAction :=
  threadSteps 1 6 ++ [⟨0, .op (.waitForSingle .normal (some 7) 1)⟩, ⟨0, .call 0⟩] ++
    threadSteps 0 7 ++ [⟨0, .address 1⟩, ⟨0, .call 1⟩] ++ threadSteps 0 12

theorem exists_mainResumes :
    ∃ h s, (managerSystem twoWorkers).Run Orderly h s ∧ s.running 0 = some 0 ∧
      s.idleFibers 1 = true ∧
        s.handoffs.getLast? = some (.consumed 0 0 0 (some (.pool 1))) :=
  System.exists_run_of_trace_by (managerStepEval_eq _) rfl mainResumes (by decide +kernel)

theorem fibers_exclusive_resumed :
    ∃ h s, (managerSystem twoWorkers).Run Orderly h s ∧ s.running 0 = some 0 ∧
      s.idleFibers 1 = true ∧ FibersExclusive s := by
  obtain ⟨h, s, hr, hrun, hidle, -⟩ := exists_mainResumes
  exact ⟨h, s, hr, hrun, hidle, fibers_exclusive hr⟩

/-- Fiber 1 resumes inside its `GetNextJob` on thread 1 and sets the `fiberStored` flag of the main
callback, which is still looking for a free fiber on thread 0. It then executes the job, finds
the main callback in its ready list, stored, and switches to it. -/
theorem fiber_on_two_threads :
    ∃ s, (managerSystem twoWorkers).Reachable s ∧ s.running 0 = some 0 ∧ s.running 1 = some 0 ∧
      ¬ FibersExclusive s := by
  have hrun : ∃ (h : History ManagerState ManagerAction) (s : ManagerState),
      (managerSystem twoWorkers).Run (fun _ _ _ => True) h s ∧ s.running 0 = some 0 ∧
        s.running 1 = some 0 :=
    System.exists_run_of_trace_by (managerStepEval_eq _) rfl
      (mainResumes ++ waitsAgain ++ threadSteps 1 4 ++ executeJob 1 ++ threadSteps 1 9)
      (by decide +kernel)
  obtain ⟨h, s, hr, hzero, hone⟩ := hrun
  exact ⟨s, hr.reachable, hzero, hone, fun hex => by cases hex.once 0 1 0 hzero hone⟩

end NomadTasks
