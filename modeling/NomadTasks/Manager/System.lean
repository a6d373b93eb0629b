import NomadTasks.Manager.Basic
import Mathlib.Tactic.Simps.Basic

/-!
# The fiber manager: interleaved steps

A step of the manager is a step of one thread: of the fiber that it executes, or of its own code
when it executes none. `ManagerState.apply` says what the steps do to the state.

* `managerSystem`: the manager from the start of `Run` on, under any interleaving.
* `managerStep_cases`: what a step is.
-/

namespace NomadTasks

open Transition

/-- The entries that a step on a counter puts into the ready list of the thread that takes it. -/
def CounterState.readied (k : CounterState ℕ) : CounterAction ℕ → List ReadyFiber
  | .step x =>
      match (k.calls x).next k.ctr with
      | some (eff, _) => eff.pushes
      | none => []
  | _ => []

/-- A call that is not in progress readies nothing. -/
theorem CounterState.readied_of_not_inProgress {k : CounterState ℕ} {x : ℕ}
    (hx : (k.calls x).inProgress = false) : k.readied (.step x) = [] := by
  have hnone : (k.calls x).next k.ctr = none := by
    revert hx
    fun_cases CounterCall.inProgress (k.calls x) <;> simp_all [CounterCall.next, AddPc.next,
      ModifyPc.next]
  simp [CounterState.readied, hnone]

/-- The assignment completes a hand-off: it is the last one before the switch that concerns it. -/
def TlsWrite.completes : TlsWrite → Bool
  | .previousFiberDestination .pool | .previousFiberStored _ => true
  | _ => false

namespace ManagerState

/-- Put entries into the ready list of thread `t`. -/
def readyAfter (s : ManagerState) (t : ℕ) : List ReadyFiber → ℕ → TLS
  | [] => s.tls
  | entries =>
      Function.update s.tls t
        { s.tls t with readyFibers := (s.tls t).readyFibers ++ entries }

/-- The flags after entry `k` of a ready list is deleted. -/
def flagsAfterErase (s : ManagerState) (tls k : ℕ) : FlagPtr → Option Bool :=
  match (s.tls tls).readyFibers[k]? with
  | some (_, p) => Function.update s.flags p none
  | none => s.flags

/-- The owners of the flags after an action on counter `c`. -/
def flagCallAfter (s : ManagerState) (c : CtrId) :
    CounterAction ℕ → FlagPtr → Option (CtrId × ℕ)
  | .beginAddWaiting x reg => Function.update s.flagCall reg.fiberStored (some (c, x))
  | _ => s.flagCall

/-- The state after fiber `f`, or the own code of thread `t`, has done `act` on thread `t`. A
`SwitchTo` is one act here, with its assignments and its `SwitchToFiber`; `ContextState.switchTo`
takes them apart. -/
def apply (s : ManagerState) (t f : ℕ) : Act → ManagerState
  | .none => s
  | .takeIdle g => { s with idleFibers := Function.update s.idleFibers g false }
  | .storeIdle tls =>
      { s with
        idleFibers := Function.update s.idleFibers (s.tls tls).previousFiberIndex true
        handoffs := s.handoffs ++ [.consumed tls t f (s.tls tls).handoff] }
  | .storeStored tls =>
      { s with
        flags := Function.update s.flags (s.tls tls).previousFiberStored
          ((s.flags (s.tls tls).previousFiberStored).map fun _ => true)
        handoffs := s.handoffs ++ [.consumed tls t f (s.tls tls).handoff] }
  | .newStored p =>
      { s with
        flags := Function.update s.flags p (some false)
        flagFiber := Function.update s.flagFiber p f
        flagCall := Function.update s.flagCall p none }
  | .deleteStored p => { s with flags := Function.update s.flags p none }
  | .writeTls tls w =>
      { s with
        tls := Function.update s.tls tls ((s.tls tls).write w)
        handoffs := s.handoffs ++
          if w.completes then [.written tls ((s.tls tls).write w).handoff] else [] }
  | .erase tls k =>
      { s with
        flags := s.flagsAfterErase tls k
        tls := Function.update s.tls tls
          { s.tls tls with readyFibers := (s.tls tls).readyFibers.eraseIdx k } }
  | .counter c a =>
      { s with
        counters :=
          Function.update s.counters c ((counterStep (s.counters c) a).getD (s.counters c))
        tls := s.readyAfter t ((s.counters c).readied a)
        flagCall := s.flagCallAfter c a }
  | .enqueue prio job => { s with jobs := Function.update s.jobs prio (s.jobs prio ++ [job]) }
  | .dequeue prio => { s with jobs := Function.update s.jobs prio (s.jobs prio).tail }
  | .setCallback g => { s with mainCallback := Function.update s.mainCallback g true }
  | .switchTo tls g =>
      { s with
        running := Function.update s.running t (some g)
        returnFiber := Function.update s.returnFiber g tls
        handoffs := s.handoffs ++ [.switchedTo t g] }
  | .switchBack =>
      { s with
        running := Function.update s.running t none
        threads := Function.update s.threads (s.returnFiber f) .returned }
  | .shutdown => { s with shuttingDown := true }
  | .callDelegate job => { s with delegates := s.delegates ++ [.called job] }
  | .finishDelegate job => { s with delegates := s.delegates ++ [.finished job] }
  | .beginSingle n job => { s with singles := Function.update s.singles n (.waiting job) }
  | .addJob q prio job =>
      { s with
        queues := Function.update s.queues q (s.queues q ++ [(prio, job)])
        added := Function.update s.added q (s.added q ++ [job]) }
  | .enterExecute q => { s with executing := Function.update s.executing q true }
  | .leaveExecute q => { s with executing := Function.update s.executing q false }
  | .endWait .body => s
  | .endWait (.single n) => { s with singles := Function.update s.singles n (s.singles n).return }
  | .endWait (.queue q) => { s with queues := Function.update s.queues q (s.queues q).tail }
  | .throwThrough .body => s
  | .throwThrough (.single n) => { s with singles := Function.update s.singles n .threw }
  | .throwThrough (.queue q) => { s with executing := Function.update s.executing q false }

/-- No act moves a fiber: the step does, by itself. -/
@[simp] theorem apply_fibers (s : ManagerState) (t f : ℕ) (act : Act) :
    (s.apply t f act).fibers = s.fibers := by
  cases act with
  | endWait caller | throwThrough caller => cases caller <;> rfl
  | _ => rfl

/-- The `TLS` of the thread after entries are put into its ready list. -/
@[simp] theorem readyAfter_self (s : ManagerState) (t : ℕ) (entries : List ReadyFiber) :
    s.readyAfter t entries t =
      { s.tls t with readyFibers := (s.tls t).readyFibers ++ entries } := by
  cases entries <;> simp [readyAfter]

@[simp] theorem readyAfter_of_ne (s : ManagerState) {t u : ℕ} (entries : List ReadyFiber)
    (hu : u ≠ t) : s.readyAfter t entries u = s.tls u := by
  cases entries with
  | nil => rfl
  | cons => exact Function.update_of_ne hu ..

/-- Replace fiber `f`. -/
@[simps]
def setFiber (s : ManagerState) (f : ℕ) (fiber : FiberState) : ManagerState :=
  { s with fibers := Function.update s.fibers f fiber }

/-- Replace the program point of the own code of thread `t`. -/
@[simps]
def setThread (s : ManagerState) (t : ℕ) (pc : ThreadPc) : ManagerState :=
  { s with threads := Function.update s.threads t pc }

end ManagerState

/-- A step of thread `thread`; `choice` resolves what it leaves open. -/
structure ManagerAction where
  thread : ℕ
  choice : Choice
  deriving DecidableEq

/-- `n` steps of thread `t` that leave nothing open, or in which what may fail succeeds. -/
def threadSteps (t n : ℕ) : List ManagerAction := List.replicate n ⟨t, .succeed⟩

/-- One step of the manager. A fiber has one program point, whichever thread executes it, and
switches in one step. That is what the saved contexts and the two steps of a `SwitchTo` come to as
long as no switch is to a fiber that a thread executes or that another thread is about to switch to:
`simulates_of_run` for such runs, and `simulates_of_orderly` for the orderly ones. -/
def managerStep (opts : ManagerOptions) (s : ManagerState) (a : ManagerAction) :
    Option ManagerState :=
  match s.running a.thread with
  | some f =>
      let tls := (s.fibers f).currentTLS a.thread
      ((s.fibers f).pc.next opts s f tls a.choice).map fun (act, pc) =>
        (s.apply a.thread f act).setFiber f ⟨tls, pc⟩
  | none =>
      ((s.threads a.thread).next opts s a.thread a.choice).map fun (act, pc) =>
        (s.apply a.thread noFiber act).setThread a.thread pc

/-- `managerStep`, for evaluation: the fiber and the `TLS` of a step are evaluated first. -/
def managerStepEval (opts : ManagerOptions) (s : ManagerState) (a : ManagerAction) :
    Option ManagerState :=
  match s.running a.thread with
  | some f =>
      System.evaluated f fun f =>
        System.evaluated ((s.fibers f).currentTLS a.thread) fun tls =>
          ((s.fibers f).pc.next opts s f tls a.choice).map fun (act, pc) =>
            (s.apply a.thread f act).setFiber f ⟨tls, pc⟩
  | none =>
      ((s.threads a.thread).next opts s a.thread a.choice).map fun (act, pc) =>
        (s.apply a.thread noFiber act).setThread a.thread pc

theorem managerStepEval_eq (opts : ManagerOptions) : managerStepEval opts = managerStep opts := by
  funext s a
  simp only [managerStepEval, managerStep, System.evaluated_eq]

/-- The manager from the start of `Run` on, under any interleaving of its threads and any program
of jobs. -/
def managerSystem (opts : ManagerOptions) : System ManagerState ManagerAction where
  init s := s = .start opts
  step := managerStep opts

/-- What a step of the manager is: the fiber that a thread executes takes a step, or the own code
of a thread that executes none. -/
theorem managerStep_cases {opts : ManagerOptions} {s s' : ManagerState} {a : ManagerAction}
    (h : managerStep opts s a = some s') :
    (∃ f act pc, s.running a.thread = some f ∧
      (s.fibers f).pc.next opts s f ((s.fibers f).currentTLS a.thread) a.choice = some (act, pc) ∧
      s' = (s.apply a.thread f act).setFiber f ⟨(s.fibers f).currentTLS a.thread, pc⟩) ∨
    ∃ act pc, s.running a.thread = none ∧
      (s.threads a.thread).next opts s a.thread a.choice = some (act, pc) ∧
      s' = (s.apply a.thread noFiber act).setThread a.thread pc := by
  rw [managerStep] at h
  cases hrun : s.running a.thread with
  | some f =>
    simp only [hrun, Option.map_eq_some_iff, Prod.exists] at h
    obtain ⟨act, pc, hn, rfl⟩ := h
    exact .inl ⟨f, act, pc, rfl, hn, rfl⟩
  | none =>
    simp only [hrun, Option.map_eq_some_iff, Prod.exists] at h
    obtain ⟨act, pc, hn, rfl⟩ := h
    exact .inr ⟨act, pc, rfl, hn, rfl⟩

end NomadTasks
