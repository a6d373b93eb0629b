import NomadTasks.Fiber.Basic
import NomadTasks.Manager.CurrentFiber

/-!
# A fiber switches back to the thread that executes it

Every switch to a fiber of the pool is a call of `SwitchTo` on the `_threadFiber` of a `TLS`, which
becomes the `_returnFiber`. A fiber may start on one thread and go on on others, each time through
the `TLS` pointer that the code in front of it has.

* `switchSystem`: the manager with its `Fiber` objects, and with the contexts that its threads
  execute.
* `switchBack_to_own_thread`: the `_returnFiber` of an executed fiber is the `_threadFiber` of its
  thread, and its user data is the manager, as long as no `SwitchTo` makes its assignments for a
  fiber that a thread executes or has made them for.
* `switchStep_of_hostedStep`: then no call of `SwitchTo` or `SwitchBack` throws.
* `returnFiber_overwritten`: a thread makes its assignments for a fiber that another thread still
  executes.
-/

namespace NomadTasks

open Transition

/-! ## The manager with its objects -/

/-- The manager, its `Fiber` objects, and the threads as the operating system sees them. Every fiber
has one program point, which is what its context has saved while no fiber is executed by two
threads. -/
structure SwitchState where
  hosted : HostedState
  fibers : Fibers
  /-- The context that a thread executes, from `ConvertThreadToFiber` on. -/
  context : ℕ → Option Context
  /-- The thread is inside `SwitchTo`, between the assignments and `SwitchToFiber`. -/
  assigned : ℕ → Bool
  /-- The local variable `manager` of the callback of a fiber. -/
  manager : ℕ → Option ManagerPtr

/-- A call of `SwitchTo` or `SwitchBack`. -/
inductive SwitchCall
  /-- `tls->_threadFiber.SwitchTo(&_fibers[f], userData)`. -/
  | switchTo (tls : ℕ) (f : ℕ) (userData : Option ManagerPtr)
  /-- `_fibers[f].SwitchBack()`. -/
  | switchBack (f : ℕ)
  deriving DecidableEq

/-- The call that the next step of fiber `f` makes; `this` is the manager, and `manager` is the
variable of the callback, on which `FiberCallback_Worker` calls `GetNextJob`. -/
def FiberPc.switchCall (f tls : ℕ) (this : ManagerPtr) (manager : Option ManagerPtr) :
    FiberPc → Option SwitchCall
  | .getNextJob (.switchTo g) => some (.switchTo tls g manager)
  | .waitForCounter _ _ _ _ (.switchTo _ g) => some (.switchTo tls g (some this))
  | .mainSwitchTo g => some (.switchTo tls g manager)
  | .switchBack => some (.switchBack f)
  | _ => none

/-- The call that the next step of thread `t` makes in `ThreadCallback_Worker` or `Run`. -/
def ThreadPc.switchCall (t : ℕ) (this : ManagerPtr) : ThreadPc → Option SwitchCall
  | .switchTo g => some (.switchTo t g (some this))
  | _ => none

/-- The call that the next step of thread `t` makes in code of its own, in `WaitForCounter`. -/
def HostPc.switchCall (t : ℕ) (this : ManagerPtr) : HostPc → Option SwitchCall
  | .code fiber => fiber.pc.switchTarget.map fun g => .switchTo (fiber.currentTLS t) g (some this)
  | _ => Option.none

namespace SwitchState

/-- The call that the next step of thread `t` makes. -/
def switchCall (s : SwitchState) (this : ManagerPtr) (t : ℕ) : Option SwitchCall :=
  match s.hosted.mgr.running t with
  | some f =>
      (s.hosted.mgr.fibers f).pc.switchCall f ((s.hosted.mgr.fibers f).currentTLS t) this
        (s.manager f)
  | none =>
      if s.hosted.host t = .none then (s.hosted.mgr.threads t).switchCall t this
      else (s.hosted.host t).switchCall t this

/-- A callback reads the user data of its fiber when it starts. -/
def managerAfter (s : SwitchState) (t : ℕ) : ℕ → Option ManagerPtr :=
  match s.hosted.mgr.running t with
  | some f =>
      if (s.hosted.mgr.fibers f).pc = .start then
        Function.update s.manager f (s.fibers (.pool f)).userData
      else s.manager
  | none => s.manager

/-- The state after thread `t` has taken the next step of the call, unless it throws; `hosted` is
the manager after the whole call. -/
def afterCall (s : SwitchState) (t : ℕ) (hosted : HostedState) :
    Option SwitchCall → Except String SwitchState
  | none =>
      .ok
        { s with
          hosted
          assigned := Function.update s.assigned t false
          manager := s.managerAfter t }
  | some (.switchTo tls f userData) =>
      if s.assigned t then
        -- `SwitchToFiber(fiber->_fiber)`
        .ok
          { s with
            hosted := { hosted with mgr.returnFiber := s.hosted.mgr.returnFiber }
            context := Function.update s.context t (s.fibers (.pool f)).fiber
            assigned := Function.update s.assigned t false }
      else
        (s.fibers.switchTo (.thread tls) (some (.pool f)) userData).map fun fibers =>
          { s with
            hosted := { s.hosted with
              mgr.returnFiber := Function.update s.hosted.mgr.returnFiber f tls }
            fibers
            assigned := Function.update s.assigned t true }
  | some (.switchBack f) =>
      (s.fibers.switchBack (.pool f)).map fun context =>
        { s with
          hosted
          context := Function.update s.context t (some context)
          assigned := Function.update s.assigned t false }

/-- The manager before any thread has taken a step, with the jobs that have been scheduled before
`Run` and the values to which `ScheduleJob` has incremented their counters. -/
def start (opts : ManagerOptions) (setUp : ℕ → Bool) (jobs : JobPriority → List JobInfo)
    (values : CtrId → CounterUnit) : SwitchState where
  hosted :=
    { HostedState.start opts setUp with
      mgr :=
        { (HostedState.start opts setUp).mgr with
          jobs := jobs
          counters := fun c =>
            .idle { BaseCounter.construct c.slots with counter := values c } } }
  fibers := Fiber.construct
  context _ := none
  assigned _ := false
  manager _ := none

end SwitchState

/-- What can happen next. -/
inductive SwitchAction
  /-- `tls->_threadFiber.FromCurrentThread()`, the first thing that a thread does. -/
  | fromCurrentThread (t : ℕ)
  /-- A step of the manager. -/
  | step (a : ManagerAction)
  deriving DecidableEq

/-- One step of the manager with its objects. The assignments of a `SwitchTo` are one step, and its
`SwitchToFiber` is the next one of the thread. A step whose `SwitchTo` or `SwitchBack` throws is not
taken. -/
def switchStep (opts : ManagerOptions) (setUp : ℕ → Bool) (this : ManagerPtr) (s : SwitchState) :
    SwitchAction → Option SwitchState
  | .fromCurrentThread t =>
      if t < opts.threadCount ∧ (s.fibers (.thread t)).threadFiber = false then
        some
          { s with
            fibers := Function.update s.fibers (.thread t)
              ((s.fibers (.thread t)).fromCurrentThread t)
            context := Function.update s.context t (some (.converted t)) }
      else none
  | .step a =>
      if (s.fibers (.thread a.thread)).threadFiber then
        (hostedStep opts setUp s.hosted a).bind fun hosted =>
          (s.afterCall a.thread hosted (s.switchCall this a.thread)).toOption
      else none

/-- The manager with its objects, under any interleaving of its threads, any program of jobs and any
jobs scheduled before `Run`. -/
def switchSystem (opts : ManagerOptions) (setUp : ℕ → Bool) (this : ManagerPtr) :
    System SwitchState SwitchAction where
  init s := ∃ jobs values, s = .start opts setUp jobs values
  step := switchStep opts setUp this

/-- Thread `t` executes fiber `f`, or has made the assignments of a `SwitchTo` for it. -/
def SwitchState.Has (s : SwitchState) (t f : ℕ) : Prop :=
  s.hosted.mgr.running t = some f ∨ s.assigned t = true ∧ s.hosted.switchTarget t = some f

instance (s : SwitchState) (t f : ℕ) : Decidable (s.Has t f) :=
  inferInstanceAs (Decidable (_ ∨ _ ∧ _))

/-- The step does not make the assignments of a `SwitchTo` for a fiber that a thread executes, or
has made them for. -/
def AssignsApart (opts : ManagerOptions) (_ : History SwitchState SwitchAction) (s : SwitchState) :
    SwitchAction → Prop
  | .fromCurrentThread _ => True
  | .step a =>
      s.assigned a.thread = false → ∀ g ∈ s.hosted.switchTarget a.thread,
        ∀ u < opts.threadCount, ¬ s.Has u g

/-- No fiber is executed by two threads. -/
def ExecutedOnce (opts : ManagerOptions) (s : SwitchState) : Prop :=
  ∀ t < opts.threadCount, ∀ u < opts.threadCount,
    ∀ f ∈ s.hosted.mgr.running t, s.hosted.mgr.running u = some f → t = u

instance (opts : ManagerOptions) (h : History SwitchState SwitchAction) (s : SwitchState) :
    DecidablePred (AssignsApart opts h s)
  | .fromCurrentThread _ => inferInstanceAs (Decidable True)
  | .step a => inferInstanceAs (Decidable (s.assigned a.thread = false → _))

instance (opts : ManagerOptions) (s : SwitchState) : Decidable (ExecutedOnce opts s) :=
  inferInstanceAs (Decidable (∀ t < opts.threadCount, ∀ u < opts.threadCount, _))

/-! ## What a step calls -/

section Calls

variable {opts : ManagerOptions} {s : ManagerState} {t f tls : ℕ} {act : Act} {pc pc' : FiberPc}
  {this : ManagerPtr} {manager : Option ManagerPtr}

variable (this manager) in
/-- A fiber calls `SwitchTo` when it leaves its thread to another fiber, and `SwitchBack` when it
leaves it for good. -/
theorem FiberStep.call_cases (h : FiberStep opts s f tls pc act pc') :
    act.moves = false ∧ pc.switchCall f tls this manager = none ∨
    (∃ g userData, act = .switchTo tls g ∧ pc.switchTarget = some g ∧
      pc.switchCall f tls this manager = some (.switchTo tls g userData) ∧
      (userData = manager ∨ userData = some this) ∧ pc.ownTls = true ∧ pc ≠ .start ∧
      pc'.atRest = true) ∨
    act = .switchBack ∧ pc = .switchBack ∧ pc'.atRest = true := by
  cases h with
  | nextSwitchTo => exact .inr (.inl ⟨_, _, rfl, rfl, rfl, .inl rfl, rfl, nofun, rfl⟩)
  | waitSwitchTo => exact .inr (.inl ⟨_, _, rfl, rfl, rfl, .inr rfl, rfl, nofun, rfl⟩)
  | mainSwitchTo => exact .inr (.inl ⟨_, _, rfl, rfl, rfl, .inl rfl, rfl, nofun, rfl⟩)
  | switchBack => exact .inr (.inr ⟨rfl, rfl, rfl⟩)
  | _ => exact .inl ⟨rfl, rfl⟩

variable (this) in
/-- A thread's own code calls `SwitchTo` when it goes on with a fiber. -/
theorem ThreadStep.call_cases {pc pc' : ThreadPc} (h : ThreadStep s t pc act pc') :
    act.moves = false ∧ pc.switchCall t this = none ∨
      ∃ g, act = .switchTo t g ∧ pc.switchTarget = some g ∧
        pc.switchCall t this = some (.switchTo t g (some this)) := by
  cases h with
  | switchTo => exact .inr ⟨_, rfl, rfl, rfl⟩
  | _ => exact .inl ⟨rfl, rfl⟩

variable (this) in
/-- The code of a thread that is set up calls `SwitchTo` when it waits. -/
theorem HostStep.call_cases {pc pc' : HostPc} (h : HostStep opts s t pc act pc') :
    (act.moves = false ∨ act = .switchBack) ∧ pc.switchCall t this = none ∨
      ∃ fiber g, pc = .code fiber ∧ fiber.pc.ownTls = true ∧
        act = .switchTo (fiber.currentTLS t) g ∧ pc.switchTarget = some g ∧
          pc.switchCall t this = some (.switchTo (fiber.currentTLS t) g (some this)) := by
  cases h with
  | @code fiber act pc' h =>
    rcases h.moves_cases with hstay | ⟨g, rfl, hg, -⟩ | ⟨rfl, -⟩
    · have hnone : fiber.pc.switchTarget = none := by
        rcases h.current_cases with ⟨-, -, -, hnone, -⟩ | ⟨-, -, hold⟩
        · exact hnone
        · exact hold hstay
      exact .inl ⟨.inl hstay, by simp [HostPc.switchCall, hnone]⟩
    · exact .inr ⟨fiber, g, rfl, FiberPc.ownTls_of_switchTarget hg, rfl, hg,
        by simp [HostPc.switchCall, hg]⟩
    · refine .inl ⟨.inr rfl, ?_⟩
      rcases h.call_cases this none with ⟨hstay, -⟩ | ⟨_, _, hact, -⟩ | ⟨-, hpc, -⟩
      · cases hstay
      · cases hact
      · simp [HostPc.switchCall, hpc, FiberPc.switchTarget]
  | _ => exact .inl ⟨.inl rfl, rfl⟩

/-- The code of a thread that is set up keeps to its own `TLS`. -/
theorem HostStep.ownTls {pc pc' : HostPc} (h : HostStep opts s t pc act pc')
    (hcode : ∀ fiber, pc = .code fiber → fiber.pc.ownTls = true → fiber.tls = t)
    {fiber : FiberState} (hfiber : pc' = .code fiber) (hown : fiber.pc.ownTls = true) :
    fiber.tls = t := by
  cases h with
  | code h =>
    cases hfiber
    exact FiberState.currentTLS_of_ownTls (hcode _ rfl) (h.ownTls_cases hown)
  | setCurrent | setCallback =>
    cases hfiber
    rfl
  | _ => cases hfiber

end Calls

/-! ## The invariant -/

/-- The context of a thread that is a fiber, by what the manager's model says it executes. -/
def HostedState.context (s : HostedState) (t : ℕ) : Context :=
  match s.mgr.running t with
  | some f => .created (.pool f)
  | none => .converted t

/-- What holds of the objects and of the `TLS` pointers: a fiber that a thread executes, or is about
to execute, comes back to that thread and to no other. -/
structure SwitchInv (opts : ManagerOptions) (this : ManagerPtr) (s : SwitchState) : Prop where
  pool : ∀ f, (s.fibers (.pool f)).fiber = some (.created (.pool f))
  thread : ∀ t, (s.fibers (.thread t)).threadFiber = true →
    (s.fibers (.thread t)).fiber = some (.converted t) ∧
      s.context t = some (s.hosted.context t) ∧ t < opts.threadCount
  converted : ∀ t f, s.Has t f → (s.fibers (.thread t)).threadFiber = true
  alone : ∀ t u f, s.Has t f → s.Has u f → t = u
  entered : ∀ t f, s.Has t f →
    (s.fibers (.pool f)).returnFiber = some (.thread t) ∧
      (s.fibers (.pool f)).userData = some this
  rest : ∀ f, (∀ t, s.hosted.mgr.running t ≠ some f) → (s.hosted.mgr.fibers f).pc.atRest = true
  tls : ∀ t f, s.hosted.mgr.running t = some f → (s.hosted.mgr.fibers f).pc.ownTls = true →
    (s.hosted.mgr.fibers f).tls = t
  host : ∀ t fiber, s.hosted.host t = .code fiber → fiber.pc.ownTls = true → fiber.tls = t
  manager : ∀ f, (s.hosted.mgr.fibers f).pc ≠ .start → s.manager f = some this

/-- The call that a step of thread `t` makes, and what the thread executes after the whole call. -/
inductive StepCall (this : ManagerPtr) (s : SwitchState) (t : ℕ) (hosted : HostedState) : Prop
  | stays (hcall : s.switchCall this t = none)
      (hrun : hosted.mgr.running t = s.hosted.mgr.running t)
      (htls : ∀ f, hosted.mgr.running t = some f → (hosted.mgr.fibers f).pc.ownTls = true →
        (hosted.mgr.fibers f).tls = t)
  | switchTo {g : ℕ} (hcall : s.switchCall this t = some (.switchTo t g (some this)))
      (htarget : s.hosted.switchTarget t = some g) (hrun : hosted.mgr.running t = some g)
      (hstart : ∀ f, s.hosted.mgr.running t = some f → (s.hosted.mgr.fibers f).pc ≠ .start)
      (hleft : ∀ f, s.hosted.mgr.running t = some f → (hosted.mgr.fibers f).pc.atRest = true)
  | switchBack {f : ℕ} (hcall : s.switchCall this t = some (.switchBack f))
      (hrun : s.hosted.mgr.running t = some f) (hpc : (s.hosted.mgr.fibers f).pc = .switchBack)
      (hback : hosted.mgr.running t = none)

/-- What a step of thread `t` leaves to the others. -/
structure StepFrame (s s' : HostedState) (t : ℕ) : Prop where
  running : ∀ u, u ≠ t → s'.mgr.running u = s.mgr.running u
  fibers : ∀ g, s.mgr.running t ≠ some g → s'.mgr.fibers g = s.mgr.fibers g
  left : ∀ f, s.mgr.running t = some f → s'.mgr.running t ≠ some f →
    (s'.mgr.fibers f).pc.atRest = true
  threads : ∀ u, u ≠ t → s'.mgr.threads u = s.mgr.threads u ∨ s'.mgr.threads u = .returned
  host : ∀ u, u ≠ t → s'.host u = s.host u

theorem StepFrame.of_moves {s s' : HostedState} {t : ℕ} {target : Option ℕ}
    (hm : StepMoves s.mgr s'.mgr t target)
    (hthreads : ∀ u, u ≠ t → s'.mgr.threads u = s.mgr.threads u ∨ s'.mgr.threads u = .returned)
    (hhost : ∀ u, u ≠ t → s'.host u = s.host u) : StepFrame s s' t where
  running := hm.others
  fibers := hm.fibers
  left f hrun hrun' := by
    rcases hm.move with hsame | ⟨hrest, -⟩
    · exact absurd (hsame.trans hrun) hrun'
    · exact hrest f hrun
  threads := hthreads
  host := hhost

namespace SwitchInv

variable {opts : ManagerOptions} {setUp : ℕ → Bool} {this : ManagerPtr} {s s' : SwitchState}

/-- A thread that executes a fiber, or is about to, exists. -/
theorem lt_of_has (hi : SwitchInv opts this s) {t f : ℕ} (hf : s.Has t f) : t < opts.threadCount :=
  (hi.thread t (hi.converted t f hf)).2.2

theorem run_unique (hi : SwitchInv opts this s) {t u f : ℕ} (ht : s.hosted.mgr.running t = some f)
    (hu : s.hosted.mgr.running u = some f) : t = u :=
  hi.alone t u f (.inl ht) (.inl hu)

section Call

variable {t f : ℕ} {hosted : HostedState} {act : Act}

/-- The step of a fiber. -/
theorem fiber_call (hi : SwitchInv opts this s) (hrun : s.hosted.mgr.running t = some f)
    {pc' : FiberPc}
    (h : FiberStep opts s.hosted.mgr f ((s.hosted.mgr.fibers f).currentTLS t)
      (s.hosted.mgr.fibers f).pc act pc') :
    StepCall this s t
      { s.hosted with
        mgr := (s.hosted.mgr.apply t f act).setFiber f
          ⟨(s.hosted.mgr.fibers f).currentTLS t, pc'⟩ } := by
  have hswitch : s.switchCall this t = (s.hosted.mgr.fibers f).pc.switchCall f
      ((s.hosted.mgr.fibers f).currentTLS t) this (s.manager f) := by
    simp only [SwitchState.switchCall, hrun]
  rcases h.call_cases this (s.manager f) with ⟨hstay, hnone⟩ |
      ⟨g, userData, rfl, htarget, hg, hdata, hown, hstart, hrest⟩ | ⟨rfl, hpc, hrest⟩
  · have hsame : (s.hosted.mgr.apply t f act).running t = some f := by
      rw [s.hosted.mgr.apply_running hstay, hrun]
    refine .stays (hswitch.trans hnone) (hsame.trans hrun.symm) fun g hg hown => ?_
    obtain rfl : f = g := Option.some.inj (hsame.symm.trans hg)
    simp only [ManagerState.setFiber_fibers, Function.update_self] at hown ⊢
    exact FiberState.currentTLS_of_ownTls (hi.tls t f hrun) (h.ownTls_cases hown)
  · have htls : (s.hosted.mgr.fibers f).currentTLS t = t :=
      FiberState.currentTLS_of_ownTls (hi.tls t f hrun) (.inl hown)
    have hdata' : userData = some this := by
      rcases hdata with rfl | rfl
      · exact hi.manager f hstart
      · rfl
    refine .switchTo (g := g) ?_ ?_ ?_ (fun k hk => ?_) fun k hk => ?_
    · rw [hswitch, hg, htls, hdata']
    · simp [HostedState.switchTarget, ManagerState.switchTarget, hrun, htarget]
    · exact s.hosted.mgr.apply_switchTo_running t f ((s.hosted.mgr.fibers f).currentTLS t) g
    · obtain rfl : f = k := Option.some.inj (hrun.symm.trans hk)
      exact hstart
    · obtain rfl : f = k := Option.some.inj (hrun.symm.trans hk)
      simpa using hrest
  · refine .switchBack (f := f) ?_ hrun hpc (s.hosted.mgr.apply_switchBack_running t f)
    rw [hswitch, hpc]
    rfl

/-- The step of a thread with a callback of the manager. -/
theorem thread_call (hrun : s.hosted.mgr.running t = none) (hnone : s.hosted.host t = .none)
    {pc' : ThreadPc} (h : ThreadStep s.hosted.mgr t (s.hosted.mgr.threads t) act pc') :
    StepCall this s t
      { s.hosted with mgr := (s.hosted.mgr.apply t noFiber act).setThread t pc' } := by
  have hswitch : s.switchCall this t = (s.hosted.mgr.threads t).switchCall t this := by
    simp only [SwitchState.switchCall, hrun, hnone, if_true]
  have hnever : ∀ k, s.hosted.mgr.running t ≠ some k := fun k hk => by
    cases hrun.symm.trans hk
  rcases h.call_cases this with ⟨hstay, hcalls⟩ | ⟨g, rfl, htarget, hcalls⟩
  · have hsame : (s.hosted.mgr.apply t noFiber act).running t = none := by
      rw [s.hosted.mgr.apply_running hstay, hrun]
    refine .stays (hswitch.trans hcalls) (hsame.trans hrun.symm) fun k hk => ?_
    cases hsame.symm.trans hk
  · refine .switchTo (hswitch.trans hcalls) ?_ (s.hosted.mgr.apply_switchTo_running t noFiber t g)
      (fun k hk => absurd hk (hnever k)) fun k hk => absurd hk (hnever k)
    simp [HostedState.switchTarget, ManagerState.switchTarget, hrun, hnone, htarget]

/-- The step of the own code of a thread that is set up. -/
theorem host_call (hi : SwitchInv opts this s) (hrun : s.hosted.mgr.running t = none)
    (hcode : s.hosted.host t ≠ .none) {pc' : HostPc}
    (h : HostStep opts s.hosted.mgr t (s.hosted.host t) act pc') :
    StepCall this s t
      ⟨s.hosted.mgr.apply t noFiber act, Function.update s.hosted.host t pc'⟩ := by
  have hswitch : s.switchCall this t = (s.hosted.host t).switchCall t this := by
    simp only [SwitchState.switchCall, hrun, if_neg hcode]
  have hnever : ∀ k, s.hosted.mgr.running t ≠ some k := fun k hk => by
    cases hrun.symm.trans hk
  rcases h.call_cases this with ⟨hstay, hcalls⟩ | ⟨fiber, g, hfiber, hown, rfl, htarget, hcalls⟩
  · have hback : (s.hosted.mgr.apply t noFiber act).running t = none := by
      rcases hstay with hstay | rfl
      · rw [s.hosted.mgr.apply_running hstay, hrun]
      · exact ManagerState.apply_switchBack_running ..
    refine .stays (hswitch.trans hcalls) (hback.trans hrun.symm) fun k hk => ?_
    cases hback.symm.trans hk
  · have htls : fiber.currentTLS t = t :=
      FiberState.currentTLS_of_ownTls (hi.host t fiber hfiber) (.inl hown)
    refine .switchTo (g := g) ?_ ?_ ?_ (fun k hk => absurd hk (hnever k))
      fun k hk => absurd hk (hnever k)
    · rw [hswitch, hcalls, htls]
    · rw [HostedState.switchTarget, if_pos ⟨hrun, hcode⟩, htarget]
    · exact s.hosted.mgr.apply_switchTo_running t noFiber (fiber.currentTLS t) g

/-- What a step of the manager is. -/
theorem stepCall (hi : SwitchInv opts this s) {a : ManagerAction}
    (hs : hostedStep opts setUp s.hosted a = some hosted) :
    StepFrame s.hosted hosted a.thread ∧ StepCall this s a.thread hosted ∧
      ∀ fiber, hosted.host a.thread = .code fiber → fiber.pc.ownTls = true →
        fiber.tls = a.thread := by
  rcases hostedStep_cases hs with ⟨hmgr, mgr, hmove, rfl⟩ | ⟨f, hrun, hpc, rfl⟩ |
      ⟨act, pc', hrun, hcode, h, rfl⟩
  · have hm := managerStep_moves hmove
    rcases managerStep_act hmove with ⟨f, act, pc', hrun, -, h, rfl⟩ |
      ⟨act, pc', hrun, -, h, rfl⟩
    · exact ⟨.of_moves hm (fun u _ => s.hosted.mgr.apply_threads ..) fun _ _ => rfl,
        hi.fiber_call hrun h, hi.host a.thread⟩
    · refine ⟨.of_moves hm (fun u hu => ?_) fun _ _ => rfl,
        thread_call hrun (hmgr.resolve_left fun hne => hne hrun) h, hi.host a.thread⟩
      rw [ManagerState.setThread_threads, Function.update_of_ne hu]
      exact s.hosted.mgr.apply_threads ..
  -- a main fiber starts without a main callback
  · refine ⟨.of_moves (.setFiber hrun) (fun _ _ => .inl rfl) fun _ _ => rfl, .stays ?_ rfl ?_,
      hi.host a.thread⟩
    · simp only [SwitchState.switchCall, hrun, hpc, FiberPc.switchCall]
    · intro g hg hown
      obtain rfl : f = g := Option.some.inj (hrun.symm.trans hg)
      rw [ManagerState.setFiber_fibers, Function.update_self]
  · refine ⟨.of_moves (h.stepMoves hrun) (fun u _ => s.hosted.mgr.apply_threads ..)
      fun u hu => Function.update_of_ne hu .., hi.host_call hrun hcode h, fun fiber hfiber => ?_⟩
    exact h.ownTls (hi.host a.thread) ((Function.update_self ..).symm.trans hfiber)

end Call

section Step

variable {t f : ℕ} {hosted : HostedState}

/-- A step of another thread gives thread `u` no fiber. -/
theorem has_of_ne (hi : SwitchInv opts this s) (hframe : StepFrame s.hosted s'.hosted t) {u : ℕ}
    (hut : u ≠ t) (hassigned : s'.assigned u = s.assigned u) (hf : s'.Has u f) : s.Has u f := by
  rcases hf with hrun | ⟨hu, htarget⟩
  · exact .inl ((hframe.running u hut).symm.trans hrun)
  · refine .inr ⟨hassigned ▸ hu, ?_⟩
    simp only [HostedState.switchTarget, ManagerState.switchTarget, hframe.running u hut,
      hframe.host u hut] at htarget ⊢
    cases hrun : s.hosted.mgr.running u with
    | some k =>
      have hk : s'.hosted.mgr.fibers k = s.hosted.mgr.fibers k :=
        hframe.fibers k fun ht => hut (hi.run_unique hrun ht)
      simpa [hrun, hk] using htarget
    | none =>
      rcases hframe.threads u hut with hsame | hret
      · simpa [hrun, hsame] using htarget
      -- its own code has returned
      · by_cases hhost : s.hosted.host u = .none
        · simp [hrun, hhost, hret, ThreadPc.switchTarget] at htarget
        · simpa [hrun, hhost] using htarget

/-- A step of thread `t` keeps the invariant, if it keeps it for the thread itself and touches no
object but that of a fiber that the thread then has. -/
theorem of_frame (hi : SwitchInv opts this s) (hthread : (s.fibers (.thread t)).threadFiber = true)
    (hframe : StepFrame s.hosted s'.hosted t)
    (hothers : ∀ u, u ≠ t → s'.context u = s.context u ∧ s'.assigned u = s.assigned u)
    (hobject : ∀ p, (s'.fibers p).fiber = (s.fibers p).fiber ∧
      (s'.fibers p).threadFiber = (s.fibers p).threadFiber)
    (hkept : ∀ g, ¬ s'.Has t g → s'.fibers (.pool g) = s.fibers (.pool g))
    (hcontext : s'.context t = some (s'.hosted.context t))
    (hhost : ∀ fiber, s'.hosted.host t = .code fiber → fiber.pc.ownTls = true → fiber.tls = t)
    (hmanager : ∀ f, (s'.hosted.mgr.fibers f).pc ≠ .start → s'.manager f = some this)
    (htls : ∀ f, s'.hosted.mgr.running t = some f → (s'.hosted.mgr.fibers f).pc.ownTls = true →
      (s'.hosted.mgr.fibers f).tls = t)
    (hself : ∀ f, s'.Has t f → (∀ u, s.Has u f → u = t) ∧
      (s'.fibers (.pool f)).returnFiber = some (.thread t) ∧
        (s'.fibers (.pool f)).userData = some this) : SwitchInv opts this s' := by
  have hother : ∀ u f, u ≠ t → s'.Has u f → s.Has u f := fun u f hut =>
    hi.has_of_ne hframe hut (hothers u hut).2
  -- what thread `t` has, no other thread has
  have hown : ∀ u f, u ≠ t → s'.Has u f → ¬ s'.Has t f := fun u f hut hu ht =>
    hut ((hself f ht).1 u (hother u f hut hu))
  refine ⟨fun f => (hobject _).1.trans (hi.pool f), fun u hu => ?_, fun u f hu => ?_,
    fun u v f hu hv => ?_, fun u f hu => ?_, fun f hf => ?_, fun u f hu => ?_, fun u fiber hu => ?_,
    hmanager⟩
  -- the threads and their contexts
  · rw [(hobject _).2] at hu
    obtain ⟨hfiber, hcurrent, hlt⟩ := hi.thread u hu
    refine ⟨(hobject _).1.trans hfiber, ?_, hlt⟩
    by_cases hut : u = t
    · exact hut ▸ hcontext
    · rw [(hothers u hut).1, hcurrent, HostedState.context, HostedState.context,
        hframe.running u hut]
  -- who has a fiber is a fiber itself
  · rw [(hobject _).2]
    by_cases hut : u = t
    · exact hut ▸ hthread
    · exact hi.converted u f (hother u f hut hu)
  -- no two threads have the same fiber
  · by_cases hut : u = t <;> by_cases hvt : v = t
    · rw [hut, hvt]
    · exact absurd (hut ▸ hu) (hown v f hvt hv)
    · exact absurd (hvt ▸ hv) (hown u f hut hu)
    · exact hi.alone u v f (hother u f hut hu) (hother v f hvt hv)
  -- what has been assigned
  · by_cases hut : u = t
    · subst hut
      exact (hself f hu).2
    · rw [hkept f (hown u f hut hu)]
      exact hi.entered u f (hother u f hut hu)
  -- the fibers that nobody executes
  · by_cases hleaves : s.hosted.mgr.running t = some f
    · exact hframe.left f hleaves (hf t)
    · rw [hframe.fibers f hleaves]
      refine hi.rest f fun u hu => ?_
      have hut : u ≠ t := fun hut => hleaves (hut ▸ hu)
      exact hf u ((hframe.running u hut).trans hu)
  -- the `TLS` pointers of the fibers
  · by_cases hut : u = t
    · subst hut
      exact htls f hu
    -- the fiber of another thread has not moved
    · rw [hframe.running u hut] at hu
      rw [hframe.fibers f fun ht => hut (hi.run_unique hu ht)]
      exact hi.tls u f hu
  -- the `TLS` pointers of the threads' own code
  · by_cases hut : u = t
    · subst hut
      exact hhost fiber hu
    · rw [hframe.host u hut] at hu
      exact hi.host u fiber hu

/-- The callback of a fiber that has started has read the manager. -/
theorem managerAfter (hi : SwitchInv opts this s) (hframe : StepFrame s.hosted hosted t)
    (hf : (hosted.mgr.fibers f).pc ≠ .start) : s.managerAfter t f = some this := by
  unfold SwitchState.managerAfter
  by_cases hrun : s.hosted.mgr.running t = some f
  · simp only [hrun]
    split
    · rw [Function.update_self]
      exact (hi.entered t f (.inl hrun)).2
    · next hstart => exact hi.manager f hstart
  · have hold : s.manager f = some this := hi.manager f (hframe.fibers f hrun ▸ hf)
    cases hg : s.hosted.mgr.running t with
    | none => exact hold
    | some g =>
      have hne : f ≠ g := fun hfg => hrun (hfg ▸ hg)
      by_cases hstart : (s.hosted.mgr.fibers g).pc = .start
      · simp only [if_pos hstart, Function.update_of_ne hne, hold]
      · simp only [if_neg hstart, hold]

/-- A callback that calls `SwitchTo` or `SwitchBack` has read it before. -/
theorem manager_of_started (hi : SwitchInv opts this s) (hframe : StepFrame s.hosted hosted t)
    (hstart : ∀ g, s.hosted.mgr.running t = some g → (s.hosted.mgr.fibers g).pc ≠ .start)
    (hf : (hosted.mgr.fibers f).pc ≠ .start) : s.manager f = some this := by
  by_cases hrun : s.hosted.mgr.running t = some f
  · exact hi.manager f (hstart f hrun)
  · exact hi.manager f (hframe.fibers f hrun ▸ hf)

/-- A thread that does not assign has what it executes. -/
theorem running_of_has (hassigned : s.assigned t = false) (hf : s.Has t f) :
    s.hosted.mgr.running t = some f := by
  rcases hf with hrun | ⟨ht, -⟩
  · exact hrun
  · cases hassigned.symm.trans ht

/-- A step that makes no call, so that its thread goes on with what it executes. -/
theorem stays (hi : SwitchInv opts this s) (hthread : (s.fibers (.thread t)).threadFiber = true)
    (hframe : StepFrame s.hosted hosted t)
    (hhost : ∀ fiber, hosted.host t = .code fiber → fiber.pc.ownTls = true → fiber.tls = t)
    (hrun : hosted.mgr.running t = s.hosted.mgr.running t)
    (htls : ∀ f, hosted.mgr.running t = some f → (hosted.mgr.fibers f).pc.ownTls = true →
      (hosted.mgr.fibers f).tls = t) :
    SwitchInv opts this
      { s with
        hosted
        assigned := Function.update s.assigned t false
        manager := s.managerAfter t } := by
  refine hi.of_frame hthread hframe (fun u hu => ⟨rfl, Function.update_of_ne hu ..⟩)
    (fun _ => ⟨rfl, rfl⟩) (fun _ _ => rfl) ?_ hhost (fun f => hi.managerAfter hframe) htls
    fun f hf => ?_
  · rw [(hi.thread t hthread).2.1, HostedState.context, HostedState.context, hrun]
  · have hold : s.Has t f := .inl (hrun.symm.trans (running_of_has (Function.update_self ..) hf))
    exact ⟨fun u hu => hi.alone u t f hu hold, hi.entered t f hold⟩

/-- The assignments of a `SwitchTo`, on the `_threadFiber` of the thread it is called on. -/
theorem assign (hi : SwitchInv opts this s) (hthread : (s.fibers (.thread t)).threadFiber = true)
    {g : ℕ} (htarget : s.hosted.switchTarget t = some g) (halone : ∀ u, ¬ s.Has u g)
    (returnFiber : ℕ → ℕ) :
    SwitchInv opts this
      { s with
        hosted := { s.hosted with mgr.returnFiber := returnFiber }
        fibers := s.fibers.enter (.thread t) (.pool g) (some this)
        assigned := Function.update s.assigned t true } := by
  refine hi.of_frame hthread
    ⟨fun _ _ => rfl, fun _ _ => rfl, fun f hrun hrun' => absurd hrun hrun', fun _ _ => .inl rfl,
      fun _ _ => rfl⟩
    (fun u hu => ⟨rfl, Function.update_of_ne hu ..⟩)
    (fun _ => ⟨Fibers.enter_fiber, Fibers.enter_threadFiber⟩) (fun k hk => ?_)
    (hi.thread t hthread).2.1 (hi.host t) hi.manager (hi.tls t) fun f hf => ?_
  · have hkg : k ≠ g := by
      rintro rfl
      exact hk (.inr ⟨Function.update_self .., htarget⟩)
    exact Fibers.enter_of_ne (by simpa using hkg)
  · by_cases hfg : f = g
    · subst hfg
      exact ⟨fun u hu => absurd hu (halone u), Fibers.enter_returnFiber, Fibers.enter_userData⟩
    · have hold : s.Has t f := by
        rcases hf with hrun | ⟨-, hf⟩
        · exact .inl hrun
        · exact absurd (Option.some.inj (hf.symm.trans htarget)) hfg
      have hsame : s.fibers.enter (.thread t) (.pool g) (some this) (.pool f) =
          s.fibers (.pool f) := Fibers.enter_of_ne (by simpa using hfg)
      simp only [hsame]
      exact ⟨fun u hu => hi.alone u t f hu hold, hi.entered t f hold⟩

/-- The `SwitchToFiber` of a `SwitchTo` that has made its assignments. -/
theorem switchToFiber (hi : SwitchInv opts this s)
    (hthread : (s.fibers (.thread t)).threadFiber = true) (hframe : StepFrame s.hosted hosted t)
    (hhost : ∀ fiber, hosted.host t = .code fiber → fiber.pc.ownTls = true → fiber.tls = t) {g : ℕ}
    (hg : s.Has t g) (hrun : hosted.mgr.running t = some g)
    (hstart : ∀ f, s.hosted.mgr.running t = some f → (s.hosted.mgr.fibers f).pc ≠ .start)
    (hleft : ∀ f, s.hosted.mgr.running t = some f → (hosted.mgr.fibers f).pc.atRest = true) :
    SwitchInv opts this
      { s with
        hosted := { hosted with mgr.returnFiber := s.hosted.mgr.returnFiber }
        context := Function.update s.context t (s.fibers (.pool g)).fiber
        assigned := Function.update s.assigned t false } := by
  have hframe' : StepFrame s.hosted
      { hosted with mgr.returnFiber := s.hosted.mgr.returnFiber } t :=
    ⟨hframe.running, hframe.fibers, hframe.left, hframe.threads, hframe.host⟩
  -- the fiber is at rest: no other thread executes it, and this one leaves it at rest
  have hrest : (hosted.mgr.fibers g).pc.atRest = true := by
    by_cases hold : s.hosted.mgr.running t = some g
    · exact hleft g hold
    · rw [hframe.fibers g hold]
      exact hi.rest g fun u hu => hold (hi.alone u t g (.inl hu) hg ▸ hu)
  refine hi.of_frame hthread hframe'
    (fun u hu => ⟨Function.update_of_ne hu .., Function.update_of_ne hu ..⟩) (fun _ => ⟨rfl, rfl⟩)
    (fun _ _ => rfl) ?_ hhost (fun f => hi.manager_of_started hframe' hstart) (fun f hf hown => ?_)
    fun f hf => ?_
  · simp only [Function.update_self, hi.pool, HostedState.context, hrun]
  · obtain rfl : g = f := Option.some.inj (hrun.symm.trans hf)
    rw [(FiberPc.ownTls_of_atRest hrest).1] at hown
    cases hown
  · obtain rfl : g = f :=
      Option.some.inj (hrun.symm.trans (running_of_has (Function.update_self ..) hf))
    exact ⟨fun u hu => hi.alone u t g hu hg, hi.entered t g hg⟩

/-- `SwitchBack` does not throw, and resumes the thread that executes the fiber. -/
theorem switchBack (hi : SwitchInv opts this s) (hrun : s.hosted.mgr.running t = some f) :
    s.fibers.switchBack (.pool f) = .ok (.converted t) :=
  Fibers.switchBack_of_returnFiber (hi.entered t f (.inl hrun)).1
    (hi.thread t (hi.converted t f (.inl hrun))).1

/-- A `SwitchBack`. -/
theorem switchesBack (hi : SwitchInv opts this s)
    (hthread : (s.fibers (.thread t)).threadFiber = true) (hframe : StepFrame s.hosted hosted t)
    (hhost : ∀ fiber, hosted.host t = .code fiber → fiber.pc.ownTls = true → fiber.tls = t)
    (hstart : ∀ f, s.hosted.mgr.running t = some f → (s.hosted.mgr.fibers f).pc ≠ .start)
    (hback : hosted.mgr.running t = none) :
    SwitchInv opts this
      { s with
        hosted
        context := Function.update s.context t (some (.converted t))
        assigned := Function.update s.assigned t false } := by
  refine hi.of_frame hthread hframe
    (fun u hu => ⟨Function.update_of_ne hu .., Function.update_of_ne hu ..⟩) (fun _ => ⟨rfl, rfl⟩)
    (fun _ _ => rfl) ?_ hhost (fun f => hi.manager_of_started hframe hstart) (fun f hf => ?_)
    fun f hf => ?_
  · simp only [Function.update_self, HostedState.context, hback]
  · cases hback.symm.trans hf
  · cases hback.symm.trans (running_of_has (Function.update_self ..) hf)

/-- `FromCurrentThread` keeps the invariant. -/
theorem fromCurrentThread (hi : SwitchInv opts this s) (hlt : t < opts.threadCount)
    (hnot : (s.fibers (.thread t)).threadFiber = false) :
    SwitchInv opts this
      { s with
        fibers := Function.update s.fibers (.thread t)
          ((s.fibers (.thread t)).fromCurrentThread t)
        context := Function.update s.context t (some (.converted t)) } := by
  have hnone : s.hosted.mgr.running t = none := by
    by_contra hne
    obtain ⟨f, hf⟩ := Option.ne_none_iff_exists'.mp hne
    rw [hi.converted t f (.inl hf)] at hnot
    cases hnot
  have hpool : ∀ f, Function.update s.fibers (.thread t)
      ((s.fibers (.thread t)).fromCurrentThread t) (.pool f) = s.fibers (.pool f) :=
    fun f => Function.update_of_ne (by simp) ..
  refine ⟨fun f => ?_, fun u hu => ?_, fun u f hu => ?_, hi.alone, fun u f hu => ?_, hi.rest,
    hi.tls, hi.host, hi.manager⟩
  · exact (congrArg Fiber.fiber (hpool f)).trans (hi.pool f)
  · by_cases hut : u = t
    · subst hut
      simp [HostedState.context, hnone, hlt]
    · have hne : FiberPtr.thread u ≠ .thread t := by simpa using hut
      simp only [Function.update_of_ne hne, Function.update_of_ne hut] at hu ⊢
      exact hi.thread u hu
  · have hold := hi.converted u f hu
    have hne : FiberPtr.thread u ≠ .thread t := by
      rintro ⟨⟩
      cases hnot.symm.trans hold
    simpa [hne] using hold
  · simp only [hpool]
    exact hi.entered u f hu

end Step

end SwitchInv

section Run

variable {opts : ManagerOptions} {setUp : ℕ → Bool} {this : ManagerPtr} {s s' : SwitchState}

/-- A call that does not throw keeps the invariant, and no call throws. -/
theorem SwitchInv.afterCall (hi : SwitchInv opts this s) {h : History SwitchState SwitchAction}
    {a : ManagerAction} (hapart : AssignsApart opts h s (.step a))
    (hthread : (s.fibers (.thread a.thread)).threadFiber = true) {hosted : HostedState}
    (hs : hostedStep opts setUp s.hosted a = some hosted) :
    ∃ s', s.afterCall a.thread hosted (s.switchCall this a.thread) = .ok s' ∧
      SwitchInv opts this s' ∧ (s.hosted.switchTarget a.thread = none → s'.hosted = hosted) := by
  obtain ⟨hframe, hcall, hhost⟩ := hi.stepCall hs
  cases hcall with
  | stays hcall hrun htls =>
    rw [hcall]
    exact ⟨_, rfl, hi.stays hthread hframe hhost hrun htls, fun _ => rfl⟩
  | @switchTo g hcall htarget hrun hstart hleft =>
    rw [hcall, SwitchState.afterCall]
    have hnot : s.hosted.switchTarget a.thread ≠ none := by simp [htarget]
    cases hassigned : s.assigned a.thread with
    | true =>
      exact ⟨_, rfl, hi.switchToFiber hthread hframe hhost (.inr ⟨hassigned, htarget⟩) hrun hstart
        hleft, fun hnone => absurd hnone hnot⟩
    | false =>
      have halone : ∀ u, ¬ s.Has u g := fun u hu =>
        hapart hassigned g htarget u (hi.lt_of_has hu) hu
      rw [if_neg Bool.false_ne_true, Fibers.switchTo_of_fiber (hi.pool g)]
      exact ⟨_, rfl, hi.assign hthread htarget halone _, fun hnone => absurd hnone hnot⟩
  | @switchBack f hcall hrun hpc hback =>
    rw [hcall, SwitchState.afterCall, hi.switchBack hrun]
    refine ⟨_, rfl, hi.switchesBack hthread hframe hhost (fun g hg => ?_) hback, fun _ => rfl⟩
    obtain rfl : f = g := Option.some.inj (hrun.symm.trans hg)
    rw [hpc]
    nofun

/-- Every step keeps the invariant that does not assign what a thread has. -/
theorem SwitchInv.step (hi : SwitchInv opts this s) {h : History SwitchState SwitchAction}
    {a : SwitchAction} (hapart : AssignsApart opts h s a)
    (hs : switchStep opts setUp this s a = some s') : SwitchInv opts this s' := by
  cases a with
  | fromCurrentThread t =>
    simp only [switchStep] at hs
    split at hs
    · next hnew =>
      cases hs
      exact hi.fromCurrentThread hnew.1 hnew.2
    · cases hs
  | step a =>
    simp only [switchStep] at hs
    split at hs
    · next hthread =>
      obtain ⟨hosted, hstep, hcall⟩ := Option.bind_eq_some_iff.mp hs
      obtain ⟨s'', hok, hi', -⟩ := hi.afterCall hapart hthread hstep
      rw [hok] at hcall
      cases hcall
      exact hi'
    · cases hs

theorem SwitchInv.start (opts : ManagerOptions) (setUp : ℕ → Bool) (this : ManagerPtr)
    (jobs : JobPriority → List JobInfo) (values : CtrId → CounterUnit) :
    SwitchInv opts this (.start opts setUp jobs values) := by
  have hnone : ∀ t f, ¬ (SwitchState.start opts setUp jobs values).Has t f := by
    rintro t f (hrun | ⟨hassigned, -⟩)
    · cases hrun
    · cases hassigned
  refine ⟨fun _ => rfl, fun _ => nofun, fun t f hf => absurd hf (hnone t f),
    fun t _ f hf => absurd hf (hnone t f), fun t f hf => absurd hf (hnone t f), fun _ _ => rfl,
    fun _ _ => nofun, fun t fiber hfiber => ?_, fun _ hf => absurd rfl hf⟩
  simp only [SwitchState.start, HostedState.start] at hfiber
  split at hfiber <;> cases hfiber

/-- It holds in every state of every such run. -/
theorem switchInv_of_run {h : History SwitchState SwitchAction}
    (hr : (switchSystem opts setUp this).Run (AssignsApart opts) h s) : SwitchInv opts this s := by
  refine hr.invariant (P := fun _ s => SwitchInv opts this s) ?_
    fun _ _ _ _ _ hi hok hs => hi.step hok hs
  rintro s ⟨jobs, values, rfl⟩
  exact .start opts setUp this jobs values

end Run

/-! ## Switching back -/

/-- In every run in which no `SwitchTo` makes its assignments for a fiber that a thread executes, or
has made them for, wherever the fibers have been executed before: no fiber is executed by two
threads; the fiber that a thread executes comes back to the `_threadFiber` of that thread,
its user data is the manager, and `SwitchBack` does not throw, but goes on with the thread's own
context, from that of the fiber. -/
theorem switchBack_to_own_thread {opts : ManagerOptions} {setUp : ℕ → Bool} {this : ManagerPtr}
    {h : History SwitchState SwitchAction} {s : SwitchState}
    (hr : (switchSystem opts setUp this).Run (AssignsApart opts) h s) :
    ExecutedOnce opts s ∧ ∀ t f, s.hosted.mgr.running t = some f →
      (s.fibers (.pool f)).returnFiber = some (.thread t) ∧
        (s.fibers (.pool f)).userData = some this ∧
        s.fibers.switchBack (.pool f) = .ok (.converted t) ∧
        s.context t = some (.created (.pool f)) := by
  have hi := switchInv_of_run hr
  refine ⟨fun t _ u _ f ht hu => hi.run_unique ht hu, fun t f hrun => ?_⟩
  obtain ⟨hreturn, hdata⟩ := hi.entered t f (.inl hrun)
  refine ⟨hreturn, hdata, hi.switchBack hrun, ?_⟩
  rw [(hi.thread t (hi.converted t f (.inl hrun))).2.1, HostedState.context, hrun]

/-- The main callback waits for a job, and thread 0 goes on with fiber 1. -/
def mainLeaves : List ManagerAction :=
  threadSteps 0 8 ++ [⟨0, .op (.waitForSingle .normal (some 7) 0)⟩, ⟨0, .call 0⟩] ++
    threadSteps 0 7 ++ [⟨0, .address 1⟩, ⟨0, .call 1⟩] ++ threadSteps 0 23

/-- Thread 1 executes the job of the main callback, which goes on there, and returns. -/
def mainMigrates : List SwitchAction :=
  [.fromCurrentThread 0, .fromCurrentThread 1] ++
    (mainLeaves ++ threadSteps 1 14 ++ executeJob 1 ++ threadSteps 1 15 ++
      (⟨1, .op .finish⟩ :: threadSteps 1 1)).map .step

/-- The main fiber is about to switch back, to thread 1. -/
theorem switchBack_to_own_thread_main :
    ∃ h s, (switchSystem ⟨2, 3, true⟩ (fun _ => false) 1).Run (AssignsApart ⟨2, 3, true⟩) h s ∧
      (s.hosted.mgr.fibers 0).pc = .switchBack ∧
        (s.fibers (.pool 0)).returnFiber = some (.thread 1) ∧
          s.fibers.switchBack (.pool 0) = .ok (.converted 1) := by
  have hrun : ∃ (h : History SwitchState SwitchAction) (s : SwitchState),
      (switchSystem ⟨2, 3, true⟩ (fun _ => false) 1).Run (AssignsApart ⟨2, 3, true⟩) h s ∧
        s.hosted.mgr.running 1 = some 0 ∧ (s.hosted.mgr.fibers 0).pc = .switchBack :=
    System.exists_run_of_trace ⟨fun _ => [], fun _ => 0, rfl⟩ mainMigrates (by decide +kernel)
  obtain ⟨h, s, hr, hrun, hpc⟩ := hrun
  obtain ⟨hreturn, -, hback, -⟩ := (switchBack_to_own_thread hr).2 1 0 hrun
  exact ⟨h, s, hr, hpc, hreturn, hback⟩

/-- Fiber 1 executes the job on thread 0, and the main callback goes on there. It waits for a second
job, and has its hand-off in the `TLS` when thread 1 resumes fiber 1, which takes the hand-off for
its own. Fiber 1 executes the job, and makes the assignments of a `SwitchTo` for the main fiber. -/
def mainOverwritten : List SwitchAction :=
  [.fromCurrentThread 0, .fromCurrentThread 1] ++
    (mainLeaves ++ threadSteps 0 4 ++ executeJob 0 ++ threadSteps 0 15 ++ threadSteps 1 1 ++
      waitsAgain ++ threadSteps 1 4 ++ executeJob 1 ++ threadSteps 1 9).map .step

/-- Thread 0 executes the main fiber, which would switch back to thread 1, in a run in which no
fiber is executed by two threads. -/
theorem returnFiber_overwritten :
    ∃ h s, (switchSystem twoWorkers (fun _ => false) 1).Run
        (fun _ s _ => ExecutedOnce twoWorkers s) h s ∧ ExecutedOnce twoWorkers s ∧
      s.hosted.mgr.running 0 = some 0 ∧ (s.fibers (.pool 0)).returnFiber = some (.thread 1) ∧
        s.fibers.switchBack (.pool 0) = .ok (.converted 1) :=
  System.exists_run_of_trace ⟨fun _ => [], fun _ => 0, rfl⟩ mainOverwritten (by decide +kernel)

/-- No call throws in a run of the first kind: every step of the manager can be taken with its
objects, as a whole or, if it is a `SwitchTo`, in parts. -/
theorem switchStep_of_hostedStep {opts : ManagerOptions} {setUp : ℕ → Bool} {this : ManagerPtr}
    {h : History SwitchState SwitchAction} {s : SwitchState}
    (hr : (switchSystem opts setUp this).Run (AssignsApart opts) h s) {a : ManagerAction}
    (hapart : AssignsApart opts h s (.step a)) {hosted : HostedState}
    (hthread : (s.fibers (.thread a.thread)).threadFiber = true)
    (hs : hostedStep opts setUp s.hosted a = some hosted) :
    ∃ s', switchStep opts setUp this s (.step a) = some s' ∧
      (s.hosted.switchTarget a.thread = none → s'.hosted = hosted) := by
  obtain ⟨s', hcall, -, hwhole⟩ := (switchInv_of_run hr).afterCall hapart hthread hs
  refine ⟨s', ?_, hwhole⟩
  simp only [switchStep, hthread, if_true, hs, Option.bind_some, hcall, Except.toOption]

end NomadTasks
