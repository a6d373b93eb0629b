import NomadTasks.Manager.Step

/-!
# Readied fibers are resumed

`CheckWaitingFibers` puts the fiber that it wakes into the ready list of the thread it runs on.
A worker thread goes through its ready list in `GetNextJob`; the IO thread returns from
`GetNextJob` before it would.

* `ready_fiber_resumable`: the ready fibers of all threads can be resumed exactly as long as no
  scan has readied a fiber on the IO thread.
* `io_ready_fiber_stranded`: a program whose IO job readies a fiber that nobody resumes.
-/

namespace NomadTasks

open Transition

/-! ## The property -/

/-- Fiber `f` has called `GetNextJob` on thread `t` and has not left it yet. -/
def InGetNextJob (t f : ℕ) (s : ManagerState) : Prop :=
  s.running t = some f ∧ ∃ pc, (s.fibers f).pc = .getNextJob pc

/-- Fiber `f` has switched to a fiber of `ready` in `GetNextJob`. -/
def SwitchedToReady (t f : ℕ) (ready : List ReadyFiber) (s : ManagerState) : Prop :=
  (s.fibers f).pc = .getNextJob .parked ∧ ∃ g p, (g, p) ∈ ready ∧ s.running t = some g

/-- Entry `e` of the ready list of thread `t` can be resumed: a `GetNextJob` call on the thread,
made with this ready list when the high priority queue is empty and the entry's flag is set,
switches to a ready fiber, whatever its own steps leave open. -/
def Resumable (opts : ManagerOptions) (s : ManagerState) (t : ℕ) (e : ReadyFiber) : Prop :=
  ∀ (f : ℕ) (s' : ManagerState), (s'.tls t).readyFibers = (s.tls t).readyFibers →
    s'.running t = some f → s'.fibers f = ⟨t, .getNextJob .isIo⟩ → s'.jobs .high = [] →
    s'.flags e.2 = some true →
    (managerSystem opts).Inevitable (fun a => a.thread = t) (InGetNextJob t f)
      (SwitchedToReady t f (s.tls t).readyFibers) s'

/-- The step puts a fiber into the ready list of the IO thread: it is the `emplace_back` of a
`CheckWaitingFibers` that runs there. -/
def readiesOnIo (opts : ManagerOptions) (s : ManagerState) (a : ManagerAction) : Bool :=
  opts.isIo a.thread &&
    match s.running a.thread with
    | some f =>
        match (s.fibers f).pc with
        | .call _ c x => !((s.counters c).readied (.step x)).isEmpty
        | _ => false
    | none => false

/-! ## `GetNextJob` on a worker thread -/

section GetNextJob

variable {opts : ManagerOptions} {t f : ℕ}

/-- A step of `GetNextJob` by the fiber that thread `t` executes. -/
theorem managerStep_getNextJob (opts : ManagerOptions) {s : ManagerState} {pc : NextJobPc}
    (hrun : s.running t = some f) (hpc : s.fibers f = ⟨t, .getNextJob pc⟩) (choice : Choice) :
    managerStep opts s ⟨t, choice⟩ =
      some ((s.apply t f (pc.next opts s t choice).1).setFiber f
        ⟨t, (pc.next opts s t choice).2⟩) := by
  rw [managerStep, hrun]
  simp only [hpc]
  rfl

variable (opts t f) in
/-- A `GetNextJob` call of fiber `f` on thread `t` inevitably switches to a fiber of the list. -/
def WillSwitch (ready : List ReadyFiber) (s : ManagerState) : Prop :=
  (managerSystem opts).Inevitable (fun a => a.thread = t) (InGetNextJob t f)
    (SwitchedToReady t f ready) s

variable {ready : List ReadyFiber} {s : ManagerState}

/-- A step of `GetNextJob` that does not depend on the choice. -/
theorem WillSwitch.of_step (pc : NextJobPc) (act : Act) (pc' : FiberPc)
    (hrun : s.running t = some f) (hpc : s.fibers f = ⟨t, .getNextJob pc⟩)
    (hnext : ∀ choice, pc.next opts s t choice = (act, pc'))
    (h : WillSwitch opts t f ready ((s.apply t f act).setFiber f ⟨t, pc'⟩)) :
    WillSwitch opts t f ready s := by
  refine System.Inevitable.of_step ⟨hrun, pc, by rw [hpc]⟩ ⟨⟨t, .succeed⟩, rfl⟩ (fun a ha => ?_) h
  obtain ⟨u, choice⟩ := a
  obtain rfl : t = u := ha.symm
  have hs := managerStep_getNextJob opts hrun hpc choice
  rwa [hnext choice] at hs

/-- After it has chosen an entry, the call switches to the entry's fiber. -/
theorem willSwitch_of_erase {k g : ℕ} {p : FlagPtr} (hmem : (g, p) ∈ ready)
    (hrun : s.running t = some f) (hpc : s.fibers f = ⟨t, .getNextJob (.erase k g)⟩) :
    WillSwitch opts t f ready s := by
  refine .of_step _ _ _ hrun hpc (fun _ => rfl) ?_
  refine .of_step (.setPrevious g) _ _ hrun (Function.update_self ..) (fun _ => rfl) ?_
  refine .of_step (.setDestination g) _ _ hrun (Function.update_self ..) (fun _ => rfl) ?_
  refine .of_step (.setCurrent g) _ _ hrun (Function.update_self ..) (fun _ => rfl) ?_
  refine .of_step (.switchTo g) _ _ hrun (Function.update_self ..) (fun _ => rfl) ?_
  exact .now ⟨by simp [ManagerState.setFiber], g, p, hmem, by
    simp [ManagerState.setFiber, ManagerState.apply]⟩

/-- The loop over the ready list finds an entry, if one from the current position on is set. -/
theorem willSwitch_of_readyFiber {e : ReadyFiber} :
    ∀ (d k : ℕ) (s : ManagerState), (s.tls t).readyFibers[k + d]? = some e →
      s.flags e.2 = some true → s.running t = some f →
      s.fibers f = ⟨t, .getNextJob (.readyFiber k)⟩ →
      WillSwitch opts t f (s.tls t).readyFibers s
  | d, k, s, hd, hflag, hrun, hpc => by
    have hlt : k < (s.tls t).readyFibers.length := by
      have := (List.getElem?_eq_some_iff.mp hd).1
      omega
    obtain ⟨⟨g, p⟩, hk⟩ : ∃ x, (s.tls t).readyFibers[k]? = some x :=
      ⟨_, List.getElem?_eq_getElem hlt⟩
    have hmem : (g, p) ∈ (s.tls t).readyFibers := List.mem_of_getElem? hk
    refine .next ⟨hrun, _, by rw [hpc]⟩
      ⟨⟨t, .succeed⟩, _, rfl, managerStep_getNextJob opts hrun hpc .succeed⟩ ?_
    rintro ⟨u, choice⟩ s' hu hs
    obtain rfl : t = u := hu.symm
    obtain rfl := Option.some.inj ((managerStep_getNextJob opts hrun hpc choice).symm.trans hs)
    by_cases hload : s.loadStored p choice = true
    · -- this entry is taken, whether it is `e` or an earlier one
      have hnext : NextJobPc.next opts s t choice (.readyFiber k) =
          (.none, .getNextJob (.erase k g)) := by
        simp [NextJobPc.next, hk, hload]
      rw [hnext]
      exact willSwitch_of_erase hmem hrun (Function.update_self ..)
    · have hnext : NextJobPc.next opts s t choice (.readyFiber k) =
          (.none, .getNextJob (.readyFiber (k + 1))) := by
        simp [NextJobPc.next, hk, hload]
      rw [hnext]
      match d with
      | 0 =>
        obtain rfl : (g, p) = e := Option.some.inj (hk.symm.trans hd)
        simp [ManagerState.loadStored, hflag] at hload
      | d + 1 =>
        exact willSwitch_of_readyFiber d (k + 1)
          ((s.apply t f .none).setFiber f ⟨t, .getNextJob (.readyFiber (k + 1))⟩)
          (by rwa [Nat.add_right_comm]) hflag hrun (Function.update_self ..)

/-- On a worker thread every entry can be resumed. -/
theorem resumable_of_worker (hio : opts.isIo t = false) {e : ReadyFiber}
    (he : e ∈ (s.tls t).readyFibers) : Resumable opts s t e := by
  intro f s' hready hrun hpc hhigh hflag
  obtain ⟨d, hd⟩ := List.mem_iff_getElem?.mp he
  rw [← hready]
  refine WillSwitch.of_step .isIo .none (.getNextJob .dequeueHigh) hrun hpc
    (fun _ => by simp [NextJobPc.next, hio]) ?_
  refine WillSwitch.of_step .dequeueHigh .none (.getNextJob (.readyFiber 0)) hrun
    (Function.update_self ..) (fun choice => ?_) ?_
  · have hnone : (s'.apply t f .none).jobs .high = [] := hhigh
    simp [NextJobPc.next, ManagerState.dequeue, ManagerState.setFiber, hnone]
  · exact willSwitch_of_readyFiber d 0
      ((((s'.apply t f .none).setFiber f ⟨t, .getNextJob .dequeueHigh⟩).apply t f .none).setFiber f
        ⟨t, .getNextJob (.readyFiber 0)⟩)
      (by rw [Nat.zero_add]; exact hready ▸ hd) hflag hrun (Function.update_self ..)

/-- On the IO thread no entry can be resumed: the call returns without a look at the list. -/
theorem not_resumable_of_io (hio : opts.isIo t = true) {e : ReadyFiber} :
    ¬ Resumable opts s t e := by
  intro h
  let s₀ : ManagerState :=
    { s with
      running := Function.update s.running t (some 0)
      fibers := Function.update s.fibers 0 ⟨t, .getNextJob .isIo⟩
      jobs := Function.update s.jobs .high []
      flags := Function.update s.flags e.2 (some true) }
  -- an empty IO queue: the call sleeps and returns without a look at the ready list
  have hrun : s₀.running t = some 0 := Function.update_self ..
  have hpc : s₀.fibers 0 = ⟨t, .getNextJob .isIo⟩ := by simp [s₀]
  have hcall := h 0 s₀ rfl hrun hpc (by simp [s₀]) (by simp [s₀])
  have hs₁ := managerStep_getNextJob opts hrun hpc .fail
  have hnext : NextJobPc.next opts s₀ t .fail .isIo = (.none, .getNextJob .dequeueIo) := by
    simp [NextJobPc.next, hio]
  rw [hnext] at hs₁
  have hcall₁ := hcall.step (by simp [SwitchedToReady, hpc]) rfl hs₁
  have hpc₁ : ((s₀.apply t 0 .none).setFiber 0 ⟨t, .getNextJob .dequeueIo⟩).fibers 0 =
      ⟨t, .getNextJob .dequeueIo⟩ := by simp
  have hs₂ := managerStep_getNextJob opts
    (s := (s₀.apply t 0 .none).setFiber 0 ⟨t, .getNextJob .dequeueIo⟩) hrun hpc₁ .fail
  have hnext₂ : ∀ s : ManagerState, NextJobPc.next opts s t .fail .dequeueIo =
      (.none, .sleepFor) := fun s => by simp [NextJobPc.next, ManagerState.dequeue]
  rw [hnext₂] at hs₂
  have hcall₂ := hcall₁.step (by simp [SwitchedToReady]) rfl hs₂
  have hleft := hcall₂.of_not (by simp [InGetNextJob, ManagerState.setFiber])
  simp [SwitchedToReady, ManagerState.setFiber] at hleft

end GetNextJob

/-! ## Where the scans put the fibers -/

/-- The fiber is in the part of `GetNextJob` that only worker threads come to. -/
def FiberPc.onWorker : FiberPc → Bool
  | .getNextJob .isIo | .getNextJob .dequeueIo => false
  | .getNextJob _ | .cleanup _ .getNextJob => true
  | _ => false

/-- A fiber comes to that part with the `TLS` of a worker thread. -/
theorem FiberStep.onWorker {opts : ManagerOptions} {s : ManagerState} {f tls : ℕ} {act : Act}
    {pc pc' : FiberPc} (h : FiberStep opts s f tls pc act pc')
    (hpc : pc.onWorker = true → opts.isIo tls = false) (hpc' : pc'.onWorker = true) :
    opts.isIo tls = false := by
  cases h with
  | @previousPool k _ | @previousWaiting k _ | @storeIdle k | @storeStored k =>
    cases k <;> first | exact hpc rfl | cases hpc'
  | isNotIo hio => exact hio
  | nothingNext | cleanupNext | noHigh | noNormal | readyEnd | readySkip | readyTake | erase
  | nextSetPrevious | nextSetDestination | nextSetCurrent | nextSwitchTo | nextResumed =>
    exact hpc rfl
  | _ => cases hpc'

/-- The entries that an action puts into the ready list of the thread that takes it. -/
def Act.readied (s : ManagerState) : Act → List ReadyFiber
  | .counter c a => (s.counters c).readied a
  | _ => []

/-- The ready list of a thread that erases nothing grows by what its own steps put into it. -/
theorem readyFibers_apply (s : ManagerState) (t f : ℕ) {act : Act} (u : ℕ)
    (herase : ∀ k, act ≠ .erase u k) :
    ((s.apply t f act).tls u).readyFibers =
      (s.tls u).readyFibers ++ if u = t then act.readied s else [] := by
  cases act with
  | writeTls tls w =>
    by_cases hu : u = tls
    · subst hu
      cases w <;> simp [ManagerState.apply, TLS.write, Act.readied]
    · simp [ManagerState.apply, hu, Act.readied]
  | erase tls k =>
    have hu : u ≠ tls := by
      rintro rfl
      exact herase k rfl
    simp [ManagerState.apply, hu, Act.readied]
  -- a scan adds to the list of the thread that executes it
  | counter c a =>
    by_cases hu : u = t
    · subst hu
      simp [ManagerState.apply, Act.readied]
    · simp [ManagerState.apply, hu]
  | endWait caller | throwThrough caller =>
    cases caller <;> simp [ManagerState.apply, Act.readied]
  | _ => simp [ManagerState.apply, Act.readied]

/-- Only a scan readies a fiber. -/
theorem FiberStep.readiesOnIo {opts : ManagerOptions} {s : ManagerState} {a : ManagerAction}
    {f tls : ℕ} {act : Act} {pc pc' : FiberPc} (h : FiberStep opts s f tls pc act pc')
    (hrun : s.running a.thread = some f) (hpc : (s.fibers f).pc = pc) :
    NomadTasks.readiesOnIo opts s a = (opts.isIo a.thread && !(act.readied s).isEmpty) := by
  cases h with
  | call hx => simp [NomadTasks.readiesOnIo, hrun, hpc, Act.readied]
  | begin hx =>
    rename_i use c x
    cases use <;> simp [NomadTasks.readiesOnIo, hrun, hpc, Act.readied, CounterState.readied,
      CounterUse.action]
  | incremented hx | addThrew hx | modified hx | decremented hx =>
    simp [NomadTasks.readiesOnIo, hrun, hpc, Act.readied,
      CounterState.readied_of_not_inProgress hx]
  | addReached hx | addWaits hx =>
    simp [NomadTasks.readiesOnIo, hrun, hpc, Act.readied, CounterState.readied, hx,
      CounterCall.next, AddPc.next]
  | _ => simp [NomadTasks.readiesOnIo, hrun, hpc, Act.readied]

/-- The fibers in the worker part of `GetNextJob` have the `TLS` of a worker thread, and the ready
list of the IO thread is empty exactly as long as no step has put a fiber into it. -/
structure IoInv (opts : ManagerOptions) (h : History ManagerState ManagerAction)
    (s : ManagerState) : Prop where
  onWorker : ∀ f, (s.fibers f).pc.onWorker = true → opts.isIo (s.fibers f).tls = false
  io_empty : (∀ t, opts.isIo t = true → (s.tls t).readyFibers = []) ↔
    ∀ e ∈ h, readiesOnIo opts e.1 e.2 = false

namespace IoInv

variable {opts : ManagerOptions} {h : History ManagerState ManagerAction} {s : ManagerState}
  {a : ManagerAction}

/-- The list of the IO thread after a step that erases nothing from it. -/
private theorem io_empty_step (hi : IoInv opts h s) {f : ℕ} {act : Act}
    (herase : ∀ u k, opts.isIo u = true → act ≠ .erase u k)
    (hio : readiesOnIo opts s a = (opts.isIo a.thread && !(act.readied s).isEmpty)) :
    (∀ t, opts.isIo t = true → ((s.apply a.thread f act).tls t).readyFibers = []) ↔
      ∀ e ∈ (s, a) :: h, readiesOnIo opts e.1 e.2 = false := by
  simp only [List.forall_mem_cons, ← hi.io_empty, hio, Bool.and_eq_false_iff,
    Bool.not_eq_false', List.isEmpty_iff]
  -- the ready list of a thread is empty after the step if it was, and nothing is added
  constructor
  · intro hall
    refine ⟨?_, fun t ht => ?_⟩
    · cases ht : opts.isIo a.thread with
      | false => exact .inl rfl
      | true =>
        have := hall a.thread ht
        rw [readyFibers_apply _ _ _ _ fun k => herase _ k ht, if_pos rfl] at this
        exact .inr (List.append_eq_nil_iff.mp this).2
    · have := hall t ht
      rw [readyFibers_apply _ _ _ _ fun k => herase _ k ht] at this
      exact (List.append_eq_nil_iff.mp this).1
  · rintro ⟨hstep, hold⟩ t ht
    rw [readyFibers_apply _ _ _ _ fun k => herase _ k ht, hold t ht, List.nil_append]
    split
    case isTrue hta =>
      rw [← hta, ht] at hstep
      exact hstep.resolve_left (by simp)
    case isFalse => rfl

/-- Every step keeps the invariant. -/
theorem step (hi : IoInv opts h s) {s' : ManagerState} (hs : managerStep opts s a = some s') :
    IoInv opts ((s, a) :: h) s' := by
  rcases managerStep_inv hs with
    ⟨f, pc, act, pc', hrun, hpc, hstep, rfl⟩ | ⟨pc, act, pc', hrun, hpc, hstep, rfl⟩
  -- a call of `GetNextJob` on a worker stays on workers, its `TLS` read before
  · have hown : pc.onWorker = true → opts.isIo ((s.fibers f).currentTLS a.thread) = false := by
      intro hw
      have hget : pc.getsCurrentTLS = false := by
        cases pc <;> simp_all [FiberPc.onWorker, FiberPc.getsCurrentTLS]
      rw [FiberState.currentTLS, hpc, if_neg (by simp [hget])]
      exact hi.onWorker f (hpc ▸ hw)
    refine ⟨fun g hg => ?_, ?_⟩
    · by_cases hgf : g = f
      · subst hgf
        simp only [ManagerState.setFiber_fibers, Function.update_self] at hg ⊢
        exact hstep.onWorker hown hg
      · simp only [ManagerState.setFiber_fibers, Function.update_of_ne hgf,
          ManagerState.apply_fibers] at hg ⊢
        exact hi.onWorker g hg
    · refine hi.io_empty_step (fun u k hu hact => ?_) (hstep.readiesOnIo hrun hpc)
      subst hact
      cases hstep
      simp [hown rfl] at hu
  · have hno : readiesOnIo opts s a = false := by simp [readiesOnIo, hrun]
    refine ⟨fun g hg => ?_, ?_⟩
    · simp only [ManagerState.setThread_fibers, ManagerState.apply_fibers] at hg ⊢
      exact hi.onWorker g hg
    · refine hi.io_empty_step (fun u k hu hact => ?_) ?_
      · subst hact
        cases hstep
      · rw [hno]
        cases hstep <;> simp [Act.readied]

end IoInv

/-- Every readied fiber can be resumed. -/
def EveryReadyResumable (opts : ManagerOptions) (s : ManagerState) : Prop :=
  ∀ t, ∀ e ∈ (s.tls t).readyFibers, Resumable opts s t e

/-- In every run, every entry of every ready list can be resumed exactly as long as no scan has
readied a fiber on the IO thread. -/
theorem ready_fiber_resumable {opts : ManagerOptions} {h : History ManagerState ManagerAction}
    {s : ManagerState} (hr : (managerSystem opts).Run (fun _ _ _ => True) h s) :
    EveryReadyResumable opts s ↔ ∀ e ∈ h, readiesOnIo opts e.1 e.2 = false := by
  have hinv : IoInv opts h s := by
    refine hr.invariant (fun s hs => ?_) fun h s a s' _ hi _ hs => hi.step hs
    subst hs
    exact ⟨(fun f hf => nomatch hf), iff_of_true (fun _ _ => rfl) (by simp)⟩
  rw [← hinv.io_empty]
  constructor
  · intro hall t ht
    refine List.eq_nil_iff_forall_not_mem.mpr fun e he => ?_
    exact not_resumable_of_io ht (hall t e he)
  · intro hempty t e he
    cases ht : opts.isIo t with
    | false => exact resumable_of_worker ht he
    | true => simp [hempty t ht] at he

/-! ## A job on a worker thread, and on the IO thread -/

/-- The main callback waits for a job of the given priority, on thread 0 and with call names and
flag 1; fiber 1 takes over the thread and cleans up. -/
def mainWaitsFor (prio : JobPriority) : List ManagerAction :=
  threadSteps 0 7 ++ [⟨0, .op (.waitForSingle prio (some 7) 0)⟩, ⟨0, .call 0⟩] ++
    threadSteps 0 7 ++ [⟨0, .address 1⟩, ⟨0, .call 1⟩] ++ threadSteps 0 22

/-- Thread `t` takes the job, calls its delegate and decrements the counter, from the point before
the job is taken. -/
def executeJob (t : ℕ) : List ManagerAction :=
  threadSteps t 2 ++ [⟨t, .op .finish⟩, ⟨t, .call 2⟩] ++ threadSteps t 11

/-- One worker thread besides the IO thread, and three fibers. -/
def oneWorker : ManagerOptions := ⟨1, 3, false⟩

theorem ready_fiber_resumable_worker :
    ∃ h s, (managerSystem oneWorker).Run (fun _ _ _ => True) h s ∧
      (s.tls 0).readyFibers = [(0, 1)] ∧ EveryReadyResumable oneWorker s := by
  have hrun : ∃ (h : History ManagerState ManagerAction) (s : ManagerState),
      (managerSystem oneWorker).Run (fun _ _ _ => True) h s ∧ (s.tls 0).readyFibers = [(0, 1)] ∧
        ∀ e ∈ h, readiesOnIo oneWorker e.1 e.2 = false :=
    System.exists_run_of_trace_by (managerStepEval_eq _) rfl
      (mainWaitsFor .normal ++ threadSteps 0 4 ++ executeJob 0) (by decide +kernel)
  obtain ⟨h, s, hr, hready, hio⟩ := hrun
  exact ⟨h, s, hr, hready, (ready_fiber_resumable hr).mpr hio⟩

/-- An IO job decrements the counter that the main callback waits for: the fiber of the main
callback is in the ready list of the IO thread and stored, the high priority queue is empty, the IO
thread has called `GetNextJob`, and no call on this thread will resume the fiber. -/
theorem io_ready_fiber_stranded :
    ∃ s, (managerSystem oneWorker).Reachable s ∧ (s.tls 1).readyFibers = [(0, 1)] ∧
      s.flags 1 = some true ∧ s.jobs .high = [] ∧ s.running 1 = some 2 ∧
      s.fibers 2 = ⟨1, .getNextJob .isIo⟩ ∧ ¬ EveryReadyResumable oneWorker s := by
  have hrun : ∃ (h : History ManagerState ManagerAction) (s : ManagerState),
      (managerSystem oneWorker).Run (fun _ _ _ => True) h s ∧ (s.tls 1).readyFibers = [(0, 1)] ∧
        s.flags 1 = some true ∧ s.jobs .high = [] ∧ s.running 1 = some 2 ∧
        s.fibers 2 = ⟨1, .getNextJob .isIo⟩ :=
    System.exists_run_of_trace_by (managerStepEval_eq _) rfl
      (mainWaitsFor .io ++ threadSteps 1 11 ++ executeJob 1 ++ threadSteps 1 1)
      (by decide +kernel)
  obtain ⟨h, s, hr, hready, hflag, hhigh, hrun, hpc⟩ := hrun
  refine ⟨s, hr.reachable, hready, hflag, hhigh, hrun, hpc, fun hall => ?_⟩
  exact not_resumable_of_io (by decide) (hall 1 (0, 1) (by simp [hready]))

end NomadTasks
