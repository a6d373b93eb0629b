import NomadTasks.Manager.CounterCalls
import NomadTasks.Manager.Exclusive

/-!
# A `ScheduleJob` that fails

`ScheduleJob` increments the counter of the job before it enqueues the job. When the enqueue fails
the exception leaves the counter as it is then.

* `scheduleSystem`: the runs from a `ScheduleJob` call on, under any interleaving.
* `schedule_fails_atomic_iff`: a call that throws has left no trace of its own exactly if its job
  has no counter.
* `schedule_fails_keeps_increment`: a call that throws, after which the counter is not `0` although
  no job is queued.
-/

namespace NomadTasks

open Transition

/-- The fiber is in this `ScheduleJob` call. -/
def FiberPc.inScheduleJob (ctx : Ctx) (caller : Caller) (prio : JobPriority) (job : JobInfo) :
    FiberPc → Bool
  | .begin use _ | .call use _ _ => use == .scheduleJob ctx caller prio job
  | .enqueue ctx' caller' prio' job' => (ctx', caller', prio', job') == (ctx, caller, prio, job)
  | _ => false

/-- The runs from a state on in which fiber `f` calls `ScheduleJob`. -/
def scheduleSystem (opts : ManagerOptions) (f : ℕ) (ctx : Ctx) (caller : Caller)
    (prio : JobPriority) (job : JobInfo) : System ManagerState ManagerAction where
  init s := (managerSystem opts).Reachable s ∧ (s.fibers f).pc = .scheduleJob ctx caller prio job
  step := managerStep opts

/-- The run has not left the call of fiber `f`. -/
def InScheduleJob (f : ℕ) (ctx : Ctx) (caller : Caller) (prio : JobPriority) (job : JobInfo)
    (_ : History ManagerState ManagerAction) (s : ManagerState) (_ : ManagerAction) : Prop :=
  (s.fibers f).pc.inScheduleJob ctx caller prio job = true

instance {f : ℕ} {ctx : Ctx} {caller : Caller} {prio : JobPriority} {job : JobInfo}
    {h : History ManagerState ManagerAction} {s : ManagerState} {a : ManagerAction} :
    Decidable (InScheduleJob f ctx caller prio job h s a) :=
  inferInstanceAs (Decidable (_ = true))

/-- What the steps of fiber `f` have added to the value of counter `c`; the steps of the others do
not count. -/
def ownChange (opts : ManagerOptions) (f : ℕ) (c : CtrId) :
    History ManagerState ManagerAction → CounterUnit
  | [] => 0
  | (s, a) :: h =>
      ownChange opts f c h +
        if s.running a.thread = some f then ((managerStep opts s a).getD s).value c - s.value c
        else 0

/-- The slots, the ready lists and the job queues are the same. -/
structure SameButValues (s s' : ManagerState) : Prop where
  slots : ∀ c, (s'.counters c).ctr.waitingFibers = (s.counters c).ctr.waitingFibers ∧
    (s'.counters c).ctr.freeWaitingSlots = (s.counters c).ctr.freeWaitingSlots
  ready : ∀ t, (s'.tls t).readyFibers = (s.tls t).readyFibers
  jobs : s'.jobs = s.jobs

/-- The steps of fiber `f` have left the values of the counters, their slots, the ready lists and
the job queues as they were. -/
structure LeavesNoTrace (opts : ManagerOptions) (f : ℕ)
    (h : History ManagerState ManagerAction) : Prop where
  values : ∀ c, ownChange opts f c h = 0
  others : ∀ e ∈ h, e.1.running e.2.thread = some f → ∀ s', managerStep opts e.1 e.2 = some s' →
    SameButValues e.1 s'

section OwnChange

variable {opts : ManagerOptions} {f : ℕ} {h : History ManagerState ManagerAction}
  {s s' : ManagerState} {a : ManagerAction}

theorem ownChange_own (hrun : s.running a.thread = some f) (hs : managerStep opts s a = some s')
    (c : CtrId) :
    ownChange opts f c ((s, a) :: h) = ownChange opts f c h + (s'.value c - s.value c) := by
  simp [ownChange, hrun, hs]

theorem ownChange_other (hrun : s.running a.thread ≠ some f) (c : CtrId) :
    ownChange opts f c ((s, a) :: h) = ownChange opts f c h := by
  simp [ownChange, hrun]

theorem LeavesNoTrace.nil : LeavesNoTrace opts f [] := ⟨fun _ => rfl, nofun⟩

/-- The steps of the others leave no trace of fiber `f`. -/
theorem LeavesNoTrace.other (hl : LeavesNoTrace opts f h) (hrun : s.running a.thread ≠ some f) :
    LeavesNoTrace opts f ((s, a) :: h) := by
  refine ⟨fun c => (ownChange_other hrun c).trans (hl.values c), fun e he hown => ?_⟩
  rcases List.mem_cons.mp he with rfl | he
  · exact absurd hown hrun
  · exact hl.others e he hown

/-- A step of fiber `f` that changes nothing leaves no trace. -/
theorem LeavesNoTrace.own (hl : LeavesNoTrace opts f h) (hrun : s.running a.thread = some f)
    (hs : managerStep opts s a = some s') (hsame : SameButValues s s')
    (hvalue : ∀ c, s'.value c = s.value c) : LeavesNoTrace opts f ((s, a) :: h) := by
  refine ⟨fun c => ?_, fun e he hown s'' hs'' => ?_⟩
  · rw [ownChange_own hrun hs, hl.values c, hvalue c, BitVec.sub_self]
    rfl
  · rcases List.mem_cons.mp he with rfl | he
    · obtain rfl := Option.some.inj (hs.symm.trans hs'')
      exact hsame
    · exact hl.others e he hown s'' hs''

end OwnChange

/-! ## The steps of the call -/

/-- The steps of a `ScheduleJob` call up to its end or its exception. -/
theorem FiberStep.scheduleJob_cases {opts : ManagerOptions} {s : ManagerState} {f tls : ℕ}
    {act : Act} {pc pc' : FiberPc} {ctx : Ctx} {caller : Caller} {prio : JobPriority}
    {job : JobInfo} (h : FiberStep opts s f tls pc act pc')
    (hpc : pc.inScheduleJob ctx caller prio job = true) :
    (∃ c x, pc = .begin (.scheduleJob ctx caller prio job) c ∧
      pc' = .call (.scheduleJob ctx caller prio job) c x) ∨
    (∃ c x, pc = .call (.scheduleJob ctx caller prio job) c x ∧ pc' = pc) ∨
    (∃ c x, pc = .call (.scheduleJob ctx caller prio job) c x ∧
      ((s.counters c).calls x).inProgress = false ∧ act = .none ∧
      pc' = .enqueue ctx caller prio job) ∨
    (pc = .enqueue ctx caller prio job ∧ act = .none ∧ pc' = .threw ctx caller) ∨
    (pc = .enqueue ctx caller prio job ∧ pc'.inScheduleJob ctx caller prio job = false ∧
      pc' ≠ .threw ctx caller) := by
  cases h with
  | @«begin» use c x hx =>
    obtain rfl : use = _ := by simpa [FiberPc.inScheduleJob] using hpc
    exact .inl ⟨c, x, rfl, rfl⟩
  | @call use c x hx =>
    obtain rfl : use = _ := by simpa [FiberPc.inScheduleJob] using hpc
    exact .inr (.inl ⟨c, x, rfl, rfl⟩)
  | @incremented ctx' caller' prio' job' c x hx =>
    obtain ⟨rfl, rfl, rfl, rfl⟩ : ctx' = ctx ∧ caller' = caller ∧ prio' = prio ∧ job' = job := by
      simpa [FiberPc.inScheduleJob] using hpc
    exact .inr (.inr (.inl ⟨c, x, rfl, hx, rfl, rfl⟩))
  | enqueueFail =>
    obtain ⟨rfl, rfl, rfl, rfl⟩ := by simpa [FiberPc.inScheduleJob] using hpc
    exact .inr (.inr (.inr (.inl ⟨rfl, rfl, rfl⟩)))
  -- the job is queued, and the call returns
  | enqueue | enqueueSingle | enqueueQueue =>
    obtain ⟨rfl, rfl, rfl, rfl⟩ := by simpa [FiberPc.inScheduleJob] using hpc
    exact .inr (.inr (.inr (.inr ⟨rfl, rfl, by simp⟩)))
  | _ => simp [FiberPc.inScheduleJob] at hpc

/-! ## The invariant -/

/-- What the call has added to the counter of its job. -/
def ManagerState.incremented (s : ManagerState) : FiberPc → CounterUnit
  | .begin .. => 0
  | .call _ c x => if ((s.counters c).calls x).modified then 1 else 0
  | _ => 1

/-- How far the call has come, and what it has changed. -/
structure ScheduleInv (opts : ManagerOptions) (f : ℕ) (ctx : Ctx) (caller : Caller)
    (prio : JobPriority) (job : JobInfo) (h : History ManagerState ManagerAction)
    (s : ManagerState) : Prop where
  calls : CallsInv s
  counter : ∀ c, job.counter = some c →
    (s.fibers f).pc.inScheduleJob ctx caller prio job = true ∨ (s.fibers f).pc = .threw ctx caller →
    ownChange opts f c h = s.incremented (s.fibers f).pc
  plain : job.counter = none →
    (s.fibers f).pc.inScheduleJob ctx caller prio job = true ∨ (s.fibers f).pc = .threw ctx caller →
    LeavesNoTrace opts f h ∧
      ((s.fibers f).pc = .enqueue ctx caller prio job ∨ (s.fibers f).pc = .threw ctx caller)

section ScheduleInv

variable {opts : ManagerOptions} {f : ℕ} {ctx : Ctx} {caller : Caller} {prio : JobPriority}
  {job : JobInfo} {h : History ManagerState ManagerAction} {s s' : ManagerState}
  {a : ManagerAction}

/-- In its call on a counter, `ScheduleJob` increments the counter of its job by one. -/
theorem CallsInv.scheduleJob {c : CtrId} {x : ℕ} (hi : CallsInv s)
    (hpc : (s.fibers f).pc = .call (.scheduleJob ctx caller prio job) c x) :
    job.counter = some c ∧ ∃ pc, (s.counters c).calls x = .modify (.increment 1) pc := by
  have hits := hi.itsCounter f
  have hmakes := hi.makes f _ c x hpc
  rw [hpc] at hits
  refine ⟨hits, ?_⟩
  cases hcall : (s.counters c).calls x with
  | modify op pc =>
    rw [hcall] at hmakes
    obtain rfl : op = .increment 1 := hmakes
    exact ⟨pc, rfl⟩
  | _ => rw [hcall] at hmakes; cases hmakes

/-- The step of another fiber, or of the own code of a thread, leaves the call where it is. -/
theorem incremented_other (hi : CallsInv s) (hs : managerStep opts s a = some s')
    (hrun : s.running a.thread ≠ some f) :
    (s'.fibers f).pc = (s.fibers f).pc ∧
      s'.incremented (s.fibers f).pc = s.incremented (s.fibers f).pc := by
  rcases managerStep_inv hs with ⟨g, pcg, act, pc, hg, rfl, hstep, rfl⟩ |
    ⟨pct, act, pc, -, rfl, hstep, rfl⟩
  · have hfg : f ≠ g := fun hfg => hrun (hfg ▸ hg)
    have hm := hstep.counterMove (t := a.thread) ⟨(s.fibers g).currentTLS a.thread, pc⟩
    refine ⟨by simp [hfg], ?_⟩
    cases hpc : (s.fibers f).pc with
    | call use c x => simp only [ManagerState.incremented, hi.calls_other hm hfg hpc]
    | _ => rfl
  · have hcounters : (s.apply a.thread noFiber act).counters = s.counters :=
      ManagerState.apply_counters hstep.not_counter
    refine ⟨by simp, ?_⟩
    cases hpc : (s.fibers f).pc with
    | call use c x =>
      simp only [ManagerState.incremented, ManagerState.setThread_counters, hcounters]
    | _ => rfl

/-- An own step changes the counter of the job as the progress of the call says. -/
theorem incremented_own (hi : CallsInv s) {act : Act} {pc : FiberPc}
    (hstep : FiberStep opts s f ((s.fibers f).currentTLS a.thread) (s.fibers f).pc act pc)
    (hs' : s' = (s.apply a.thread f act).setFiber f ⟨(s.fibers f).currentTLS a.thread, pc⟩)
    (hin : (s.fibers f).pc.inScheduleJob ctx caller prio job = true)
    (hpc : pc.inScheduleJob ctx caller prio job = true ∨ pc = .threw ctx caller) {c : CtrId}
    (hc : job.counter = some c) :
    s'.value c - s.value c = s'.incremented pc - s.incremented (s.fibers f).pc := by
  have hm := hs' ▸ hstep.counterMove (t := a.thread) ⟨(s.fibers f).currentTLS a.thread, pc⟩
  rcases hm.value_cases c with ⟨use, x, op, hold, hnew, hcall, hvalue, hmod⟩ | ⟨hvalue, hkeep⟩
  · -- the `fetch_add`: the call is an increment by one
    rw [hold] at hin
    obtain rfl : use = .scheduleJob ctx caller prio job := by
      simpa [FiberPc.inScheduleJob] using hin
    obtain ⟨-, pc', hpc'⟩ := hi.scheduleJob hold
    obtain ⟨rfl, rfl⟩ := CounterCall.modify.inj (hcall.symm.trans hpc')
    have hbefore : ((s.counters c).calls x).modified = false := by rw [hcall]; rfl
    rw [hold, hnew]
    simp [ManagerState.incremented, hvalue, hmod, hbefore, Modifier.value]
  · rw [hvalue, sub_self, eq_comm, sub_eq_zero]
    -- no other step of the call changes whether it has incremented
    rcases hstep.scheduleJob_cases hin with ⟨d, x, hold, hnew⟩ | ⟨d, x, hold, hnew⟩ |
      ⟨d, x, hold, hended, -, hnew⟩ | ⟨hold, -, hnew⟩ | ⟨-, hnot, hne⟩
    · have hits := hi.itsCounter f
      rw [hold] at hits
      obtain rfl : d = c := Option.some.inj (hits.symm.trans hc)
      rcases hkeep _ x hnew with ⟨-, hmod⟩ | ⟨hcall, -⟩
      · simp [hold, hnew, ManagerState.incremented, hmod]
      · cases hold.symm.trans hcall
    · obtain rfl : d = c := Option.some.inj ((hi.scheduleJob hold).1.symm.trans hc)
      rcases hkeep _ x (hnew.trans hold) with ⟨hbegin, -⟩ | ⟨-, hmod⟩
      · cases hold.symm.trans hbegin
      · simp [hold, hnew, ManagerState.incremented, hmod]
    · obtain rfl : d = c := Option.some.inj ((hi.scheduleJob hold).1.symm.trans hc)
      have hmod := (hi.makes f _ d x hold).modified_of_ended hended (by simp)
      simp [hold, hnew, ManagerState.incremented, hmod]
    · simp [hold, hnew, ManagerState.incremented]
    · rcases hpc with hpc | hpc
      · simp [hnot] at hpc
      · exact absurd hpc hne

/-- Every step of the run keeps the invariant. -/
theorem ScheduleInv.step (hi : ScheduleInv opts f ctx caller prio job h s)
    (hok : InScheduleJob f ctx caller prio job h s a) (hs : managerStep opts s a = some s') :
    ScheduleInv opts f ctx caller prio job ((s, a) :: h) s' := by
  by_cases hrun : s.running a.thread = some f
  · rcases managerStep_inv hs with ⟨g, pcg, act, pc, hg, rfl, hstep, rfl⟩ |
      ⟨pct, act, pc, hnone, -⟩
    · obtain rfl : g = f := Option.some.inj (hg.symm.trans hrun)
      have hpc : (((s.apply a.thread g act).setFiber g
          ⟨(s.fibers g).currentTLS a.thread, pc⟩).fibers g).pc = pc := by simp
      refine ⟨hi.calls.step hs, fun c hc hin => ?_, fun hc hin => ?_⟩
      · rw [hpc] at hin ⊢
        rw [ownChange_own hrun hs, hi.counter c hc (.inl hok),
          incremented_own hi.calls hstep rfl hok hin hc, add_sub_cancel]
      · rw [hpc] at hin ⊢
        obtain ⟨hl, hold⟩ := hi.plain hc (.inl hok)
        have hold := hold.resolve_right fun hthrew => by
          rw [InScheduleJob, hthrew] at hok
          cases hok
        -- without a counter the only step is the enqueue
        rcases hstep.scheduleJob_cases hok with ⟨d, x, hpc', -⟩ | ⟨d, x, hpc', -⟩ |
          ⟨d, x, hpc', -⟩ | ⟨-, rfl, rfl⟩ | ⟨-, hnot, hne⟩
        · cases hold.symm.trans hpc'
        · cases hold.symm.trans hpc'
        · cases hold.symm.trans hpc'
        · exact ⟨hl.own hrun hs ⟨fun _ => ⟨rfl, rfl⟩, fun _ => rfl, rfl⟩ fun _ => rfl, .inr rfl⟩
        · rcases hin with hin | hin
          · simp [hnot] at hin
          · exact absurd hin hne
    · cases hnone.symm.trans hrun
  -- a step of another thread is counted apart
  · obtain ⟨hpc, hinc⟩ := incremented_other hi.calls hs hrun
    refine ⟨hi.calls.step hs, fun c hc hin => ?_, fun hc hin => ?_⟩
    · rw [hpc] at hin ⊢
      rw [ownChange_other hrun, hinc]
      exact hi.counter c hc hin
    · rw [hpc] at hin ⊢
      obtain ⟨hl, hold⟩ := hi.plain hc hin
      exact ⟨hl.other hrun, hold⟩

/-- It holds when the call begins. -/
theorem ScheduleInv.init (hr : (managerSystem opts).Reachable s)
    (hpc : (s.fibers f).pc = .scheduleJob ctx caller prio job) :
    ScheduleInv opts f ctx caller prio job [] s := by
  obtain ⟨h, hrun⟩ := hr
  refine ⟨callsInv_of_run hrun, fun c hc _ => ?_, fun hc _ => ⟨.nil, .inl ?_⟩⟩
  · simp [hpc, FiberPc.scheduleJob, hc, ManagerState.incremented, ownChange]
  · rw [hpc, FiberPc.scheduleJob, hc]

/-- It holds in every run of the call. -/
theorem scheduleInv_of_run
    (hr : (scheduleSystem opts f ctx caller prio job).Run (InScheduleJob f ctx caller prio job) h
      s) : ScheduleInv opts f ctx caller prio job h s :=
  hr.invariant (fun _ hs => .init hs.1 hs.2) fun _ _ _ _ _ hi hok hs => hi.step hok hs

end ScheduleInv

/-! ## Result -/

/-- A `ScheduleJob` call that throws, from any state and under any interleaving, has left the value
of every counter, the slots, the ready lists and the queues as they were, apart from the steps of
the others, exactly if its job has no counter. -/
theorem schedule_fails_atomic_iff {opts : ManagerOptions} {f : ℕ} {ctx : Ctx} {caller : Caller}
    {prio : JobPriority} {job : JobInfo} {h : History ManagerState ManagerAction}
    {s : ManagerState}
    (hr : (scheduleSystem opts f ctx caller prio job).Run (InScheduleJob f ctx caller prio job) h s)
    (hthrew : (s.fibers f).pc = .threw ctx caller) :
    LeavesNoTrace opts f h ↔ job.counter = none := by
  have hi := scheduleInv_of_run hr
  constructor
  · intro hl
    by_contra hne
    obtain ⟨c, hc⟩ := Option.ne_none_iff_exists'.mp hne
    have hone : ownChange opts f c h = 1 := by
      rw [hi.counter c hc (.inr hthrew), hthrew]
      rfl
    rw [hl.values c] at hone
    cases hone
  · exact fun hc => (hi.plain hc (.inr hthrew)).1

/-- A run of a call by evaluation: `as` leads to the call, and `bs` takes it. -/
private theorem exists_schedule_run {opts : ManagerOptions} {f : ℕ} {ctx : Ctx} {caller : Caller}
    {prio : JobPriority} {job : JobInfo}
    {P : History ManagerState ManagerAction → ManagerState → Prop} (as bs : List ManagerAction)
    (h : ∃ r ∈ (managerSystem opts).trace [] (.start opts) as,
      (r.2.fibers f).pc = .scheduleJob ctx caller prio job ∧
        ∃ r' ∈ (scheduleSystem opts f ctx caller prio job).trace [] r.2 bs,
          System.StepsMeet (InScheduleJob f ctx caller prio job) r'.1 ∧ P r'.1 r'.2) :
    ∃ h s,
      (scheduleSystem opts f ctx caller prio job).Run (InScheduleJob f ctx caller prio job) h s ∧
        P h s := by
  obtain ⟨r, hr, hpc, h⟩ := h
  exact System.exists_run_of_trace ⟨.of_trace rfl hr, hpc⟩ bs h

/-- The main callback fills a queue for two jobs, and calls `ScheduleJob` once more. -/
def mainFills (ctr : Option ℕ) : List ManagerAction :=
  threadSteps 0 7 ++ [⟨0, .op (.scheduleJob .normal (some 8) none)⟩] ++ threadSteps 0 1 ++
    [⟨0, .op (.scheduleJob .normal (some 9) none)⟩] ++ threadSteps 0 1 ++
    [⟨0, .op (.scheduleJob .normal (some 7) ctr)⟩]

theorem schedule_fails_atomic_iff_plain :
    ∃ h s, (scheduleSystem twoWorkers 0 .main .body .normal ⟨some 7, none⟩).Run
        (InScheduleJob 0 .main .body .normal ⟨some 7, none⟩) h s ∧
      (s.fibers 0).pc = .threw .main .body ∧
      (LeavesNoTrace twoWorkers 0 h ↔ (⟨some 7, none⟩ : JobInfo).counter = none) := by
  have hrun : ∃ h s, (scheduleSystem twoWorkers 0 .main .body .normal ⟨some 7, none⟩).Run
      (InScheduleJob 0 .main .body .normal ⟨some 7, none⟩) h s ∧
      (s.fibers 0).pc = .threw .main .body :=
    exists_schedule_run (mainFills none) [⟨0, .fail⟩] (by decide +kernel)
  obtain ⟨h, s, hr, hthrew⟩ := hrun
  exact ⟨h, s, hr, hthrew, schedule_fails_atomic_iff hr hthrew⟩

/-- The job has a counter: the call has added one to it, although no job with this counter is queued
or has ever been executed. -/
theorem schedule_fails_keeps_increment :
    ∃ h s, (scheduleSystem twoWorkers 0 .main .body .normal ⟨some 7, some (.user 0)⟩).Run
        (InScheduleJob 0 .main .body .normal ⟨some 7, some (.user 0)⟩) h s ∧
      (s.fibers 0).pc = .threw .main .body ∧ s.value (.user 0) = 1 ∧
      s.jobs .normal = [⟨some 8, none⟩, ⟨some 9, none⟩] ∧
      (∀ prio ∈ [.high, .low, .io], s.jobs prio = []) ∧ s.delegates = [] ∧
      ¬ LeavesNoTrace twoWorkers 0 h := by
  have hrun : ∃ h s, (scheduleSystem twoWorkers 0 .main .body .normal ⟨some 7, some (.user 0)⟩).Run
      (InScheduleJob 0 .main .body .normal ⟨some 7, some (.user 0)⟩) h s ∧
      (s.fibers 0).pc = .threw .main .body ∧ s.value (.user 0) = 1 ∧
      s.jobs .normal = [⟨some 8, none⟩, ⟨some 9, none⟩] ∧
      (∀ prio ∈ [.high, .low, .io], s.jobs prio = []) ∧ s.delegates = [] ∧
      ownChange twoWorkers 0 (.user 0) h ≠ 0 :=
    exists_schedule_run (mainFills (some 0)) (⟨0, .call 0⟩ :: threadSteps 0 8 ++ [⟨0, .fail⟩])
      (by decide +kernel)
  obtain ⟨h, s, hr, hthrew, hvalue, hfull, hjobs, hdelegates, hchange⟩ := hrun
  exact ⟨h, s, hr, hthrew, hvalue, hfull, hjobs, hdelegates, fun hl => hchange (hl.values _)⟩

end NomadTasks
