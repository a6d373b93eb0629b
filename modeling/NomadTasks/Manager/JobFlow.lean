import NomadTasks.Manager.Outstanding
import NomadTasks.Transition.Log

/-!
# The way of a job through the manager

`ScheduleJob` puts a job into the queue of its priority, `GetNextJob` takes it out, and the fiber
that has taken it executes it: it calls the delegate, which may wait and schedule on its own, and
decrements the counter. The logs of a run say what has become of each job.

* `enqueued`, `taken`, `executed`: the logs.
* `JobInfo.steps`: what the execution of a job consists of; `FiberPc.toCome`: what is left of it.
* `jobs_flow`: the jobs come out of each queue in the order in which they have come in, and every
  fiber executes the jobs that it has taken, completely and one after the other.
* `executed_of_drained`: where no job is left, all that have been scheduled have been executed once.
-/

namespace NomadTasks

open Transition

/-! ## The logs -/

/-- The job that goes into a queue. -/
def Act.enqueues : Act → List (JobPriority × JobInfo)
  | .enqueue prio job => [(prio, job)]
  | _ => []

/-- The job that fiber `f` takes from a queue. -/
def Act.takes (s : ManagerState) (f : ℕ) : Act → List (JobPriority × ℕ × JobInfo)
  | .dequeue prio => (s.jobs prio).head?.toList.map fun job => (prio, f, job)
  | _ => []

/-- What a fiber does in the course of a job. -/
inductive JobStep
  /-- `GetDelegate()->Call()` begins. -/
  | called (job : JobInfo)
  /-- The delegate returns. -/
  | finished (job : JobInfo)
  /-- `_counter->Decrement()` begins. -/
  | decrements (ctr : CtrId)
  /-- `_counter->Decrement()` returns. -/
  | decremented (ctr : CtrId)
  deriving DecidableEq

/-- What an act of a fiber is in the course of the job that it executes. -/
def FiberPc.jobStep : FiberPc → Act → List JobStep
  | _, .callDelegate job => [.called job]
  | _, .finishDelegate job => [.finished job]
  | .begin .execute c, _ => [.decrements c]
  | .call .execute c _, .none => [.decremented c]
  | _, _ => []

/-- The job that a step puts into a queue. -/
def enqueued (opts : ManagerOptions) (s : ManagerState) (a : ManagerAction) :
    List (JobPriority × JobInfo) :=
  match managerAct opts s a with
  | some act => act.enqueues
  | none => []

/-- The job that a step takes from a queue, with the fiber that takes it. -/
def taken (opts : ManagerOptions) (s : ManagerState) (a : ManagerAction) :
    List (JobPriority × ℕ × JobInfo) :=
  match managerAct opts s a, s.running a.thread with
  | some act, some f => act.takes s f
  | _, _ => []

/-- What a step is in the course of a job, with the fiber that executes the job. -/
def executed (opts : ManagerOptions) (s : ManagerState) (a : ManagerAction) : List (ℕ × JobStep) :=
  match managerAct opts s a, s.running a.thread with
  | some act, some f => ((s.fibers f).pc.jobStep act).map fun e => (f, e)
  | _, _ => []

/-! ## The execution of a job -/

/-- What `JobInfo::Execute` does after the delegate. -/
def JobInfo.release (job : JobInfo) : List JobStep :=
  match job.counter with
  | none => []
  | some c => [.decrements c, .decremented c]

/-- What `JobInfo::Execute` does. -/
def JobInfo.steps (job : JobInfo) : List JobStep :=
  match job.delegate with
  | none => job.release
  | some _ => .called job :: .finished job :: job.release

/-- What is left of the job whose delegate runs. -/
def Ctx.toCome : Ctx → List JobStep
  | .main => []
  | .job info => .finished info :: info.release

/-- What is left of the job that a fiber executes. -/
def FiberPc.toCome : FiberPc → List JobStep
  | .execute job => job.steps
  | .cleanup _ (.waitForCounter ctx _) | .body ctx | .begin (.scheduleJob ctx _ _ _) _
  | .begin (.waitForCounter ctx _ _ _) _ | .begin (.modify ctx _) _
  | .call (.scheduleJob ctx _ _ _) _ _ | .call (.waitForCounter ctx _ _ _) _ _
  | .call (.modify ctx _) _ _ | .enqueue ctx _ _ _ | .threw ctx _ | .waitForCounter ctx _ _ _ _
  | .waited ctx _ | .queueStep ctx _ => ctx.toCome
  | .begin .execute c => [.decrements c, .decremented c]
  | .call .execute c _ => [.decremented c]
  | _ => []

section Step

variable {opts : ManagerOptions} {s : ManagerState} {f tls : ℕ} {act : Act} {pc pc' : FiberPc}

/-- A fiber goes on with the job that it has, step by step, and takes another when it has none. -/
theorem FiberStep.toCome (h : FiberStep opts s f tls pc act pc') :
    pc.toCome ++ (act.takes s f).flatMap (fun e => e.2.2.steps) =
      pc.jobStep act ++ pc'.toCome := by
  cases h with
  | dequeueIo hj | dequeueHigh hj | dequeueNormal hj | dequeueLow hj =>
    simp [FiberPc.toCome, FiberPc.jobStep, Act.takes, hj]
  | executeNull hd hc | executeNullDecrement hd hc =>
    simp [FiberPc.toCome, FiberPc.jobStep, Act.takes, JobInfo.steps, JobInfo.release, *]
  | execute hd =>
    simp [FiberPc.toCome, FiberPc.jobStep, Act.takes, JobInfo.steps, Ctx.toCome, hd]
  | opFinishJob hc | opFinishDecrement hc =>
    simp [FiberPc.toCome, FiberPc.jobStep, Act.takes, Ctx.toCome, JobInfo.release, hc]
  | @«begin» use | @call use =>
    cases use <;> simp [FiberPc.toCome, FiberPc.jobStep, Act.takes]
  | @previousPool k | @previousWaiting k | @storeIdle k | @storeStored k =>
    cases k <;> simp [FiberPc.toCome, FiberPc.jobStep, Act.takes]
  | _ => simp [FiberPc.toCome, FiberPc.jobStep, Act.takes, Ctx.toCome]

end Step

/-! ## The queues -/

section Flow

variable {opts : ManagerOptions} {s s' : ManagerState} {a : ManagerAction}

/-- What one act does to a queue. -/
theorem ManagerState.apply_flow {t f : ℕ} {act : Act} (prio : JobPriority)
    (hjobs : ∀ p, act = .dequeue p → s.jobs p ≠ []) :
    s.jobs prio ++ Keyed.under prio act.enqueues =
      (Keyed.under prio (act.takes s f)).map Prod.snd ++ (s.apply t f act).jobs prio := by
  by_cases henq : ∃ job, act = .enqueue prio job
  · obtain ⟨job, rfl⟩ := henq
    simp [Act.enqueues, Act.takes, ManagerState.apply, Keyed.under]
  · by_cases hdeq : act = .dequeue prio
    · subst hdeq
      obtain ⟨job, rest, hj⟩ := List.exists_cons_of_ne_nil (hjobs prio rfl)
      simp [Act.enqueues, Act.takes, ManagerState.apply, Keyed.under, hj]
    · rw [ManagerState.apply_jobs (fun job h => henq ⟨job, h⟩) hdeq]
      cases act <;> simp_all [Act.enqueues, Act.takes, Keyed.under]

/-- What one step does to a queue. -/
theorem managerStep_queue (hs : managerStep opts s a = some s') (prio : JobPriority) :
    s.jobs prio ++ Keyed.under prio (enqueued opts s a) =
      (Keyed.under prio (taken opts s a)).map Prod.snd ++ s'.jobs prio := by
  rcases managerStep_act hs with ⟨f, act, pc', hrun, hact, h, rfl⟩ | ⟨act, pc', hrun, hact, h, rfl⟩
  · simp only [enqueued, taken, hact, hrun]
    exact ManagerState.apply_flow prio fun p hp => (h.polls_of_dequeue hp).2
  · obtain ⟨henq, hdeq⟩ := h.keepsJobs
    have hnone : act.enqueues = [] := by cases act <;> simp_all [Act.enqueues]
    simp only [enqueued, taken, hact, hrun, hnone]
    rw [ManagerState.setThread_jobs, ManagerState.apply_jobs (henq prio) (hdeq prio)]
    simp

/-! ## The fibers -/

/-- What a fiber takes, it takes for itself. -/
theorem Act.under_takes (s : ManagerState) (f g : ℕ) (act : Act) :
    Keyed.under g ((act.takes s f).map Prod.snd) =
      if f = g then (act.takes s f).map fun e => e.2.2 else [] := by
  cases act with
  | dequeue prio => cases hj : s.jobs prio <;> by_cases hfg : f = g <;> simp [takes, Keyed.under, *]
  | _ => simp [takes]

/-- What one step does to what a fiber has to do. -/
theorem managerStep_toCome (hs : managerStep opts s a = some s') (g : ℕ) :
    (s.fibers g).pc.toCome ++
        (Keyed.under g ((taken opts s a).map Prod.snd)).flatMap JobInfo.steps =
      Keyed.under g (executed opts s a) ++ (s'.fibers g).pc.toCome := by
  rcases managerStep_act hs with ⟨f, act, pc', hrun, hact, h, rfl⟩ | ⟨act, pc', hrun, hact, h, rfl⟩
  · simp only [taken, executed, hact, hrun, ManagerState.setFiber_fibers, Act.under_takes]
    by_cases hfg : f = g
    · subst hfg
      simpa [Keyed.under, List.flatMap_map] using h.toCome
    · have hgf : g ≠ f := fun hgf => hfg hgf.symm
      simp [Keyed.under, hfg, hgf]
  · simp [taken, executed, hact, hrun]

end Flow

/-! ## Runs -/

/-- The jobs come out of each queue in the order in which they have come in, but for those that are
still in it; and every fiber has executed the jobs that it has taken, completely and one after the
other, but for what is left of the last one. -/
structure JobFlow (opts : ManagerOptions) (h : History ManagerState ManagerAction)
    (s : ManagerState) : Prop where
  queue : ∀ prio, Keyed.under prio (h.log (enqueued opts)) =
    (Keyed.under prio (h.log (taken opts))).map Prod.snd ++ s.jobs prio
  fiber : ∀ f, (Keyed.under f ((h.log (taken opts)).map Prod.snd)).flatMap JobInfo.steps =
    Keyed.under f (h.log (executed opts)) ++ (s.fibers f).pc.toCome

section Run

variable {opts : ManagerOptions}
  {ok : History ManagerState ManagerAction → ManagerState → ManagerAction → Prop}
  {h : History ManagerState ManagerAction} {s : ManagerState}

theorem queueFlow_of_run (hr : (managerSystem opts).Run ok h s) (prio : JobPriority) :
    Keyed.under prio (h.log (enqueued opts)) =
      (Keyed.under prio (h.log (taken opts))).map Prod.snd ++ s.jobs prio := by
  have hflow := hr.flow (fun s => s.jobs prio) (fun s hs => by cases hs; rfl)
    fun _ _ _ _ _ _ hs => managerStep_queue hs prio
  rw [History.map_log (Keyed.under prio) rfl (Keyed.under_append prio),
    History.map_log (fun l => (Keyed.under prio l).map Prod.snd) rfl (by simp)]
  exact hflow

theorem fiberFlow_of_run (hr : (managerSystem opts).Run ok h s) (f : ℕ) :
    (Keyed.under f ((h.log (taken opts)).map Prod.snd)).flatMap JobInfo.steps =
      Keyed.under f (h.log (executed opts)) ++ (s.fibers f).pc.toCome := by
  have hflow := hr.flow (fun s => (s.fibers f).pc.toCome) (fun s hs => by cases hs; rfl)
    fun _ _ _ _ _ _ hs => managerStep_toCome hs f
  rw [History.map_log (Keyed.under f) rfl (Keyed.under_append f),
    History.map_log (fun l => (Keyed.under f (l.map Prod.snd)).flatMap JobInfo.steps) rfl (by simp)]
  exact hflow

/-- In every run whose switches do not meet, no job is lost, duplicated or reordered on its way
through a queue, and every fiber calls the delegate of each job that it takes once, lets it return
and then decrements the counter of the job once, before it takes the next job. -/
theorem jobs_flow (hr : (managerSystem opts).Run (Apart opts) h s) : JobFlow opts h s where
  queue := queueFlow_of_run hr
  fiber := fiberFlow_of_run hr

/-- Where the queues are empty, the jobs that have been taken are those that have been scheduled. -/
theorem perm_taken (hr : (managerSystem opts).Run ok h s) (hjobs : ∀ prio, s.jobs prio = []) :
    ((h.log (enqueued opts)).map Prod.snd).Perm ((h.log (taken opts)).map fun e => e.2.2) := by
  have hperm : (h.log (enqueued opts)).Perm
      ((h.log (taken opts)).map fun e => (e.1, e.2.2)) := by
    refine Keyed.perm_of_under fun prio => ?_
    rw [queueFlow_of_run hr, hjobs prio, List.append_nil, Keyed.under_map_snd Prod.snd]
  have hmap := hperm.map Prod.snd
  rwa [List.map_map] at hmap

/-- Where no fiber has a job left, the jobs that have been taken have been executed. -/
theorem perm_executed (hr : (managerSystem opts).Run ok h s)
    (hidle : ∀ f, (s.fibers f).pc.toCome = []) :
    ((h.log (executed opts)).map Prod.snd).Perm
      (((h.log (taken opts)).map fun e => e.2.2).flatMap JobInfo.steps) := by
  have hperm : (h.log (executed opts)).Perm
      (((h.log (taken opts)).map Prod.snd).flatMap fun e => e.2.steps.map fun c => (e.1, c)) := by
    refine Keyed.perm_of_under fun f => ?_
    rw [Keyed.under_flatMap JobInfo.steps, fiberFlow_of_run hr, hidle f, List.append_nil]
  have hmap := hperm.map Prod.snd
  simpa [List.map_flatMap, List.flatMap_map, Function.comp_def] using hmap

/-- In every run whose switches do not meet, when no queue holds a job and no fiber has one in hand,
what the fibers have done is what the jobs that have ever been scheduled consist of: no job is left
out, and none is executed twice. -/
theorem executed_of_drained (hr : (managerSystem opts).Run (Apart opts) h s)
    (hjobs : ∀ prio, s.jobs prio = []) (hidle : ∀ f, (s.fibers f).pc.toCome = []) :
    ((h.log (executed opts)).map Prod.snd).Perm
      (((h.log (enqueued opts)).map Prod.snd).flatMap JobInfo.steps) := by
  have htaken := (perm_taken hr hjobs).flatMap_right JobInfo.steps
  exact (perm_executed hr hidle).trans htaken.symm

end Run

/-! ## After `Shutdown` -/

/-- The fiber is in a call of `GetNextJob`. -/
def FiberPc.inGetNextJob : FiberPc → Bool
  | .getNextJob _ | .cleanup _ .getNextJob => true
  | _ => false

section Shutdown

variable {opts : ManagerOptions} {s s' s₀ : ManagerState} {a : ManagerAction} {t f tls : ℕ}
  {act : Act} {pc pc' : FiberPc}

/-- Nothing takes `Shutdown` back. -/
theorem ManagerState.apply_shuttingDown (hdown : s.shuttingDown = true) :
    (s.apply t f act).shuttingDown = true := by
  cases act with
  | endWait caller | throwThrough caller => cases caller <;> exact hdown
  | shutdown => rfl
  | _ => exact hdown

/-- After `Shutdown` no fiber calls `GetNextJob` any more. -/
theorem FiberStep.inGetNextJob (h : FiberStep opts s f tls pc act pc')
    (hdown : s.shuttingDown = true) (hpc : pc'.inGetNextJob = true) : pc.inGetNextJob = true := by
  cases h with
  | loopGo hs => simp [hdown] at hs
  | @previousPool k | @previousWaiting k | @storeIdle k | @storeStored k => cases k <;> exact hpc
  | nothingNext | cleanupNext | noHigh | noNormal => rfl
  | _ => first | exact hpc | rfl

/-- The fiber that takes a job. -/
def takers (opts : ManagerOptions) (s : ManagerState) (a : ManagerAction) : List ℕ :=
  (taken opts s a).map fun e => e.2.1

theorem takers_cases {act : Act} (hact : managerAct opts s a = some act)
    (hrun : s.running a.thread = some f) :
    takers opts s a = [] ∨ takers opts s a = [f] ∧ ∃ prio, act = .dequeue prio := by
  simp only [takers, taken, hact, hrun]
  cases act with
  | dequeue prio => cases hj : s.jobs prio <;> simp [Act.takes, hj]
  | _ => exact .inl rfl

/-- A step after `Shutdown`: a fiber that takes a job leaves `GetNextJob` for good. -/
theorem managerStep_afterShutdown (hs : managerStep opts s a = some s')
    (hdown : s.shuttingDown = true) :
    s'.shuttingDown = true ∧
      {f | (s'.fibers f).pc.inGetNextJob = true} ⊆ {f | (s.fibers f).pc.inGetNextJob = true} ∧
      (takers opts s a).Nodup ∧ ∀ f ∈ takers opts s a,
        (s.fibers f).pc.inGetNextJob = true ∧ ¬ (s'.fibers f).pc.inGetNextJob = true := by
  rcases managerStep_act hs with ⟨f, act, pc', hrun, hact, h, rfl⟩ | ⟨act, pc', hrun, hact, h, rfl⟩
  · refine ⟨ManagerState.apply_shuttingDown hdown, fun g hg => ?_, ?_⟩
    · by_cases hgf : g = f
      · subst hgf
        exact h.inGetNextJob hdown (by simpa using hg)
      · simpa [hgf] using hg
    · rcases takers_cases hact hrun with hnone | ⟨hone, prio, rfl⟩
      · simp [hnone]
      · obtain ⟨job, hexec⟩ := h.taken.mpr ⟨prio, rfl⟩
        have hpolls := FiberPc.eq_of_polls (h.polls_of_dequeue rfl).1
        simp [hone, hpolls, hexec, FiberPc.inGetNextJob]
  · refine ⟨ManagerState.apply_shuttingDown hdown, fun g hg => by simpa using hg, ?_⟩
    simp [takers, taken, hrun]

/-- From `Shutdown` on, a fiber takes at most one more job, and only in the call of `GetNextJob`
that it was in, if the switches do not meet: what is left in the queues stays there. -/
theorem taken_after_shutdown {after before : History ManagerState ManagerAction}
    (hr : (managerSystem opts).Run (Apart opts) (after ++ (s₀, a) :: before) s)
    (hdown : s₀.shuttingDown = true) :
    ((after ++ [(s₀, a)]).log (takers opts)).Nodup ∧
      ∀ f ∈ (after ++ [(s₀, a)]).log (takers opts),
        (s₀.fibers f).pc.inGetNextJob = true ∧ (s.fibers f).pc.inGetNextJob = false := by
  obtain ⟨-, -, hnodup, hspent⟩ := hr.spent (C := fun s => s.shuttingDown = true)
    (fun _ _ _ _ _ hs hdown => managerStep_afterShutdown hs hdown) hdown
  exact ⟨hnodup, fun f hf => ⟨(hspent f hf).1, by simpa using (hspent f hf).2⟩⟩

end Shutdown

/-- The main callback schedules a job and calls `Shutdown` while fiber 1 is in `GetNextJob`. -/
def shutsDown : List ManagerAction :=
  threadSteps 0 7 ++ [⟨0, .op (.scheduleJob .normal (some 7) none)⟩] ++ threadSteps 0 1 ++
    threadSteps 1 12 ++ [⟨0, .op .shutdown⟩] ++ threadSteps 1 1

theorem taken_after_shutdown_once :
    ∃ e : ManagerState × ManagerAction, e.1.shuttingDown = true ∧
      takers twoWorkers e.1 e.2 = [1] ∧ (e.1.fibers 1).pc.inGetNextJob = true := by
  have hrun : ∃ (h : History ManagerState ManagerAction) (s : ManagerState),
      (managerSystem twoWorkers).Run (Apart twoWorkers) h s ∧
        ∃ e ∈ h.head?, e.1.shuttingDown = true ∧ takers twoWorkers e.1 e.2 = [1] :=
    System.exists_run_of_trace_by (managerStepEval_eq _) rfl shutsDown (by decide +kernel)
  obtain ⟨h, s, hr, e, hhead, hdown, htakes⟩ := hrun
  obtain ⟨before, rfl⟩ := List.head?_eq_some_iff.mp hhead
  have hlast :
      (managerSystem twoWorkers).Run (Apart twoWorkers) ([] ++ (e.1, e.2) :: before) s := hr
  have hspent := (taken_after_shutdown hlast hdown).2
  exact ⟨e, hdown, htakes, (hspent 1 (by simp [History.log, htakes])).1⟩

/-! ## A run that drains -/

/-- The main callback waits for a job that fiber 1 executes. -/
theorem jobs_flow_single :
    ∃ h s, (managerSystem oneWorker).Run (Apart oneWorker) h s ∧
      h.log (executed oneWorker) = [(1, .called ⟨some 7, some (.tiny 0)⟩)] ∧
        JobFlow oneWorker h s := by
  have hrun : ∃ (h : History ManagerState ManagerAction) (s : ManagerState),
      (managerSystem oneWorker).Run (Apart oneWorker) h s ∧
        h.log (executed oneWorker) = [(1, .called ⟨some 7, some (.tiny 0)⟩)] :=
    System.exists_run_of_trace_by (managerStepEval_eq _) rfl
      (mainWaitsFor .normal ++ threadSteps 0 6) (by decide +kernel)
  obtain ⟨h, s, hr, hlog⟩ := hrun
  exact ⟨h, s, hr, hlog, jobs_flow hr⟩

/-- The job has been executed, and the main callback goes on. -/
theorem executed_of_drained_single :
    ∃ h : History ManagerState ManagerAction,
      ((h.log (executed oneWorker)).map Prod.snd).Perm
        (JobInfo.steps ⟨some 7, some (.tiny 0)⟩) := by
  have hrun : ∃ (h : History ManagerState ManagerAction) (s : ManagerState),
      (managerSystem oneWorker).Run (Apart oneWorker) h s ∧
        h.log (enqueued oneWorker) = [(.normal, ⟨some 7, some (.tiny 0)⟩)] ∧
        (s.jobs .high = [] ∧ s.jobs .normal = [] ∧ s.jobs .low = [] ∧ s.jobs .io = []) ∧
        (∀ f < 3, (s.fibers f).pc.toCome = []) ∧ ∀ e ∈ h, ∀ f ∈ e.1.running e.2.thread, f < 3 :=
    System.exists_run_of_trace_by (managerStepEval_eq _) rfl mainResumes (by decide +kernel)
  obtain ⟨h, s, hr, hlog, ⟨hhigh, hnormal, hlow, hio⟩, hidle, hlt⟩ := hrun
  have hstart := startedBelow_of_run hr hlt
  have hdrained := executed_of_drained hr (fun prio => by cases prio <;> assumption) fun f => by
    rcases Nat.lt_or_ge f 3 with hf | hf
    · exact hidle f hf
    · rw [hstart f hf]
      rfl
  rw [hlog] at hdrained
  exact ⟨h, by simpa using hdrained⟩

end NomadTasks
