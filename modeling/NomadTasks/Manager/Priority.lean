import NomadTasks.Manager.Exclusive
import NomadTasks.Manager.NextJob

/-!
# Jobs are taken in the order of their priorities

`GetNextJob` polls the High priority queue, then looks for a ready fiber, and then polls the Normal
and the Low priority queue. When it finds a ready fiber, its own fiber is parked in between, and
other jobs run before it goes on.

* `FiberStep.inOrder`: a step of the call keeps the polled queues empty.
* `jobs_in_priority_order`: with one worker thread, jobs are taken in the order of their priorities
  as long as no parked call goes on while it has a High priority job behind it.
* `normal_job_before_high`: a call that does so returns a Normal job before a High one.
-/

namespace NomadTasks

open Transition

/-! ## The runs -/

/-- Only thread `t` schedules jobs and takes jobs of the three priority queues. -/
def SoleWorker (opts : ManagerOptions) (t : ℕ) (s : ManagerState) (a : ManagerAction) : Prop :=
  match managerAct opts s a with
  | some (.enqueue _ _) => a.thread = t
  | some (.dequeue prio) => prio = .io ∨ a.thread = t
  | _ => True

instance (opts : ManagerOptions) (t : ℕ) (s : ManagerState) (a : ManagerAction) :
    Decidable (SoleWorker opts t s a) := by
  unfold SoleWorker
  split <;> infer_instance

/-- The fiber that a thread executes polls the queue. -/
def ManagerState.polls (s : ManagerState) (t : ℕ) : Option JobPriority :=
  (s.running t).bind fun f => (s.fibers f).pc.polls

/-- Queue operations are atomic: a poll of a queue that holds a job takes one. -/
def PollsTruly (s : ManagerState) (a : ManagerAction) : Prop :=
  ∀ prio ∈ s.polls a.thread, s.jobs prio ≠ [] → a.choice = .succeed

instance (s : ManagerState) (a : ManagerAction) : Decidable (PollsTruly s a) :=
  inferInstanceAs (Decidable (∀ prio ∈ s.polls a.thread, _))

/-- The queues that a call of `GetNextJob` at `pc` has polled are empty, or those that it has still
to poll are. -/
def InOrder (jobs : JobPriority → List JobInfo) (pc : FiberPc) : Prop :=
  (∀ prio ∈ pc.polled, jobs prio = []) ∨ ∀ prio ∈ pc.unpolled, jobs prio = []

instance (jobs : JobPriority → List JobInfo) (pc : FiberPc) : Decidable (InOrder jobs pc) :=
  inferInstanceAs (Decidable (_ ∨ _))

/-- A step of thread `t` that resumes a call of `GetNextJob` finds no job in the queues that the
call has polled, or none in those that it has still to poll. -/
def ResumesInOrder (t : ℕ) (s : ManagerState) (a : ManagerAction) : Prop :=
  a.thread = t → ∀ g ∈ s.switchTarget t, InOrder s.jobs (s.fibers g).pc

instance (t : ℕ) (s : ManagerState) (a : ManagerAction) : Decidable (ResumesInOrder t s a) :=
  inferInstanceAs (Decidable (a.thread = t → ∀ g ∈ s.switchTarget t, _))

/-- The priorities whose jobs come first. -/
def JobPriority.above : JobPriority → List JobPriority
  | .high | .io => []
  | .normal => [.high]
  | .low => [.high, .normal]

/-- Whenever `GetNextJob` has taken a Normal job, the High priority queue was empty, and whenever it
has taken a Low one, the High and the Normal priority queue were. -/
def TakesInOrder (opts : ManagerOptions) (h : History ManagerState ManagerAction) : Prop :=
  ∀ e ∈ h, ∀ prio, managerAct opts e.1 e.2 = some (.dequeue prio) →
    ∀ p ∈ prio.above, e.1.jobs p = []

/-! ## One step -/

section Step

variable {opts : ManagerOptions} {s s' : ManagerState} {a : ManagerAction} {t f tls : ℕ}
  {act : Act} {pc pc' : FiberPc}

/-- The calls that poll other queues have not polled the IO queue. -/
theorem FiberPc.io_not_mem_polled (pc : FiberPc) : JobPriority.io ∉ pc.polled := by
  fun_cases FiberPc.polled pc <;> simp

/-- The calls that poll other queues will not poll the IO queue. -/
theorem FiberPc.io_not_mem_unpolled (pc : FiberPc) : JobPriority.io ∉ pc.unpolled := by
  fun_cases FiberPc.unpolled pc <;> simp

/-- What one has found about the queues stays so as long as they do. -/
theorem InOrder.congr {jobs jobs' : JobPriority → List JobInfo} (h : InOrder jobs pc)
    (hjobs : ∀ prio, prio ≠ .io → jobs' prio = jobs prio) : InOrder jobs' pc := by
  refine h.imp (fun h prio hp => ?_) fun h prio hp => ?_
  · rw [hjobs prio fun hio => pc.io_not_mem_polled (hio ▸ hp), h prio hp]
  · rw [hjobs prio fun hio => pc.io_not_mem_unpolled (hio ▸ hp), h prio hp]

/-- A fiber that is not in `GetNextJob` has polled nothing. -/
theorem InOrder.of_polled_nil {jobs : JobPriority → List JobInfo} (h : pc.polled = []) :
    InOrder jobs pc := .inl (by simp [h])

/-- A poll of a queue that holds a job, if it succeeds, takes the job. -/
theorem FiberPc.next_of_polls {prio : JobPriority} {job : JobInfo} {rest : List JobInfo}
    (hpc : pc.polls = some prio) (hj : s.jobs prio = job :: rest) :
    pc.next opts s f tls .succeed = some (.dequeue prio, .execute job) := by
  obtain rfl := FiberPc.eq_of_polls hpc
  cases prio <;> simp [FiberPc.pollOf, FiberPc.next, NextJobPc.next, ManagerState.dequeue, hj]

/-- A poll that finds nothing has found the queue empty. -/
theorem PollsTruly.empty (hpoll : PollsTruly s a) (hrun : s.running a.thread = some f)
    (hact : managerAct opts s a = some .none) {prio : JobPriority}
    (hpc : (s.fibers f).pc.polls = some prio) : s.jobs prio = [] := by
  by_contra hne
  obtain ⟨job, rest, hj⟩ := List.exists_cons_of_ne_nil hne
  have hchoice := hpoll prio (by simp [ManagerState.polls, hrun, hpc]) hne
  rw [managerAct, hrun] at hact
  simp only [hchoice, FiberPc.next_of_polls hpc hj, Option.map_some] at hact
  cases hact

/-- A step of a call of `GetNextJob` keeps what it has found. -/
theorem FiberStep.inOrder (h : FiberStep opts s f tls pc act pc')
    (hempty : act = .none → ∀ prio, pc.polls = some prio → s.jobs prio = [])
    (hin : InOrder s.jobs pc) : InOrder (s.apply t f act).jobs pc' := by
  cases h with
  -- what has been polled is empty, or what is still to be polled is
  | noHigh =>
    refine .inl fun prio hp => ?_
    obtain rfl : prio = .high := by simpa [FiberPc.polled] using hp
    exact hempty rfl .high rfl
  | noNormal =>
    have hnormal := hempty rfl .normal rfl
    rcases hin with hin | hin
    · refine .inl fun prio hp => ?_
      rcases (by simpa [FiberPc.polled] using hp : prio = .high ∨ prio = .normal) with rfl | rfl
      · exact hin .high (by simp [FiberPc.polled])
      · exact hnormal
    · refine .inr fun prio hp => ?_
      obtain rfl : prio = .low := by simpa [FiberPc.unpolled] using hp
      exact hin .low (by simp [FiberPc.unpolled])
  | nothingNext | cleanupNext | readyEnd | readySkip | readyTake | erase | nextSetPrevious
  | nextSetDestination | nextSetCurrent | nextSwitchTo | nextResumed => exact hin
  | @previousPool k | @previousWaiting k | @storeIdle k | @storeStored k =>
    cases k with
    | getNextJob => exact hin
    | worker | waitForCounter => exact .of_polled_nil rfl
  | _ => exact .of_polled_nil rfl

/-- A step of another thread than the sole worker leaves the three queues alone. -/
theorem SoleWorker.jobs_eq (hsole : SoleWorker opts t s a) (ht : a.thread ≠ t)
    (hact : managerAct opts s a = some act) {prio : JobPriority} (hprio : prio ≠ .io) :
    (s.apply a.thread f act).jobs prio = s.jobs prio := by
  rw [SoleWorker, hact] at hsole
  refine ManagerState.apply_jobs (fun job hj => ?_) fun hd => ?_
  · subst hj
    exact ht hsole
  · subst hd
    exact hsole.elim hprio ht

/-- The fiber that the sole worker executes has found the queues in order. -/
def WorkerInOrder (t : ℕ) (s : ManagerState) : Prop :=
  ∀ f, s.running t = some f → InOrder s.jobs (s.fibers f).pc

/-- A fiber that the sole worker executes has found the queues in order after a step, its own or
that of another. -/
theorem WorkerInOrder.stays (hi : WorkerInOrder t s) (hsole : SoleWorker opts t s a)
    (hpoll : PollsTruly s a) (hs : managerStep opts s a = some s') {g : ℕ}
    (hg : s.running t = some g) : InOrder s'.jobs (s'.fibers g).pc := by
  rcases managerStep_act hs with ⟨f, act, pc', hrun, hact, h, rfl⟩ | ⟨act, pc', hrun, hact, h, rfl⟩
  · by_cases hgf : g = f
    · subst hgf
      rw [ManagerState.setFiber_fibers, Function.update_self]
      exact h.inOrder (fun hnone prio => hpoll.empty hrun (hnone ▸ hact)) (hi g hg)
    · have hne : a.thread ≠ t := fun hat => hgf (Option.some.inj (hg.symm.trans (hat ▸ hrun)))
      rw [ManagerState.setFiber_fibers, Function.update_of_ne hgf, ManagerState.apply_fibers]
      exact (hi g hg).congr fun prio hprio => hsole.jobs_eq hne hact hprio
  · have hjobs : ∀ prio, (s.apply a.thread noFiber act).jobs prio = s.jobs prio := fun prio =>
      ManagerState.apply_jobs (h.keepsJobs.1 prio) (h.keepsJobs.2 prio)
    rw [ManagerState.setThread_fibers, ManagerState.apply_fibers]
    exact (hi g hg).congr fun prio _ => hjobs prio

/-- Every step that resumes in order keeps the fiber of the sole worker in order. -/
theorem WorkerInOrder.step (hi : WorkerInOrder t s) (hsole : SoleWorker opts t s a)
    (hpoll : PollsTruly s a) (hresume : ResumesInOrder t s a)
    (hs : managerStep opts s a = some s') : WorkerInOrder t s' := by
  have hm := managerStep_moves hs
  intro g hg
  by_cases hat : a.thread = t
  · subst hat
    rcases hm.move with hsame | ⟨-, hjobs, hnone | ⟨g', htarget, hg'⟩⟩
    · exact hi.stays hsole hpoll hs (hsame ▸ hg)
    · rw [hnone] at hg
      cases hg
    · obtain rfl : g' = g := Option.some.inj (hg'.symm.trans hg)
      by_cases hrun : s.running a.thread = some g'
      · exact hi.stays hsole hpoll hs hrun
      · rw [hm.fibers g' hrun, hjobs]
        exact hresume rfl g' htarget
  · exact hi.stays hsole hpoll hs ((hm.others t (Ne.symm hat)) ▸ hg)

/-- What the sole worker takes, it takes in order. -/
theorem WorkerInOrder.takes (hi : WorkerInOrder t s) (hsole : SoleWorker opts t s a)
    (hs : managerStep opts s a = some s') {prio : JobPriority}
    (hact : managerAct opts s a = some (.dequeue prio)) (hprio : prio ≠ .io) :
    ∀ p ∈ prio.above, s.jobs p = [] := by
  rw [SoleWorker, hact] at hsole
  have hat : a.thread = t := hsole.resolve_left hprio
  rcases managerStep_act hs with ⟨f, act, pc', hrun, hact', h, -⟩ | ⟨act, pc', -, hact', h, -⟩
  · obtain rfl : act = .dequeue prio := Option.some.inj (hact'.symm.trans hact)
    obtain ⟨hpolls, hne⟩ := h.polls_of_dequeue rfl
    have hin := hi f (hat ▸ hrun)
    rw [FiberPc.eq_of_polls hpolls] at hin
    cases prio <;>
      simp_all [InOrder, FiberPc.pollOf, FiberPc.polled, FiberPc.unpolled, JobPriority.above]
  · obtain rfl : act = .dequeue prio := Option.some.inj (hact'.symm.trans hact)
    exact absurd rfl (h.keepsJobs.2 prio)

end Step

/-- In every run with one worker and atomic queue operations, in which no parked call of
`GetNextJob` goes on while it has a job both behind and before it, jobs are taken in the order of
their priorities. -/
theorem jobs_in_priority_order {opts : ManagerOptions} {t : ℕ}
    {h : History ManagerState ManagerAction} {s : ManagerState}
    (hr : (managerSystem opts).Run
      (fun _ s a => SoleWorker opts t s a ∧ PollsTruly s a ∧ ResumesInOrder t s a) h s) :
    TakesInOrder opts h := by
  suffices hinv : WorkerInOrder t s ∧ TakesInOrder opts h from hinv.2
  refine hr.invariant (P := fun h s => WorkerInOrder t s ∧ TakesInOrder opts h) ?_ ?_
  · intro s hs
    obtain rfl : s = .start opts := hs
    refine ⟨fun f hf => ?_, fun e he => ?_⟩
    · cases hf
    · cases he
  · rintro h s a s' - ⟨hi, htakes⟩ ⟨hsole, hpoll, hresume⟩ hs
    refine ⟨hi.step hsole hpoll hresume hs, fun e he prio hact p hp => ?_⟩
    rcases List.mem_cons.mp he with rfl | he
    · refine hi.takes hsole hs hact (fun hio => ?_) p hp
      subst hio
      cases hp
    · exact htakes e he prio hact p hp

/-- The main callback schedules a job and ends; the job schedules another one and waits for it, on
one thread, up to the point where the other one has been executed. -/
def jobWaits : List ManagerAction :=
  threadSteps 0 7 ++
    [⟨0, .op (.scheduleJob .normal (some 7) none)⟩, ⟨0, .succeed⟩, ⟨0, .op .finish⟩] ++
    threadSteps 0 15 ++ [⟨0, .op (.waitForSingle .normal (some 8) 0)⟩, ⟨0, .call 0⟩] ++
    threadSteps 0 7 ++ [⟨0, .address 1⟩, ⟨0, .call 1⟩] ++ threadSteps 0 29 ++
    [⟨0, .op .finish⟩, ⟨0, .call 2⟩] ++ threadSteps 0 12

/-- Both jobs are taken while no job of a higher priority is queued. -/
theorem jobs_in_priority_order_waits :
    ∃ h s, (managerSystem oneWorker).Run
      (fun _ s a => SoleWorker oneWorker 0 s a ∧ PollsTruly s a ∧ ResumesInOrder 0 s a) h s ∧
        s.delegates.length = 3 ∧ TakesInOrder oneWorker h := by
  have hrun : ∃ h s, (managerSystem oneWorker).Run
      (fun _ s a => SoleWorker oneWorker 0 s a ∧ PollsTruly s a ∧ ResumesInOrder 0 s a) h s ∧
        s.delegates.length = 3 :=
    System.exists_run_of_trace_by (managerStepEval_eq _) rfl jobWaits (by decide +kernel)
  obtain ⟨h, s, hr, hlen⟩ := hrun
  exact ⟨h, s, hr, hlen, jobs_in_priority_order hr⟩

/-- The job goes on, while the fiber of the other one is parked inside `GetNextJob`. It schedules a
High and a Normal job and waits for a counter, and the parked call goes on. -/
def jobWaitsAgain : List ManagerAction :=
  jobWaits ++ threadSteps 0 13 ++ [⟨0, .op (.scheduleJob .high (some 9) none)⟩, ⟨0, .succeed⟩,
    ⟨0, .op (.scheduleJob .normal (some 10) none)⟩, ⟨0, .succeed⟩,
    ⟨0, .op (.waitForCounter (some 0) 5)⟩, ⟨0, .succeed⟩, ⟨0, .address 1⟩, ⟨0, .call 0⟩] ++
    threadSteps 0 24

/-- The call takes the Normal job, with the High one in its queue. -/
theorem normal_job_before_high :
    ∃ h s, (managerSystem oneWorker).Run
      (fun _ s a => SoleWorker oneWorker 0 s a ∧ PollsTruly s a) h s ∧
        s.running 0 = some 2 ∧ (s.fibers 2).pc = .execute ⟨some 10, none⟩ ∧
          s.jobs .high = [⟨some 9, none⟩] ∧ ¬ TakesInOrder oneWorker h := by
  have hrun : ∃ h s, (managerSystem oneWorker).Run
      (fun _ s a => SoleWorker oneWorker 0 s a ∧ PollsTruly s a) h s ∧
        s.running 0 = some 2 ∧ (s.fibers 2).pc = .execute ⟨some 10, none⟩ ∧
          s.jobs .high = [⟨some 9, none⟩] ∧ ∃ e ∈ h,
            (managerAct oneWorker e.1 e.2).bind Act.dequeues = some .normal ∧ e.1.jobs .high ≠ [] :=
    System.exists_run_of_trace_by (managerStepEval_eq _) rfl jobWaitsAgain (by decide +kernel)
  obtain ⟨h, s, hr, hrun, hpc, hhigh, e, he, hact, hne⟩ := hrun
  refine ⟨h, s, hr, hrun, hpc, hhigh, fun htakes => hne ?_⟩
  obtain ⟨act, hact, htaken⟩ := Option.bind_eq_some_iff.mp hact
  rw [Act.dequeues_eq_some.mp htaken] at hact
  exact htakes e he .normal hact .high (by decide)

end NomadTasks
