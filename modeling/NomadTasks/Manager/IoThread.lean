import NomadTasks.Manager.Exclusive
import NomadTasks.Manager.NextJob

/-!
# The IO thread only does IO jobs

`GetNextJob` tests `_isIO` when it is called. A fiber that is parked in the middle of the call, for
a ready fiber, goes on with the Normal and the Low priority queue when it is resumed, on whichever
thread that is.

* `io_thread_only_io`: as long as the IO thread does not resume such a call, the jobs that it
  starts are those that are taken from the IO queue.
* `io_thread_runs_normal_job`: the IO thread starts a job of the Normal priority queue.
-/

namespace NomadTasks

open Transition

/-- The step does not make the IO thread execute a fiber that another thread executes too, and does
not make it go on with a `GetNextJob` that is parked after its test of `_isIO`. -/
def IoApart (opts : ManagerOptions) (_ : History ManagerState ManagerAction) (s : ManagerState)
    (a : ManagerAction) : Prop :=
  ∀ g ∈ s.switchTarget a.thread,
    (opts.isIo a.thread = true →
      (s.fibers g).pc ≠ .getNextJob .parked ∧ ∀ u < opts.threadCount, s.running u ≠ some g) ∧
    ∀ u < opts.threadCount, opts.isIo u = true → s.running u ≠ some g

instance (opts : ManagerOptions) (h : History ManagerState ManagerAction) (s : ManagerState)
    (a : ManagerAction) : Decidable (IoApart opts h s a) :=
  inferInstanceAs (Decidable (∀ g ∈ s.switchTarget a.thread, _))

/-- What holds of a fiber that the IO thread `u` executes. -/
structure OnIo (opts : ManagerOptions) (h : History ManagerState ManagerAction) (u f : ℕ)
    (fiber : FiberState) : Prop where
  notIo : fiber.pc.notIo = false
  isIo : fiber.pc = .getNextJob .isIo → fiber.tls = u
  execute : ∀ job, fiber.pc = .execute job → lastTaken opts f h = some .io

/-- What holds of a fiber that another thread executes. -/
structure OffIo (opts : ManagerOptions) (h : History ManagerState ManagerAction) (f : ℕ)
    (fiber : FiberState) : Prop where
  dequeueIo : fiber.pc ≠ .getNextJob .dequeueIo
  isIo : fiber.pc = .getNextJob .isIo → opts.isIo fiber.tls = false
  execute : ∀ job, fiber.pc = .execute job → lastTaken opts f h ≠ some .io

/-- Only the IO queue is polled before the test of `_isIO` has failed. -/
theorem FiberPc.eq_io_of_polls {pc : FiberPc} {prio : JobPriority} (h : pc.polls = some prio)
    (hpc : pc.notIo = false) : prio = .io := by
  obtain rfl := FiberPc.eq_of_polls h
  cases prio with
  | io => rfl
  | _ => cases hpc

section Fiber

variable {opts : ManagerOptions} {h : History ManagerState ManagerAction} {s : ManagerState}
  {a : ManagerAction} {u f : ℕ} {fiber : FiberState} {act : Act} {pc' : FiberPc}

/-- A fiber at rest that is not inside `GetNextJob` may go on on the IO thread. -/
theorem OnIo.of_atRest (hrest : fiber.pc.atRest = true) (hpc : fiber.pc ≠ .getNextJob .parked) :
    OnIo opts h u f fiber := by
  refine ⟨FiberPc.notIo_of_atRest hrest hpc, fun hp => ?_, fun job hp => ?_⟩
  · rw [hp] at hrest
    cases hrest
  · rw [hp] at hrest
    cases hrest

/-- A fiber at rest may go on on every other thread. -/
theorem OffIo.of_atRest (hrest : fiber.pc.atRest = true) : OffIo opts h f fiber := by
  refine ⟨fun hp => ?_, fun hp => ?_, fun job hp => ?_⟩ <;>
    · rw [hp] at hrest
      cases hrest

/-- The steps of others change nothing for a fiber. -/
theorem OnIo.other (hon : OnIo opts h u f fiber) (hrun : s.running a.thread ≠ some f) :
    OnIo opts ((s, a) :: h) u f fiber where
  notIo := hon.notIo
  isIo := hon.isIo
  execute job hp := by
    rw [lastTaken_other hrun]
    exact hon.execute job hp

theorem OffIo.other (hoff : OffIo opts h f fiber) (hrun : s.running a.thread ≠ some f) :
    OffIo opts ((s, a) :: h) f fiber where
  dequeueIo := hoff.dequeueIo
  isIo := hoff.isIo
  execute job hp := by
    rw [lastTaken_other hrun]
    exact hoff.execute job hp

/-- A step of a fiber on the IO thread. -/
theorem OnIo.step (hon : OnIo opts h a.thread f (s.fibers f)) (hio : opts.isIo a.thread = true)
    (hrun : s.running a.thread = some f) (hact : managerAct opts s a = some act)
    (hstep : FiberStep opts s f ((s.fibers f).currentTLS a.thread) (s.fibers f).pc act pc') :
    OnIo opts ((s, a) :: h) a.thread f ⟨(s.fibers f).currentTLS a.thread, pc'⟩ := by
  obtain ⟨hloop, -, hnot⟩ := hstep.isIo_cases
  refine ⟨?_, fun hp => ?_, fun job hp => ?_⟩
  · -- the test of `_isIO` sends the IO thread to the IO queue
    by_contra hp
    rcases hnot (by simpa using hp) with hp' | ⟨hp', htls⟩
    · rw [hon.notIo] at hp'
      cases hp'
    · have hcur : (s.fibers f).currentTLS a.thread = a.thread := by
        simpa [FiberState.currentTLS, hp', FiberPc.getsCurrentTLS] using hon.isIo hp'
      rw [hcur, hio] at htls
      cases htls
  · have hp' := hloop hp
    simp [FiberState.currentTLS, hp', FiberPc.getsCurrentTLS]
  · obtain ⟨prio, rfl⟩ := hstep.taken.mp ⟨job, hp⟩
    rw [lastTaken_dequeue hact hrun,
      FiberPc.eq_io_of_polls (hstep.polls_of_dequeue rfl).1 hon.notIo]

/-- A step of a fiber on another thread. -/
theorem OffIo.step (hoff : OffIo opts h f (s.fibers f)) (hio : opts.isIo a.thread = false)
    (hrun : s.running a.thread = some f) (hact : managerAct opts s a = some act)
    (hstep : FiberStep opts s f ((s.fibers f).currentTLS a.thread) (s.fibers f).pc act pc') :
    OffIo opts ((s, a) :: h) f ⟨(s.fibers f).currentTLS a.thread, pc'⟩ := by
  obtain ⟨hloop, hdequeue, -⟩ := hstep.isIo_cases
  refine ⟨fun hp => ?_, fun hp => ?_, fun job hp => ?_⟩
  · obtain ⟨hp', htls⟩ := hdequeue hp
    have hcur : (s.fibers f).currentTLS a.thread = (s.fibers f).tls := by
      simp [FiberState.currentTLS, hp', FiberPc.getsCurrentTLS]
    rw [hcur, hoff.isIo hp'] at htls
    cases htls
  · have hp' := hloop hp
    simpa [FiberState.currentTLS, hp', FiberPc.getsCurrentTLS] using hio
  · obtain ⟨prio, rfl⟩ := hstep.taken.mp ⟨job, hp⟩
    rw [lastTaken_dequeue hact hrun]
    rintro ⟨⟩
    exact hoff.dequeueIo (FiberPc.eq_of_polls (hstep.polls_of_dequeue rfl).1)

end Fiber

/-! ## The invariant -/

/-- The IO thread shares no fiber, and every thread executes its fiber as it must. -/
structure ApartInv (opts : ManagerOptions) (h : History ManagerState ManagerAction)
    (s : ManagerState) : Prop where
  rest : RestInv opts s
  alone : ∀ u f t, opts.isIo u = true → s.running u = some f → s.running t = some f → t = u
  onIo : ∀ u f, opts.isIo u = true → s.running u = some f → OnIo opts h u f (s.fibers f)
  offIo : ∀ t f, opts.isIo t = false → s.running t = some f → OffIo opts h f (s.fibers f)

section Invariant

variable {opts : ManagerOptions} {h : History ManagerState ManagerAction} {s s' : ManagerState}
  {a : ManagerAction}

/-- What a fiber that has taken a step knows afterwards, on the thread that it is on. -/
theorem ApartInv.self (hi : ApartInv opts h s) {f : ℕ} (hrun : s.running a.thread = some f)
    (hs : managerStep opts s a = some s') :
    (opts.isIo a.thread = true → OnIo opts ((s, a) :: h) a.thread f (s'.fibers f)) ∧
      (opts.isIo a.thread = false → OffIo opts ((s, a) :: h) f (s'.fibers f)) := by
  rcases managerStep_act hs with ⟨f', act, pc', hrun', hact, hstep, rfl⟩ | ⟨act, pc', hrun', -⟩
  · obtain rfl : f' = f := Option.some.inj (hrun'.symm.trans hrun)
    refine ⟨fun hio => ?_, fun hio => ?_⟩
    · simpa using (hi.onIo _ _ hio hrun).step hio hrun hact hstep
    · simpa using (hi.offIo _ _ hio hrun).step hio hrun hact hstep
  · rw [hrun] at hrun'
    cases hrun'

/-- What a fiber that a thread executes knows after a step, on a thread that stays where it is. -/
theorem ApartInv.stays (hi : ApartInv opts h s) (hs : managerStep opts s a = some s') {t g : ℕ}
    (hg : s.running t = some g) :
    (opts.isIo t = true → OnIo opts ((s, a) :: h) t g (s'.fibers g)) ∧
      (opts.isIo t = false → OffIo opts ((s, a) :: h) g (s'.fibers g)) := by
  by_cases hrun : s.running a.thread = some g
  · obtain ⟨hon, hoff⟩ := hi.self hrun hs
    refine ⟨fun hio => ?_, fun hio => hoff ?_⟩
    · obtain rfl : a.thread = t := hi.alone t g a.thread hio hg hrun
      exact hon hio
    · by_contra hio'
      obtain rfl : t = a.thread := hi.alone a.thread g t (by simpa using hio') hrun hg
      exact hio' hio
  · rw [(managerStep_moves hs).fibers g hrun]
    exact ⟨fun hio => (hi.onIo t g hio hg).other hrun, fun hio => (hi.offIo t g hio hg).other hrun⟩

/-- What the fiber knows that a thread goes on with. -/
theorem ApartInv.enters (hi : ApartInv opts h s) (hok : IoApart opts h s a)
    (hs : managerStep opts s a = some s') {g : ℕ} (htarget : s.switchTarget a.thread = some g) :
    (opts.isIo a.thread = true → OnIo opts ((s, a) :: h) a.thread g (s'.fibers g)) ∧
      (opts.isIo a.thread = false → OffIo opts ((s, a) :: h) g (s'.fibers g)) := by
  have hm := managerStep_moves hs
  obtain ⟨hio, hnot⟩ := hok g htarget
  by_cases hshared : ∃ u, s.running u = some g
  · -- the IO thread does not execute it, and does not go on with it
    obtain ⟨u, hu⟩ := hshared
    have hlt := hi.rest.lt_of_running hu
    refine ⟨fun h => absurd hu ((hio h).2 u hlt), fun _ => (hi.stays hs hu).2 ?_⟩
    by_contra hu'
    exact hnot u hlt (by simpa using hu') hu
  · rw [not_exists] at hshared
    have hrest := hi.rest.rest g hshared
    rw [hm.fibers g (hshared a.thread)]
    exact ⟨fun h => .of_atRest hrest (hio h).1, fun _ => .of_atRest hrest⟩

/-- Every step that keeps the IO thread apart keeps the invariant. -/
theorem ApartInv.step (hi : ApartInv opts h s) (hok : IoApart opts h s a)
    (hs : managerStep opts s a = some s') : ApartInv opts ((s, a) :: h) s' := by
  have hm := managerStep_moves hs
  -- a fiber stays on its kind of thread, or enters it by a switch
  have hall : ∀ t g, s'.running t = some g →
      (opts.isIo t = true → OnIo opts ((s, a) :: h) t g (s'.fibers g)) ∧
        (opts.isIo t = false → OffIo opts ((s, a) :: h) g (s'.fibers g)) := by
    intro t g hg
    by_cases ht : t = a.thread
    · subst ht
      rcases hm.move with hsame | ⟨-, -, hnone | ⟨g', htarget, hg'⟩⟩
      · exact hi.stays hs (hsame ▸ hg)
      · rw [hnone] at hg
        cases hg
      · obtain rfl : g' = g := Option.some.inj (hg'.symm.trans hg)
        exact hi.enters hok hs htarget
    · exact hi.stays hs ((hm.others t ht) ▸ hg)
  refine ⟨hi.rest.step hs, fun u f t hio hu ht => ?_, fun u f hio hu => (hall u f hu).1 hio,
    fun t f hio ht => (hall t f ht).2 hio⟩
  -- only the thread that takes the step can have a new fiber
  by_cases hua : u = a.thread <;> by_cases hta : t = a.thread
  · rw [hua, hta]
  · subst hua
    rw [hm.others t hta] at ht
    rcases hm.move with hsame | ⟨-, -, hnone | ⟨g, htarget, hg⟩⟩
    · exact hi.alone a.thread f t hio (hsame ▸ hu) ht
    · rw [hnone] at hu
      cases hu
    · obtain rfl : g = f := Option.some.inj (hg.symm.trans hu)
      exact absurd ht (((hok g htarget).1 hio).2 t (hi.rest.lt_of_running ht))
  · subst hta
    rw [hm.others u hua] at hu
    rcases hm.move with hsame | ⟨-, -, hnone | ⟨g, htarget, hg⟩⟩
    · exact hi.alone u f a.thread hio hu (hsame ▸ ht)
    · rw [hnone] at ht
      cases ht
    · obtain rfl : g = f := Option.some.inj (hg.symm.trans ht)
      exact absurd hu ((hok g htarget).2 u (hi.rest.lt_of_running hu) hio)
  · rw [hm.others u hua] at hu
    rw [hm.others t hta] at ht
    exact hi.alone u f t hio hu ht

/-- In every run that keeps the IO thread apart, the invariant holds. -/
theorem apartInv_of_run (hr : (managerSystem opts).Run (IoApart opts) h s) : ApartInv opts h s := by
  refine hr.invariant (P := ApartInv opts) (fun s hs => ?_)
    fun _ _ _ _ _ hi hok hs => hi.step hok hs
  obtain rfl : s = .start opts := hs
  refine ⟨.start opts, fun _ _ _ _ hu => ?_, fun _ _ _ hu => ?_, fun _ _ _ hu => ?_⟩ <;> cases hu

end Invariant

/-- The IO thread only does IO jobs, and the only one to do them: a fiber that is about to start a
job on thread `t` has taken it from the IO queue exactly if `t` is the IO thread. -/
def IoOnly (opts : ManagerOptions) (h : History ManagerState ManagerAction) (s : ManagerState) :
    Prop :=
  ∀ t f job, s.running t = some f → (s.fibers f).pc = .execute job →
    (opts.isIo t = true ↔ lastTaken opts f h = some .io)

/-- In every run that keeps the IO thread apart, the IO thread only does IO jobs, and no other
thread does one. -/
theorem io_thread_only_io {opts : ManagerOptions} {h : History ManagerState ManagerAction}
    {s : ManagerState} (hr : (managerSystem opts).Run (IoApart opts) h s) : IoOnly opts h s := by
  have hi := apartInv_of_run hr
  refine fun t f job hrun hpc =>
    ⟨fun hio => (hi.onIo t f hio hrun).execute job hpc, fun htaken => ?_⟩
  by_contra hio
  exact (hi.offIo t f (by simpa using hio) hrun).execute job hpc htaken

/-- The main callback schedules an IO job, and the IO thread takes it. -/
def ioJobTaken : List ManagerAction :=
  threadSteps 0 7 ++ [⟨0, .op (.scheduleJob .io (some 7) none)⟩, ⟨0, .succeed⟩] ++ threadSteps 2 11

theorem io_thread_only_io_taken :
    ∃ h s, (managerSystem twoWorkers).Run (IoApart twoWorkers) h s ∧ s.running 2 = some 1 ∧
      (s.fibers 1).pc = .execute ⟨some 7, none⟩ ∧ lastTaken twoWorkers 1 h = some .io := by
  have hrun : ∃ h s, (managerSystem twoWorkers).Run (IoApart twoWorkers) h s ∧
      s.running 2 = some 1 ∧ (s.fibers 1).pc = .execute ⟨some 7, none⟩ :=
    System.exists_run_of_trace_by (managerStepEval_eq _) rfl ioJobTaken (by decide +kernel)
  obtain ⟨h, s, hr, hrun, hpc⟩ := hrun
  exact ⟨h, s, hr, hrun, hpc, (io_thread_only_io hr 2 1 _ hrun hpc).mp (by decide)⟩

/-- The main callback goes on, schedules a job at Normal priority, and the IO thread, which looks
for its first fiber, finds the one that is parked inside `GetNextJob`. -/
def ioResumesNextJob : List ManagerAction :=
  mainResumes ++ [⟨0, .op (.scheduleJob .normal (some 7) none)⟩, ⟨0, .succeed⟩] ++ threadSteps 2 9

/-- The IO thread starts a job that was taken from the Normal priority queue. -/
theorem io_thread_runs_normal_job :
    ∃ h s, (managerSystem twoWorkers).Run (fun _ _ _ => True) h s ∧ s.running 2 = some 1 ∧
      twoWorkers.isIo 2 = true ∧ lastTaken twoWorkers 1 h = some .normal ∧
        ¬ IoOnly twoWorkers h s := by
  have hrun : ∃ h s, (managerSystem twoWorkers).Run (fun _ _ _ => True) h s ∧
      s.running 2 = some 1 ∧ (s.fibers 1).pc = .execute ⟨some 7, none⟩ ∧
        lastTaken twoWorkers 1 h = some .normal :=
    System.exists_run_of_trace_by (managerStepEval_eq _) rfl ioResumesNextJob (by decide +kernel)
  obtain ⟨h, s, hr, hrun, hpc, htaken⟩ := hrun
  refine ⟨h, s, hr, hrun, by decide, htaken, fun hio => ?_⟩
  have hio := (hio 2 1 _ hrun hpc).mp (by decide)
  rw [htaken] at hio
  cases hio

end NomadTasks
