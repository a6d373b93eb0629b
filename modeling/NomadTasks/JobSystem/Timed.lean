import NomadTasks.JobSystem.Run
import Mathlib.Data.List.Nodup

/-!
# Jobs with a window

`AddJobFor` and `AddDelayedJobFor` make a `DelayedJob` with `_start` and `_end`. `Execute` compares
the clock with `_start` only; `_end` is read in `ShouldRemove`, which `JobSystem::Run` does not
call.

* `JobSystem.readingsOf`: what the calls of `Execute` on a job have read from the clock.
* `TimedInv`: a job is pending until it is first called.
* `runs_whole_window_iff`: a job runs for its whole window exactly if no `Run` reads the clock
  strictly inside it.
-/

namespace NomadTasks

open Transition

variable {env : JobEnv} {h : History JobSystem JobOp} {s s' : JobSystem} {j : ℕ} {w : Window}

/-! ## What concerns one job -/

/-- What the event says that `Execute` has read from the clock, if it is a call on `j`. -/
def JobEvent.readingOf? (j : ℕ) : JobEvent → Option ℤ
  | .execute k reading => if k = j then reading else none
  | _ => none

/-- What the calls of `Execute` on job `j` have read from the clock so far. -/
def JobSystem.readingsOf (s : JobSystem) (j : ℕ) : List ℤ :=
  s.log.filterMap (JobEvent.readingOf? j)

/-- How often the callback of job `j` has been called. -/
def JobSystem.callsOf (s : JobSystem) (j : ℕ) : ℕ :=
  s.log.count (.call j)

/-- In how many calls of `Run` job `j` was pending at the start. -/
def runsPending (j : ℕ) (h : History JobSystem JobOp) : ℕ :=
  h.countP fun e => e.2 = .run ∧ j ∈ e.1.jobs

/-- The readings of a call of `Execute` concern its job. -/
theorem Execution.filterMap_readingOf (e : Execution) (j : ℕ) :
    e.events.filterMap (JobEvent.readingOf? j) = if e.job = j then e.reading.toList else [] := by
  have hadded : ∀ added : List ℕ,
      (added.map JobEvent.add).filterMap (JobEvent.readingOf? j) = [] := by
    intro added
    simp [List.filterMap_map, Function.comp_def, JobEvent.readingOf?]
  simp only [Execution.events, Execution.begins, List.filterMap_append, hadded]
  cases e.called <;> cases e.removed <;> cases e.reading <;> by_cases hj : e.job = j <;>
    simp [JobEvent.readingOf?, List.filterMap_cons, hj]

theorem Execution.count_call (e : Execution) (j : ℕ) :
    e.events.count (.call j) = if e.job = j ∧ e.called = true then 1 else 0 := by
  have hadded : ∀ added : List ℕ, (added.map JobEvent.add).count (.call j) = 0 := by
    intro added
    simp [List.count_eq_zero]
  simp only [Execution.events, Execution.begins, List.count_append, hadded]
  cases e.called <;> cases e.removed <;> by_cases hj : e.job = j <;> simp [hj]

/-- A loop in which job `j` is not executed. -/
theorem other_executions {es : List Execution} (hes : ∀ e ∈ es, e.job ≠ j) :
    (es.flatMap Execution.events).filterMap (JobEvent.readingOf? j) = [] ∧
      (es.flatMap Execution.events).count (.call j) = 0 := by
  induction es with
  | nil => exact ⟨rfl, rfl⟩
  | cons e es ih =>
    obtain ⟨hread, hcall⟩ := ih fun d hd => hes d (List.mem_cons_of_mem e hd)
    have he := hes e List.mem_cons_self
    simp only [List.flatMap_cons, List.filterMap_append, List.count_append, hread, hcall,
      e.filterMap_readingOf, e.count_call, he]
    simp

/-- A loop in which job `j` is executed by one call of `Execute`. -/
theorem one_execution {es : List Execution} (hnodup : (es.map Execution.job).Nodup)
    {e : Execution} (he : e ∈ es) (hej : e.job = j) :
    (es.flatMap Execution.events).filterMap (JobEvent.readingOf? j) = e.reading.toList ∧
      (es.flatMap Execution.events).count (.call j) = if e.called then 1 else 0 := by
  obtain ⟨before, after, rfl⟩ := List.append_of_mem he
  rw [List.map_append, List.map_cons, List.nodup_append, List.nodup_cons] at hnodup
  obtain ⟨-, ⟨hafter, -⟩, hbefore⟩ := hnodup
  have hne : ∀ d ∈ before, d.job ≠ j := fun d hd hdj =>
    hbefore d.job (List.mem_map_of_mem hd) e.job List.mem_cons_self (hdj.trans hej.symm)
  have hne' : ∀ d ∈ after, d.job ≠ j := fun d hd hdj =>
    hafter (List.mem_map.mpr ⟨d, hd, hdj.trans hej.symm⟩)
  obtain ⟨hread, hcall⟩ := other_executions hne
  obtain ⟨hread', hcall'⟩ := other_executions hne'
  simp only [List.flatMap_append, List.flatMap_cons, List.filterMap_append, List.count_append,
    hread, hcall, hread', hcall', e.filterMap_readingOf, e.count_call, hej]
  simp

/-! ## The calls of the user's code, and `Run` -/

theorem Grows.readingsOf {added : List ℕ} (hg : Grows s s' added) :
    s'.readingsOf j = s.readingsOf j ∧ s'.callsOf j = s.callsOf j := by
  have hread : (added.map JobEvent.add).filterMap (JobEvent.readingOf? j) = [] := by
    simp [List.filterMap_map, Function.comp_def, JobEvent.readingOf?]
  have hcall : (added.map JobEvent.add).count (.call j) = 0 := by
    simp [List.count_eq_zero]
  constructor
  · rw [JobSystem.readingsOf, hg.log, List.filterMap_append, hread, List.append_nil]
    rfl
  · rw [JobSystem.callsOf, hg.log, List.count_append, hcall]
    rfl

theorem Grows.mem_log {added : List ℕ} (hg : Grows s s' added) :
    .add j ∈ s'.log ↔ .add j ∈ s.log ∨ j ∈ added := by
  simp [hg.log]

/-- What a `Run` adds to the readings and calls of a job. -/
theorem run_readingsOf (env : JobEnv) (hw : s.WellFormed []) (j : ℕ) :
    (s.run env).1.readingsOf j = s.readingsOf j ++
        ((s.batch env).flatMap Execution.events).filterMap (JobEvent.readingOf? j) ∧
      (s.run env).1.callsOf j = s.callsOf j +
        ((s.batch env).flatMap Execution.events).count (.call j) := by
  obtain ⟨he, -⟩ := run_spec env hw
  constructor
  · simp [JobSystem.readingsOf, he.log, JobEvent.readingOf?, List.filterMap_cons]
  · simp [JobSystem.callsOf, he.log, List.count_append]

theorem run_mem_log (hw : s.WellFormed []) :
    .add j ∈ (s.run env).1.log ↔ .add j ∈ s.log ∨ ∃ e ∈ s.batch env, j ∈ e.added := by
  obtain ⟨he, -⟩ := run_spec env hw
  have hevents : ∀ e : Execution, .add j ∈ e.events ↔ j ∈ e.added := by
    intro e
    simp only [Execution.events, Execution.begins, List.mem_append, List.mem_cons]
    split <;> split <;> simp
  simp [he.log, hevents]

theorem run_mem_jobs (hw : s.WellFormed []) :
    j ∈ (s.run env).1.jobs ↔ (∃ e ∈ s.batch env, j ∈ e.added) ∨
      ∃ e ∈ s.batch env, e.job = j ∧ e.exit = .returns false := by
  obtain ⟨he, -⟩ := run_spec env hw
  have hpending : ∀ e : Execution,
      j ∈ e.pending ↔ j ∈ e.added ∨ e.job = j ∧ e.exit = .returns false := by
    intro e
    rw [Execution.pending, List.mem_append]
    split <;> simp_all [eq_comm]
  rw [he.jobs]
  simp only [JobSystem.detach_jobs, List.nil_append, List.mem_flatMap, hpending]
  simp only [and_or_left, exists_or]

/-- A job that is not pending is not executed. -/
theorem run_other (env : JobEnv) (hw : s.WellFormed []) (hj : j ∉ s.jobs) :
    (s.run env).1.readingsOf j = s.readingsOf j ∧ (s.run env).1.callsOf j = s.callsOf j ∧
      ∀ e ∈ s.batch env, e.job ≠ j := by
  have hes : ∀ e ∈ s.batch env, e.job ≠ j := by
    rintro e he rfl
    obtain ⟨-, -, hmem, -⟩ := exists_of_mem_executions hw.detach he
    exact hj hmem
  obtain ⟨hread, hcall⟩ := run_readingsOf env hw j
  obtain ⟨hnone, hzero⟩ := other_executions hes
  rw [hread, hcall, hnone, hzero]
  exact ⟨List.append_nil _, rfl, hes⟩

/-- A pending `DelayedJob` whose return type is not `bool` is executed by one call of `Execute`. It
stays pending if `_start` has not been reached. -/
theorem run_timed (hw : s.WellFormed []) (hthrow : s.Unbroken env) (hj : j ∈ s.jobs)
    (hwindow : (s.heap j).window = some w) (hbool : (s.heap j).returnsBool = false) :
    ∃ r, (s.run env).1.readingsOf j = s.readingsOf j ++ [r] ∧
      (s.run env).1.callsOf j = s.callsOf j + (if w.startTime < r then 1 else 0) ∧
      (j ∈ (s.run env).1.jobs ↔ r ≤ w.startTime) := by
  have hmap : (s.batch env).map Execution.job = s.jobs := map_job_executions hthrow
  have hnodup : ((s.batch env).map Execution.job).Nodup := by
    rw [hmap]
    exact hw.nodup
  -- without exceptions every pending job has one execution in the batch
  obtain ⟨e, he, hej⟩ := List.mem_map.mp (hmap ▸ hj)
  obtain ⟨s₀, heq, -, hwindow₀, hbool₀⟩ := exists_of_mem_executions hw.detach he
  rw [hej] at heq hwindow₀ hbool₀
  have hw₀ : (s₀.heap j).window = some w := hwindow₀.trans hwindow
  have hb₀ : (s₀.heap j).returnsBool = false := hbool₀.trans hbool
  have hthrow₀ : e.exit ≠ .throws := hthrow e he
  have hread : e.reading = some (env.now s₀.readings) := by
    rw [heq]
    simp [JobSystem.execution, JobSystem.readingOf, hw₀]
  have hcalled : e.called = decide (w.startTime < env.now s₀.readings) := by
    rw [heq]
    simp [JobSystem.execution, JobSystem.due, hw₀]
  have hexit : e.exit = .returns e.called := by
    rw [heq] at hthrow₀ ⊢
    cases hdue : s₀.due env j <;> cases hout : (env.outcome s₀.calls).exit <;>
      simp_all [JobSystem.execution]
  obtain ⟨hreadings, hcalls⟩ := run_readingsOf env hw j
  obtain ⟨hone, hcall⟩ := one_execution hnodup he hej
  -- that execution reads the clock once, and calls and deletes the job, or neither
  refine ⟨env.now s₀.readings, ?_, ?_, ?_⟩
  · rw [hreadings, hone, hread]
    rfl
  · rw [hcalls, hcall, hcalled]
    simp
  -- the job is not added again
  · have hold : ¬ ∃ e ∈ s.batch env, j ∈ e.added := by
      rintro ⟨d, hd, hjd⟩
      have hge : s.created ≤ j := ((run_spec env hw).1.fresh d hd j hjd).1
      have hlt := hw.created j hj
      omega
    rw [run_mem_jobs hw, or_iff_right hold]
    constructor
    · rintro ⟨d, hd, hdj, hfalse⟩
      obtain rfl : d = e := List.inj_on_of_nodup_map hnodup hd he (hdj.trans hej.symm)
      rw [hexit, hcalled] at hfalse
      simpa using hfalse
    · intro hle
      refine ⟨e, he, hej, ?_⟩
      rw [hexit, hcalled]
      simpa using hle

/-! ## Whole runs -/

/-- No callback that is called in a `Run` throws. -/
def NoThrow (env : JobEnv) (_ : History JobSystem JobOp) (s : JobSystem) (op : JobOp) : Prop :=
  op = .run → s.Unbroken env

instance (env : JobEnv) (h : History JobSystem JobOp) (s : JobSystem) (op : JobOp) :
    Decidable (NoThrow env h s op) :=
  inferInstanceAs (Decidable (_ → _))

/-- Each `Run` with the job pending executes it once; the callback is called if the clock shows more
than `_start`; the job is pending until it has been called at or after `_end`. -/
structure RunsWholeWindow (h : History JobSystem JobOp) (s : JobSystem) (j : ℕ) (w : Window) :
    Prop where
  evaluated : (s.readingsOf j).length = runsPending j h
  called : s.callsOf j = (s.readingsOf j).countP fun r => decide (w.startTime < r)
  pending : j ∈ s.jobs ↔ ∀ r ∈ s.readingsOf j, ¬ (w.startTime < r ∧ w.endTime ≤ r)

/-- At most one reading is past `_start`. -/
def PastOnce (readings : List ℤ) (w : Window) : Prop :=
  (readings.countP fun r => decide (w.startTime < r)) ≤ 1

theorem PastOnce.eq_of_mem {readings : List ℤ} (honce : PastOnce readings w) {r r' : ℤ}
    (hr : r ∈ readings) (hr' : r' ∈ readings) (hstart : w.startTime < r)
    (hstart' : w.startTime < r') : r = r' := by
  rw [PastOnce, List.countP_eq_length_filter] at honce
  have hmem : r ∈ readings.filter fun r => decide (w.startTime < r) :=
    List.mem_filter.mpr ⟨hr, by simpa using hstart⟩
  have hmem' : r' ∈ readings.filter fun r => decide (w.startTime < r) :=
    List.mem_filter.mpr ⟨hr', by simpa using hstart'⟩
  cases hl : readings.filter fun r => decide (w.startTime < r) with
  | nil =>
    rw [hl] at hmem
    cases hmem
  | cons x xs =>
    rw [hl] at honce hmem hmem'
    obtain rfl : xs = [] := List.length_eq_zero_iff.mp (by simpa using honce)
    rw [List.mem_singleton.mp hmem, List.mem_singleton.mp hmem']

/-- What the code does with the job: it is pending until it has been called. -/
structure RunsOnce (h : History JobSystem JobOp) (s : JobSystem) (j : ℕ) (w : Window) : Prop where
  evaluated : (s.readingsOf j).length = runsPending j h
  called : s.callsOf j = (s.readingsOf j).countP fun r => decide (w.startTime < r)
  pending : j ∈ s.jobs ↔ ∀ r ∈ s.readingsOf j, r ≤ w.startTime
  once : PastOnce (s.readingsOf j) w

/-- A job that has been added is executed as its window says; the others are not executed. -/
structure TimedInv (h : History JobSystem JobOp) (s : JobSystem) : Prop where
  addedLt : ∀ j, .add j ∈ s.log → j < s.created
  unadded : ∀ j, .add j ∉ s.log →
    j ∉ s.jobs ∧ s.readingsOf j = [] ∧ s.callsOf j = 0 ∧ runsPending j h = 0
  timed : ∀ j w, .add j ∈ s.log → (s.heap j).window = some w →
    (s.heap j).returnsBool = false → RunsOnce h s j w

/-- A job that has just been added. -/
theorem RunsOnce.of_new (hread : s.readingsOf j = []) (hcall : s.callsOf j = 0)
    (hruns : runsPending j h = 0) (hj : j ∈ s.jobs) : RunsOnce h s j w := by
  constructor <;> simp [PastOnce, hread, hcall, hruns, hj]

theorem runsPending_call (c : UserCall) : runsPending j ((s, .call c) :: h) = runsPending j h := by
  simp [runsPending]

theorem runsPending_run :
    runsPending j ((s, .run) :: h) = runsPending j h + if j ∈ s.jobs then 1 else 0 := by
  simp [runsPending, List.countP_cons]

namespace TimedInv

/-- The calls of the user's code. -/
theorem grows (hi : TimedInv h s) {added : List ℕ} (c : UserCall) (hg : Grows s s' added) :
    TimedInv ((s, .call c) :: h) s' := by
  refine ⟨fun j hj => ?_, fun j hj => ?_, fun j w hj hwindow hbool => ?_⟩
  · rcases hg.mem_log.mp hj with hj | hj
    · exact (hi.addedLt j hj).trans_le hg.created
    · exact (hg.fresh j hj).2.1
  · rw [hg.mem_log, not_or] at hj
    obtain ⟨hjobs, hread, hcall, hruns⟩ := hi.unadded j hj.1
    rw [hg.jobs, List.mem_append, not_or, hg.readingsOf.1, hg.readingsOf.2, runsPending_call]
    exact ⟨⟨hjobs, hj.2⟩, hread, hcall, hruns⟩
  -- a job that was added before keeps its record; one added now has none yet
  · by_cases hold : JobEvent.add j ∈ s.log
    · have hlt := hi.addedLt j hold
      have hnot : j ∉ added := fun hmem => by
        have := (hg.fresh j hmem).1
        omega
      obtain ⟨heval, hcalled, hpending, honce⟩ :=
        hi.timed j w hold ((hg.window j hlt).symm.trans hwindow)
          ((hg.returnsBool j hlt).symm.trans hbool)
      obtain ⟨hread, hcall⟩ := hg.readingsOf (j := j)
      refine ⟨?_, ?_, ?_, ?_⟩
      · rw [hread, runsPending_call, heval]
      · rw [hread, hcall, hcalled]
      · rw [hread, hg.jobs, List.mem_append, or_iff_left hnot, hpending]
      · rwa [hread]
    · have hadd : j ∈ added := (hg.mem_log.mp hj).resolve_left hold
      obtain ⟨-, hread, hcall, hruns⟩ := hi.unadded j hold
      refine .of_new (hg.readingsOf.1.trans hread) (hg.readingsOf.2.trans hcall) ?_ ?_
      · rw [runsPending_call, hruns]
      · rw [hg.jobs]
        exact List.mem_append_right _ hadd

/-- `Run`. -/
theorem run (hi : TimedInv h s) (hw : s.WellFormed []) (hthrow : s.Unbroken env) :
    TimedInv ((s, .run) :: h) (s.run env).1 := by
  obtain ⟨he, -⟩ := run_spec env hw
  have hle : s.created ≤ (s.run env).1.created := he.created
  have hnew : ∀ {j}, (∃ e ∈ s.batch env, j ∈ e.added) → s.created ≤ j := by
    rintro j ⟨e, hmem, hj⟩
    exact (he.fresh e hmem j hj).1
  refine ⟨fun j hj => ?_, fun j hj => ?_, fun j w hj hwindow hbool => ?_⟩
  · rcases (run_mem_log hw).mp hj with hj | ⟨e, hmem, hj⟩
    · exact (hi.addedLt j hj).trans_le hle
    · exact (he.fresh e hmem j hj).2
  · rw [run_mem_log hw, not_or] at hj
    obtain ⟨hjobs, hread, hcall, hruns⟩ := hi.unadded j hj.1
    obtain ⟨hread', hcall', hother⟩ := run_other env hw hjobs
    refine ⟨fun hmem => ?_, hread'.trans hread, hcall'.trans hcall, ?_⟩
    · rcases (run_mem_jobs hw).mp hmem with hadd | ⟨e, hmem, hej, -⟩
      · exact hj.2 hadd
      · exact hother e hmem hej
    · rw [runsPending_run, hruns, if_neg hjobs]
  · by_cases hold : JobEvent.add j ∈ s.log
    · have hlt := hi.addedLt j hold
      have hwindow' := (he.window j hlt).symm.trans hwindow
      have hbool' := (he.returnsBool j hlt).symm.trans hbool
      obtain ⟨heval, hcalled, hpending, honce⟩ := hi.timed j w hold hwindow' hbool'
      -- a pending job is executed; one that has been called is gone for good
      by_cases hjobs : j ∈ s.jobs
      · obtain ⟨r, hread, hcall, hmem⟩ := run_timed hw hthrow hjobs hwindow' hbool'
        -- a pending job has not been called yet
        have hbefore := hpending.mp hjobs
        have hzero : (s.readingsOf j).countP (fun r => decide (w.startTime < r)) = 0 :=
          List.countP_eq_zero.mpr fun r hr => by simpa using hbefore r hr
        refine ⟨?_, ?_, ?_, ?_⟩
        · rw [hread, runsPending_run, if_pos hjobs, List.length_append, heval]
          rfl
        · rw [hread, hcall, hcalled, List.countP_append]
          simp [List.countP_cons]
        · rw [hread, hmem, List.forall_mem_append]
          simpa using fun _ => hbefore
        · rw [PastOnce, hread, List.countP_append, hzero, Nat.zero_add]
          exact List.countP_le_length
      · obtain ⟨hread, hcall, hother⟩ := run_other env hw hjobs
        refine ⟨?_, ?_, ?_, by rwa [hread]⟩
        · rw [hread, runsPending_run, if_neg hjobs, heval, Nat.add_zero]
        · rw [hread, hcall, hcalled]
        · rw [hread, ← hpending, run_mem_jobs hw]
          refine iff_of_false ?_ hjobs
          rintro (hadd | ⟨e, hmem, hej, -⟩)
          · have := hnew hadd
            omega
          · exact hother e hmem hej
    · obtain ⟨hjobs, hread, hcall, hruns⟩ := hi.unadded j hold
      obtain ⟨hread', hcall', -⟩ := run_other env hw hjobs
      refine .of_new (hread'.trans hread) (hcall'.trans hcall) ?_ ?_
      · rw [runsPending_run, hruns, if_neg hjobs]
      · exact (run_mem_jobs hw).mpr (.inl (((run_mem_log hw).mp hj).resolve_left hold))

end TimedInv

/-- It holds at the end of every run. -/
theorem timedInv_of_run (hr : (jobSystem env).Run (NoThrow env) h s) : TimedInv h s := by
  refine hr.invariant (P := TimedInv) (fun s hs => ?_) fun h s op s' hr hi hok hs => ?_
  · obtain rfl : s = .empty := hs
    exact ⟨nofun, fun j _ => ⟨nofun, rfl, rfl, rfl⟩, nofun⟩
  · cases op with
    | call c =>
      cases hs
      exact hi.grows c (Grows.performs env [c] s)
    | run =>
      cases hs
      exact hi.run (wellFormed_of_run hr) (hok rfl)

/-- In every run in which no callback throws, a job with a window whose return type is not `bool` is
executed in its whole window exactly if no reading of the clock lies strictly inside it. -/
theorem runs_whole_window_iff (hr : (jobSystem env).Run (NoThrow env) h s)
    (hj : .add j ∈ s.log) (hwindow : (s.heap j).window = some w)
    (hbool : (s.heap j).returnsBool = false) :
    RunsWholeWindow h s j w ↔
      ∀ r ∈ s.readingsOf j, ¬ (w.startTime < r ∧ r < w.endTime) := by
  obtain ⟨heval, hcalled, hpending, honce⟩ := (timedInv_of_run hr).timed j w hj hwindow hbool
  constructor
  · -- a reading inside has removed the job, and there is no later one that could have
    rintro ⟨-, -, hwhole⟩ r hr ⟨hstart, hend⟩
    have hgone : j ∉ s.jobs := fun hmem => by
      have := hpending.mp hmem r hr
      omega
    rw [hwhole] at hgone
    push Not at hgone
    obtain ⟨r', hr', hstart', hend'⟩ := hgone
    have hsame : r = r' := honce.eq_of_mem hr hr' hstart hstart'
    omega
  -- no reading lies inside, so that the start alone decides
  · intro hinside
    refine ⟨heval, hcalled, hpending.trans ⟨fun hle r hr => ?_, fun hno r hr => ?_⟩⟩
    · have := hle r hr
      omega
    · have := hno r hr
      have := hinside r hr
      omega

/-- `AddJobFor` with a window of 10 ticks, and then `n` calls of `Run`. -/
def jobForTen (n : ℕ) : List JobOp :=
  .call (.add (.addJobFor 10 false)) :: List.replicate n .run

/-- No callback does anything; the clock shows 0 when the job is made, and 20 or 5 afterwards. -/
def clockShows (later : ℤ) : JobEnv where
  outcome _ := ⟨[], .returns true⟩
  now n := if n < 2 then 0 else later

theorem runs_whole_window_iff_after :
    ∃ h s, (jobSystem (clockShows 20)).Run (NoThrow (clockShows 20)) h s ∧
      s.callsOf 0 = 1 ∧ (RunsWholeWindow h s 0 ⟨0, 10⟩ ↔
        ∀ r ∈ s.readingsOf 0, ¬ ((0 : ℤ) < r ∧ r < 10)) := by
  have hrun : ∃ h s, (jobSystem (clockShows 20)).Run (NoThrow (clockShows 20)) h s ∧
      s.callsOf 0 = 1 ∧ .add 0 ∈ s.log ∧ (s.heap 0).window = some ⟨0, 10⟩ ∧
        (s.heap 0).returnsBool = false :=
    System.exists_run_of_trace rfl (jobForTen 2) (by decide)
  obtain ⟨h, s, hr, hcalls, hadd, hwindow, hbool⟩ := hrun
  exact ⟨h, s, hr, hcalls, runs_whole_window_iff hr hadd hwindow hbool⟩

/-- A `Run` in the middle of the window removes the job. -/
theorem removed_inside_window :
    ∃ h s, (jobSystem (clockShows 5)).Run (NoThrow (clockShows 5)) h s ∧ .add 0 ∈ s.log ∧
      (s.heap 0).window = some ⟨0, 10⟩ ∧ (s.heap 0).returnsBool = false ∧
        ¬ RunsWholeWindow h s 0 ⟨0, 10⟩ := by
  have hrun : ∃ h s, (jobSystem (clockShows 5)).Run (NoThrow (clockShows 5)) h s ∧
      .add 0 ∈ s.log ∧ (s.heap 0).window = some ⟨0, 10⟩ ∧ (s.heap 0).returnsBool = false ∧
        s.readingsOf 0 = [5] ∧ 0 ∉ s.jobs :=
    System.exists_run_of_trace rfl (jobForTen 1) (by decide)
  obtain ⟨h, s, hr, hadd, hwindow, hbool, hread, hgone⟩ := hrun
  refine ⟨h, s, hr, hadd, hwindow, hbool, fun hwhole => hgone (hwhole.pending.mpr ?_)⟩
  rw [hread]
  decide

end NomadTasks
