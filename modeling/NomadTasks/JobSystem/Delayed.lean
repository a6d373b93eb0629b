import NomadTasks.JobSystem.Timed
import NomadTasks.JobSystem.Exceptions

/-!
# Delayed jobs

`AddDelayedJob` makes a `DelayedJob`, whose `Execute` calls the callback only if the clock shows
more than `_start`. The one `bool` that `Execute` returns says whether `Run` deletes the job: it is
`false` both for a job that is not due and for a `bool` callback that wants to be called again.

* `JobSystem.evaluations`: what a `Run` reads from the clock for a job.
* `DueRun`, `DoneRun`: the calls of `Run` that find the job due, and that are done with it.
* `FiresOnce`, `FiresUntilTrue`: what a delayed job does, for both kinds of callback.
* `delayed_job_fires`: every delayed job does it, in every run.
-/

namespace NomadTasks

open Transition

variable {env : JobEnv} {ok : History JobSystem JobOp → JobSystem → JobOp → Prop}
  {h : History JobSystem JobOp} {s s' : JobSystem} {j : ℕ} {w : Window} {start : ℤ}

/-- What the calls of `Execute` on job `j` read from the clock in a `Run`. -/
def JobSystem.evaluations (env : JobEnv) (s : JobSystem) (j : ℕ) : List ℤ :=
  ((s.run env).1.readingsOf j).drop (s.readingsOf j).length

/-- A `Run` that evaluates job `j` at a reading later than `start`. -/
def DueRun (env : JobEnv) (j : ℕ) (start : ℤ) (e : JobSystem × JobOp) : Prop :=
  e.2 = .run ∧ ∃ r ∈ e.1.evaluations env j, start < r

/-- A `Run` in which the callback of job `j` returns `true`. -/
def TrueRun (env : JobEnv) (j : ℕ) (e : JobSystem × JobOp) : Prop :=
  e.2 = .run ∧ ∃ d ∈ e.1.batch env, d.job = j ∧ d.called = true ∧ d.exit = .returns true

/-- A `Run` that evaluates job `j` and does not put it back. -/
def DoneRun (env : JobEnv) (j : ℕ) (e : JobSystem × JobOp) : Prop :=
  e.2 = .run ∧ ∃ d ∈ e.1.batch env, d.job = j ∧ d.exit ≠ .returns false

/-- No callback has thrown in a `Run`. -/
def NeverThrown (env : JobEnv) (h : History JobSystem JobOp) : Prop :=
  ∀ e ∈ h, e.2 = .run → e.1.Unbroken env

instance (env : JobEnv) (j : ℕ) (start : ℤ) : DecidablePred (DueRun env j start) :=
  fun e => inferInstanceAs (Decidable (e.2 = .run ∧ ∃ r ∈ e.1.evaluations env j, start < r))

/-- A job is pending from the call that adds it until the last `Run` that evaluates it. Unless an
exception leaves a `Run`, each `Run` evaluates it once while it is pending, and it is pending until
a `Run` that is the last one for it. -/
structure NotDropped (env : JobEnv) (h : History JobSystem JobOp) (s : JobSystem) (j : ℕ)
    (last : JobSystem × JobOp → Prop) : Prop where
  pendingBefore : ∀ before e after, h = after ++ e :: before → e.1.evaluations env j ≠ [] →
    ∀ d ∈ e :: before, .add j ∈ d.1.log → j ∈ d.1.jobs
  evaluated : ∀ e ∈ h, e.2 = .run → e.1.Unbroken env → j ∈ e.1.jobs →
    ∃ r, e.1.evaluations env j = [r]
  pending : NeverThrown env h → (j ∈ s.jobs ↔ ∀ e ∈ h, ¬ last e)

/-- A job whose callback does not return `bool`: it is called in the first `Run` that evaluates it
later than `start`, and in no other; it is pending before this `Run` and gone after it. -/
structure FiresOnce (env : JobEnv) (h : History JobSystem JobOp) (s : JobSystem) (j : ℕ)
    (start : ℤ) : Prop where
  calls : s.callsOf j = if ∃ e ∈ h, DueRun env j start e then 1 else 0
  first : ∀ e ∈ h, DueRun env j start e → e.1.callsOf j = 0 ∧ (e.1.run env).1.callsOf j = 1 ∧
    j ∈ e.1.jobs ∧ j ∉ (e.1.run env).1.jobs
  gone : ∀ before e after, h = after ++ e :: before → DueRun env j start e →
    j ∉ s.jobs ∧ ∀ d ∈ after, j ∉ d.1.jobs ∧ ¬ DueRun env j start d
  kept : NotDropped env h s j (DueRun env j start)

/-- A job whose callback returns `bool`: it is called once in each `Run` that evaluates it later
than `start`, and the first one in which it returns `true` is the last one. -/
structure FiresUntilTrue (env : JobEnv) (h : History JobSystem JobOp) (s : JobSystem) (j : ℕ)
    (start : ℤ) : Prop where
  calls : s.callsOf j = h.countP fun e => decide (DueRun env j start e)
  each : ∀ e ∈ h, e.2 = .run → (e.1.run env).1.callsOf j =
    e.1.callsOf j + if DueRun env j start e then 1 else 0
  gone : ∀ before e after, h = after ++ e :: before → TrueRun env j e →
    j ∉ s.jobs ∧ ∀ d ∈ after, j ∉ d.1.jobs ∧ ¬ DueRun env j start d
  kept : NotDropped env h s j (TrueRun env j)

/-! ## One `Run` -/

/-- A `Run` that does not execute the job does not evaluate it. -/
theorem evaluations_of_other (hw : s.WellFormed []) (hes : ∀ e ∈ s.batch env, e.job ≠ j) :
    s.evaluations env j = [] ∧ (s.run env).1.callsOf j = s.callsOf j := by
  obtain ⟨hread, hcall⟩ := run_readingsOf env hw j
  obtain ⟨hnone, hzero⟩ := other_executions hes
  rw [hnone, List.append_nil] at hread
  rw [hzero, Nat.add_zero] at hcall
  exact ⟨by rw [JobSystem.evaluations, hread, List.drop_length], hcall⟩

/-- A `Run` that executes a `DelayedJob` evaluates it once, and calls it if it is due. Afterwards
`Execute` returns `false` if the job was not due, and what `Job::Execute` returns otherwise. -/
theorem evaluations_of_executed (hw : s.WellFormed []) {e : Execution} (he : e ∈ s.batch env)
    (hej : e.job = j) (hwindow : (s.heap j).window = some w) :
    ∃ r, s.evaluations env j = [r] ∧ e.called = decide (w.startTime < r) ∧
      (s.run env).1.callsOf j = s.callsOf j + (if w.startTime < r then 1 else 0) ∧
      (e.called = false → e.exit = .returns false) ∧
      (e.called = true → (s.heap j).returnsBool = false → e.exit ≠ .returns false) := by
  have hnodup := (List.nodup_append.mp (nodup_batch env hw)).1
  obtain ⟨s₀, heq, -, hwindow₀, hbool₀⟩ := exists_of_mem_executions hw.detach he
  rw [hej] at heq hwindow₀ hbool₀
  have hw₀ : (s₀.heap j).window = some w := hwindow₀.trans hwindow
  have hread : e.reading = some (env.now s₀.readings) := by
    rw [heq]
    simp [JobSystem.execution, JobSystem.readingOf, hw₀]
  have hcalled : e.called = decide (w.startTime < env.now s₀.readings) := by
    rw [heq]
    simp [JobSystem.execution, JobSystem.due, hw₀]
  have hdue : s₀.due env j = e.called := by
    rw [heq]
    rfl
  obtain ⟨hreadings, hcalls⟩ := run_readingsOf env hw j
  obtain ⟨hone, hcount⟩ := one_execution hnodup he hej
  refine ⟨env.now s₀.readings, ?_, hcalled, ?_, fun hno => ?_, fun hyes hbool => ?_⟩
  · rw [JobSystem.evaluations, hreadings, List.drop_left, hone, hread]
    rfl
  · rw [hcalls, hcount, hcalled]
    simp
  · rw [hno] at hdue
    rw [heq]
    simp [JobSystem.execution, hdue]
  · rw [hyes] at hdue
    have hbool' : (s₀.heap j).returnsBool = false := hbool₀.trans hbool
    rw [heq]
    cases hexit : (env.outcome s₀.calls).exit <;> simp [JobSystem.execution, hdue, hexit, hbool']

/-- A `Run` does not evaluate a job that is not pending. -/
theorem not_due_of_not_mem (env : JobEnv) (start : ℤ) (hw : s.WellFormed []) (hj : j ∉ s.jobs)
    (op : JobOp) : ¬ DueRun env j start (s, op) ∧ ¬ DoneRun env j (s, op) := by
  have hes := (run_other env hw hj).2.2
  constructor
  · rintro ⟨-, r, hr, -⟩
    rw [(evaluations_of_other hw hes).1] at hr
    cases hr
  · rintro ⟨-, d, hd, hdj, -⟩
    exact hes d hd hdj

/-- The callback is called once in a `Run` that finds the job due, and otherwise not. -/
theorem run_callsOf (hw : s.WellFormed []) (hwindow : (s.heap j).window = some w) :
    (s.run env).1.callsOf j =
      s.callsOf j + if DueRun env j w.startTime (s, .run) then 1 else 0 := by
  by_cases hes : ∃ e ∈ s.batch env, e.job = j
  · obtain ⟨e, he, hej⟩ := hes
    obtain ⟨r, heval, -, hcalls, -⟩ := evaluations_of_executed hw he hej hwindow
    rw [hcalls]
    simp [DueRun, heval]
  · push Not at hes
    obtain ⟨heval, hcalls⟩ := evaluations_of_other hw hes
    rw [hcalls]
    simp [DueRun, heval]

/-- A job whose callback does not return `bool` is done with when it is due. -/
theorem doneRun_iff_due (hw : s.WellFormed []) (hwindow : (s.heap j).window = some w)
    (hbool : (s.heap j).returnsBool = false) :
    DoneRun env j (s, .run) ↔ DueRun env j w.startTime (s, .run) := by
  constructor
  · rintro ⟨-, e, he, hej, hexit⟩
    obtain ⟨r, heval, hcalled, -, hno, -⟩ := evaluations_of_executed hw he hej hwindow
    refine ⟨rfl, r, by simp [heval], ?_⟩
    by_contra hle
    exact hexit (hno (by simpa [hcalled] using hle))
  · rintro ⟨-, r, hr, hlt⟩
    by_cases hes : ∃ e ∈ s.batch env, e.job = j
    · obtain ⟨e, he, hej⟩ := hes
      obtain ⟨r', heval, hcalled, -, -, hyes⟩ := evaluations_of_executed hw he hej hwindow
      obtain rfl : r = r' := by simpa [heval] using hr
      exact ⟨rfl, e, he, hej, hyes (by simpa [hcalled] using hlt) hbool⟩
    · push Not at hes
      rw [(evaluations_of_other hw hes).1] at hr
      cases hr

/-- A `Run` in which the callback returns `true` is done with the job. -/
theorem TrueRun.done {e : JobSystem × JobOp} (htrue : TrueRun env j e) : DoneRun env j e := by
  obtain ⟨hop, d, hd, hdj, -, hexit⟩ := htrue
  exact ⟨hop, d, hd, hdj, by simp [hexit]⟩

/-- Without an exception, a job is done with when its callback returns `true`. -/
theorem doneRun_iff_true (hw : s.WellFormed []) (hthrow : s.Unbroken env)
    (hwindow : (s.heap j).window = some w) :
    DoneRun env j (s, .run) ↔ TrueRun env j (s, .run) := by
  constructor
  · rintro ⟨-, e, he, hej, hexit⟩
    obtain ⟨r, -, -, -, hno, -⟩ := evaluations_of_executed hw he hej hwindow
    refine ⟨rfl, e, he, hej, ?_, ?_⟩
    · by_contra hcalled
      exact hexit (hno (by simpa using hcalled))
    · rcases hes : e.exit with result | _
      · cases result with
        | true => rfl
        | false => exact absurd hes hexit
      · exact absurd hes (hthrow e he)
  · exact TrueRun.done

/-- A `Run` that is done with a job does not leave it pending. -/
theorem DoneRun.not_pending (hw : s.WellFormed []) (hdone : DoneRun env j (s, .run)) :
    j ∉ (s.run env).1.jobs := by
  obtain ⟨-, e, he, rfl, hexit⟩ := hdone
  rwa [executed_pending_iff hw he]

/-! ## Between two states of a run -/

/-- What does not change from one state of a run to a later one. -/
structure Later (s s' : JobSystem) : Prop where
  created : s.created ≤ s'.created
  window : ∀ j < s.created, (s'.heap j).window = (s.heap j).window
  returnsBool : ∀ j < s.created, (s'.heap j).returnsBool = (s.heap j).returnsBool
  /-- A job that is not pending does not become so again. -/
  jobs : ∀ j < s.created, j ∉ s.jobs → j ∉ s'.jobs
  calls : ∀ j, s.callsOf j ≤ s'.callsOf j

namespace Later

theorem refl (s : JobSystem) : Later s s :=
  ⟨Nat.le_refl _, fun _ _ => rfl, fun _ _ => rfl, fun _ _ hj => hj, fun _ => Nat.le_refl _⟩

theorem trans {s s' s'' : JobSystem} (hl : Later s s') (hl' : Later s' s'') : Later s s'' := by
  have hle := hl.created
  refine ⟨hle.trans hl'.created, fun j hj => ?_, fun j hj => ?_, fun j hj hnot => ?_,
    fun j => (hl.calls j).trans (hl'.calls j)⟩
  · exact (hl'.window j (hj.trans_le hle)).trans (hl.window j hj)
  · exact (hl'.returnsBool j (hj.trans_le hle)).trans (hl.returnsBool j hj)
  · exact hl'.jobs j (hj.trans_le hle) (hl.jobs j hj hnot)

/-- One step. -/
theorem of_step (op : JobOp) (hw : s.WellFormed []) (hs : (jobSystem env).step s op = some s') :
    Later s s' := by
  cases op with
  | call c =>
    cases hs
    have hg := Grows.performs env [c] s
    refine ⟨hg.created, hg.window, hg.returnsBool, fun j hj hnot hmem => ?_,
      fun j => hg.readingsOf.2.ge⟩
    -- the call only adds jobs that are new
    rcases List.mem_append.mp (hg.jobs ▸ hmem) with hmem | hmem
    · exact hnot hmem
    · have := (hg.fresh j hmem).1
      omega
  | run =>
    cases hs
    obtain ⟨he, -⟩ := run_spec env hw
    refine ⟨he.created, he.window, he.returnsBool, fun j hj hnot hmem => ?_, fun j => ?_⟩
    -- pending after a `Run` is what it has added, or executed and put back
    rcases (run_mem_jobs hw).mp hmem with ⟨e, hmem, hadd⟩ | ⟨e, hmem, hej, -⟩
    · have hge : s.created ≤ j := (he.fresh e hmem j hadd).1
      omega
    · exact (run_other env hw hnot).2.2 e hmem hej
    · rw [(run_readingsOf env hw j).2]
      exact Nat.le_add_right _ _

/-- After a step of the history. -/
theorem of_split {before after : History JobSystem JobOp} {e : JobSystem × JobOp}
    (hr : (jobSystem env).Run ok h s) (hh : h = after ++ e :: before) :
    ∃ s₁, (jobSystem env).step e.1 e.2 = some s₁ ∧ Later e.1 s₁ ∧ Later s₁ s ∧
      ∀ d ∈ after, Later s₁ d.1 := by
  subst hh
  obtain ⟨s₁, hs, hlater, hafter⟩ := hr.after refl (fun _ _ _ => trans)
    fun _ _ _ _ hr' hs' => of_step _ (wellFormed_of_run hr') hs'
  obtain ⟨_, hr'⟩ := hr.before (List.mem_append_right after List.mem_cons_self)
  exact ⟨s₁, hs, of_step _ (wellFormed_of_run hr') hs, hlater, hafter⟩

/-- From a state of the history. -/
theorem of_mem {e : JobSystem × JobOp} (hr : (jobSystem env).Run ok h s) (he : e ∈ h) :
    Later e.1 s := by
  obtain ⟨after, before, hh⟩ := List.append_of_mem he
  obtain ⟨s₁, -, hlater, hlater', -⟩ := of_split hr hh
  exact hlater.trans hlater'

end Later

/-- A job that is made later has not been evaluated in the history. -/
theorem not_due_of_created_le (start : ℤ) (hr : (jobSystem env).Run ok h s) (hj : s.created ≤ j) :
    ∀ e ∈ h, ¬ DueRun env j start e ∧ ¬ DoneRun env j e := by
  rintro ⟨s₀, op⟩ he
  obtain ⟨_, hr₀⟩ := hr.before he
  have hw := wellFormed_of_run hr₀
  refine not_due_of_not_mem env start hw (fun hmem => ?_) op
  have hlt : j < s₀.created := hw.created j (by simpa using hmem)
  have hle : s₀.created ≤ s.created := (Later.of_mem hr he).created
  omega

/-- After a `Run` that is done with the job, the job is gone for good. -/
theorem gone_of_doneRun {before after : History JobSystem JobOp} {e : JobSystem × JobOp}
    (hr : (jobSystem env).Run ok h s) (hh : h = after ++ e :: before) (hdone : DoneRun env j e) :
    j ∉ s.jobs ∧ ∀ d ∈ after, j ∉ d.1.jobs ∧ ¬ DueRun env j start d := by
  obtain ⟨s₁, hs, hl₁, hl, hafter⟩ := Later.of_split hr hh
  have he : e ∈ h := by simp [hh]
  obtain ⟨_, hr₀⟩ := hr.before he
  have hw := wellFormed_of_run hr₀
  obtain ⟨s₀, op⟩ := e
  obtain rfl : op = .run := hdone.1
  have hs₁ : (s₀.run env).1 = s₁ := Option.some.inj hs
  -- the job was there when it was executed, so that it cannot become pending again
  have hlt : j < s₁.created := by
    obtain ⟨-, d, hd, rfl, -⟩ := hdone
    obtain ⟨-, -, hmem, -⟩ := exists_of_mem_executions hw.detach hd
    exact (hw.created _ (by simpa using hmem)).trans_le hl₁.created
  have hgone : j ∉ s₁.jobs := hs₁ ▸ hdone.not_pending hw
  refine ⟨hl.jobs j hlt hgone, fun d hd => ?_⟩
  obtain ⟨_, hr'⟩ := hr.before (hh ▸ List.mem_append_left _ hd)
  have hnot := (hafter d hd).jobs j hlt hgone
  exact ⟨hnot, (not_due_of_not_mem env _ (wellFormed_of_run hr') hnot d.2).1⟩

/-! ## Whole runs -/

/-- The calls of the delayed jobs are the `Run`s that find them due, and a job that has been added
is pending as long as no `Run` is done with it. -/
structure DelayedInv (env : JobEnv) (h : History JobSystem JobOp) (s : JobSystem) : Prop where
  addedLt : ∀ j, .add j ∈ s.log → j < s.created
  fresh : ∀ j, s.created ≤ j → s.callsOf j = 0
  calls : ∀ j w, j < s.created → (s.heap j).window = some w →
    s.callsOf j = h.countP fun e => decide (DueRun env j w.startTime e)
  pending : ∀ j, .add j ∈ s.log → NeverThrown env h → (j ∈ s.jobs ↔ ∀ e ∈ h, ¬ DoneRun env j e)

theorem countP_due_eq_zero (hnone : ∀ e ∈ h, ¬ DueRun env j start e) :
    (h.countP fun e => decide (DueRun env j start e)) = 0 :=
  List.countP_eq_zero.mpr fun e he => by simpa using hnone e he

namespace DelayedInv

/-- The calls of the user's code. -/
theorem call (hr : (jobSystem env).Run ok h s) (hi : DelayedInv env h s) (c : UserCall) :
    DelayedInv env ((s, .call c) :: h) (s.perform env c) := by
  have hg : Grows s (s.perform env c) (s.addedBy env [c]) := Grows.performs env [c] s
  -- a call of the user is no `Run`
  have hdue : ∀ {j start}, ¬ DueRun env j start (s, .call c) := by rintro j start ⟨⟨⟩, -⟩
  have hdone : ∀ {j}, ¬ DoneRun env j (s, .call c) := by rintro j ⟨⟨⟩, -⟩
  refine ⟨fun j hj => ?_, fun j hj => ?_, fun j w hj hwindow => ?_, fun j hj hthrow => ?_⟩
  · rcases hg.mem_log.mp hj with hj | hj
    · exact (hi.addedLt j hj).trans_le hg.created
    · exact (hg.fresh j hj).2.1
  · rw [hg.readingsOf.2]
    exact hi.fresh j (hg.created.trans hj)
  · rw [hg.readingsOf.2, List.countP_cons_of_neg (by simpa using hdue)]
    by_cases hlt : j < s.created
    · exact hi.calls j w hlt ((hg.window j hlt).symm.trans hwindow)
    · have hge : s.created ≤ j := Nat.le_of_not_lt hlt
      rw [hi.fresh j hge, countP_due_eq_zero fun e he => (not_due_of_created_le _ hr hge e he).1]
  · have hthrow' : NeverThrown env h := fun e he => hthrow e (List.mem_cons_of_mem _ he)
    rw [hg.jobs, List.mem_append, List.forall_mem_cons, and_iff_right hdone]
    rcases hg.mem_log.mp hj with hold | hnew
    · have hnot : j ∉ s.addedBy env [c] := fun hmem => by
        have := (hg.fresh j hmem).1
        have := hi.addedLt j hold
        omega
      rw [or_iff_left hnot]
      exact hi.pending j hold hthrow'
    · have hge := (hg.fresh j hnew).1
      exact iff_of_true (.inr hnew)
        fun e he => (not_due_of_created_le 0 hr hge e he).2

/-- `Run`. -/
theorem run (hr : (jobSystem env).Run ok h s) (hi : DelayedInv env h s) :
    DelayedInv env ((s, .run) :: h) (s.run env).1 := by
  have hw := wellFormed_of_run hr
  obtain ⟨he, -⟩ := run_spec env hw
  have hle : s.created ≤ (s.run env).1.created := he.created
  -- a job that this `Run` makes was not pending before it
  have hnew : ∀ {j}, s.created ≤ j → j ∉ s.jobs := fun {j} hge hmem => by
    have := hw.created j (by simpa using hmem)
    omega
  refine ⟨fun j hj => ?_, fun j hj => ?_, fun j w hj hwindow => ?_, fun j hj hthrow => ?_⟩
  · rcases (run_mem_log hw).mp hj with hj | ⟨e, hmem, hj⟩
    · exact (hi.addedLt j hj).trans_le hle
    · exact (he.fresh e hmem j hj).2
  · have hge := hle.trans hj
    rw [(run_other env hw (hnew hge)).2.1]
    exact hi.fresh j hge
  · rw [List.countP_cons]
    by_cases hlt : j < s.created
    · have hwindow' : (s.heap j).window = some w := (he.window j hlt).symm.trans hwindow
      rw [run_callsOf hw hwindow', hi.calls j w hlt hwindow']
      simp
    · have hge : s.created ≤ j := Nat.le_of_not_lt hlt
      have hnot := (not_due_of_not_mem env w.startTime hw (hnew hge) .run).1
      rw [(run_other env hw (hnew hge)).2.1, hi.fresh j hge,
        countP_due_eq_zero fun e he => (not_due_of_created_le _ hr hge e he).1]
      simp [hnot]
  · have hthrow' : NeverThrown env h := fun e he => hthrow e (List.mem_cons_of_mem _ he)
    have hunbroken : s.Unbroken env := hthrow _ List.mem_cons_self rfl
    rw [List.forall_mem_cons]
    rcases (run_mem_log hw).mp hj with hold | ⟨d, hd, hadd⟩
    · by_cases hjobs : j ∈ s.jobs
      · -- the whole batch is executed, so that the job has an execution in it
        obtain ⟨d, hd, hdj⟩ := List.mem_map.mp (map_job_executions hunbroken ▸ hjobs)
        have hpend := executed_pending_iff hw hd
        rw [hdj] at hpend
        rw [hpend, and_iff_left ((hi.pending j hold hthrow').mp hjobs)]
        constructor
        · rintro hfalse hdone
          exact hdone.not_pending hw (hpend.mpr hfalse)
        · intro hnot
          by_contra hexit
          exact hnot ⟨rfl, d, hd, hdj, hexit⟩
      · have hlt := hi.addedLt j hold
        refine iff_of_false ((Later.of_step .run hw rfl).jobs j hlt hjobs) ?_
        rintro ⟨-, hnone⟩
        exact hjobs ((hi.pending j hold hthrow').mpr hnone)
    · have hge : s.created ≤ j := (he.fresh d hd j hadd).1
      exact iff_of_true ((run_mem_jobs hw).mpr (.inl ⟨d, hd, hadd⟩))
        ⟨(not_due_of_not_mem env 0 hw (hnew hge) .run).2,
          fun e he => (not_due_of_created_le 0 hr hge e he).2⟩

end DelayedInv

/-- It holds at the end of every run. -/
theorem delayedInv_of_run (hr : (jobSystem env).Run ok h s) : DelayedInv env h s := by
  refine hr.invariant (P := DelayedInv env) (fun s hs => ?_) fun h s op s' hr hi _ hs => ?_
  · obtain rfl : s = .empty := hs
    exact ⟨nofun, fun _ _ => rfl, nofun, nofun⟩
  · cases op with
    | call c =>
      cases hs
      exact hi.call hr c
    | run =>
      cases hs
      exact hi.run hr

/-- A `Run` of the history that finds the job due, or is done with it, had it pending. -/
theorem mem_jobs_of_mem_history (start : ℤ) (hr : (jobSystem env).Run ok h s)
    {e : JobSystem × JobOp} (he : e ∈ h) (hdue : DueRun env j start e ∨ DoneRun env j e) :
    e.1.WellFormed [] ∧ j ∈ e.1.jobs ∧ j < e.1.created := by
  obtain ⟨_, hr₀⟩ := hr.before he
  have hw := wellFormed_of_run hr₀
  have hj : j ∈ e.1.jobs := by
    by_contra hnot
    obtain ⟨hno, hno'⟩ := not_due_of_not_mem env start hw hnot e.2
    exact hdue.elim hno hno'
  exact ⟨hw, hj, hw.created j (by simpa using hj)⟩

/-- If no callback in it throws, a `Run` evaluates each pending delayed job. -/
theorem evaluated_of_unbroken (hw : s.WellFormed []) (hthrow : s.Unbroken env) (hj : j ∈ s.jobs)
    (hwindow : (s.heap j).window = some w) : ∃ r, s.evaluations env j = [r] := by
  obtain ⟨e, he, hej⟩ := List.mem_map.mp (map_job_executions hthrow ▸ hj)
  obtain ⟨r, heval, -⟩ := evaluations_of_executed hw he hej hwindow
  exact ⟨r, heval⟩

/-- A job that a `Run` evaluates was pending since it was added: a job that is not pending does not
become so again. -/
theorem mem_jobs_of_evaluated (hr : (jobSystem env).Run ok h s)
    {before after : History JobSystem JobOp} {e : JobSystem × JobOp} (hh : h = after ++ e :: before)
    (heval : e.1.evaluations env j ≠ []) : ∀ d ∈ e :: before, .add j ∈ d.1.log → j ∈ d.1.jobs := by
  obtain ⟨_, hr₀⟩ := hr.before (e := e) (by simp [hh])
  have hw := wellFormed_of_run hr₀
  have hj : j ∈ e.1.jobs := by
    by_contra hnot
    exact heval (evaluations_of_other hw (run_other env hw hnot).2.2).1
  intro d hd hadd
  rcases List.mem_cons.mp hd with rfl | hd
  · exact hj
  -- otherwise it would not be pending at `e` either
  · obtain ⟨between, before', rfl⟩ := List.append_of_mem hd
    have hsplit : h = (after ++ e :: between) ++ d :: before' := by simp [hh]
    obtain ⟨_, -, hl, -, hafter⟩ := Later.of_split hr hsplit
    obtain ⟨_, hr'⟩ := hr.before (e := d) (by simp [hh])
    have hlt : j < d.1.created := (delayedInv_of_run hr').addedLt j hadd
    by_contra hnot
    exact (hl.trans (hafter e (by simp))).jobs j hlt hnot hj

/-- A delayed job is not dropped, if `last` is what it means that a `Run` is done with it. -/
theorem notDropped_of_run (hr : (jobSystem env).Run ok h s) (hadd : .add j ∈ s.log)
    (hwindow : (s.heap j).window = some w) {last : JobSystem × JobOp → Prop}
    (hlast : NeverThrown env h → ∀ e ∈ h, DoneRun env j e ↔ last e) :
    NotDropped env h s j last := by
  refine ⟨fun _ _ _ => mem_jobs_of_evaluated hr, fun e he _ hthrow hj => ?_, fun hthrow => ?_⟩
  · obtain ⟨_, hr₀⟩ := hr.before he
    have hw := wellFormed_of_run hr₀
    have hlt := hw.created j (by simpa using hj)
    exact evaluated_of_unbroken hw hthrow hj
      (((Later.of_mem hr he).window j hlt).symm.trans hwindow)
  · rw [(delayedInv_of_run hr).pending j hadd hthrow]
    exact forall₂_congr fun e he => not_congr (hlast hthrow e he)

section

variable (hr : (jobSystem env).Run ok h s) (hadd : .add j ∈ s.log)
  (hwindow : (s.heap j).window = some w)

include hr hwindow

/-- The window of the job was the same in each `Run` of the history. -/
theorem window_of_mem_history {e : JobSystem × JobOp} (he : e ∈ h) (hlt : j < e.1.created) :
    (e.1.heap j).window = some w :=
  ((Later.of_mem hr he).window j hlt).symm.trans hwindow

/-- A `Run` is done with a job whose callback does not return `bool` when it finds it due. -/
theorem doneRun_iff_due_of_mem (hbool : (s.heap j).returnsBool = false) {e : JobSystem × JobOp}
    (he : e ∈ h) : DoneRun env j e ↔ DueRun env j w.startTime e := by
  obtain ⟨s₀, op⟩ := e
  -- in both cases the step is a `Run`, and the job is pending before it
  have hdone : DueRun env j w.startTime (s₀, op) ∨ DoneRun env j (s₀, op) →
      (DoneRun env j (s₀, op) ↔ DueRun env j w.startTime (s₀, op)) := by
    intro hor
    obtain ⟨hw, -, hlt⟩ := mem_jobs_of_mem_history _ hr he hor
    obtain rfl : op = .run := hor.elim And.left And.left
    exact doneRun_iff_due hw (window_of_mem_history hr hwindow he hlt)
      (((Later.of_mem hr he).returnsBool j hlt).symm.trans hbool)
  exact ⟨fun hd => (hdone (.inr hd)).mp hd, fun hd => (hdone (.inl hd)).mpr hd⟩

/-- Without exceptions, a `Run` is done with a job when its callback returns `true`. -/
theorem doneRun_iff_true_of_mem (hthrow : NeverThrown env h) {e : JobSystem × JobOp} (he : e ∈ h) :
    DoneRun env j e ↔ TrueRun env j e := by
  obtain ⟨s₀, op⟩ := e
  have hdone : DoneRun env j (s₀, op) →
      (DoneRun env j (s₀, op) ↔ TrueRun env j (s₀, op)) := by
    intro hdone
    obtain ⟨hw, -, hlt⟩ := mem_jobs_of_mem_history 0 hr he (.inr hdone)
    obtain rfl : op = .run := hdone.1
    exact doneRun_iff_true hw (hthrow _ he rfl) (window_of_mem_history hr hwindow he hlt)
  exact ⟨fun hd => (hdone hd).mp hd, fun htrue => htrue.done⟩

include hadd

/-- A job whose callback does not return `bool`. -/
theorem firesOnce_of_run (hbool : (s.heap j).returnsBool = false) :
    FiresOnce env h s j w.startTime := by
  have hi := delayedInv_of_run hr
  have hgone : ∀ before e after, h = after ++ e :: before → DueRun env j w.startTime e →
      j ∉ s.jobs ∧ ∀ d ∈ after, j ∉ d.1.jobs ∧ ¬ DueRun env j w.startTime d :=
    fun before e after hh hdue =>
      gone_of_doneRun hr hh ((doneRun_iff_due_of_mem hr hwindow hbool (by simp [hh])).mpr hdue)
  -- there is at most one such `Run`: the job is gone after it, and so it was not before it
  have honce : s.callsOf j = if ∃ e ∈ h, DueRun env j w.startTime e then 1 else 0 := by
    rw [hi.calls j w (hi.addedLt j hadd) hwindow]
    split
    · next hdue =>
      obtain ⟨e, he, hdue⟩ := hdue
      obtain ⟨after, before, hh⟩ := List.append_of_mem he
      have hafter : ∀ d ∈ after, ¬ DueRun env j w.startTime d := fun d hd =>
        ((hgone before e after hh hdue).2 d hd).2
      have hbefore : ∀ d ∈ before, ¬ DueRun env j w.startTime d := by
        intro d hd hdue'
        obtain ⟨between, before', rfl⟩ := List.append_of_mem hd
        exact ((hgone before' d (after ++ e :: between) (by simp [hh]) hdue').2 e (by simp)).2 hdue
      rw [hh, List.countP_append, List.countP_cons_of_pos (by simpa using hdue),
        countP_due_eq_zero hafter, countP_due_eq_zero hbefore]
    · next hnone => exact countP_due_eq_zero fun e he hdue => hnone ⟨e, he, hdue⟩
  refine ⟨honce, fun e he hdue => ?_, hgone,
    notDropped_of_run hr hadd hwindow fun _ e he => doneRun_iff_due_of_mem hr hwindow hbool he⟩
  obtain ⟨hw, hj, hlt⟩ := mem_jobs_of_mem_history _ hr he (.inl hdue)
  have hdone := (doneRun_iff_due_of_mem hr hwindow hbool he).mpr hdue
  obtain ⟨s₀, op⟩ := e
  obtain rfl : op = .run := hdue.1
  have hone : s.callsOf j = 1 := honce.trans (if_pos ⟨_, he, hdue⟩)
  have hrun : (s₀.run env).1.callsOf j = s₀.callsOf j + 1 := by
    rw [run_callsOf hw (window_of_mem_history hr hwindow he hlt), if_pos hdue]
  -- calls are never taken back, so that the one call there is, is that of this `Run`
  have hmono : (s₀.run env).1.callsOf j ≤ s.callsOf j := by
    obtain ⟨after, before, hh⟩ := List.append_of_mem he
    obtain ⟨s₁, hs, -, hl, -⟩ := Later.of_split hr hh
    obtain rfl : (s₀.run env).1 = s₁ := Option.some.inj hs
    exact hl.calls j
  have hzero : s₀.callsOf j = 0 := by omega
  exact ⟨hzero, by rw [hrun, hzero], hj, hdone.not_pending hw⟩

/-- A job whose callback returns `bool`. -/
theorem firesUntilTrue_of_run : FiresUntilTrue env h s j w.startTime := by
  have hi := delayedInv_of_run hr
  refine ⟨hi.calls j w (hi.addedLt j hadd) hwindow, fun e he hop => ?_,
    fun before e after hh htrue => gone_of_doneRun hr hh htrue.done,
    notDropped_of_run hr hadd hwindow fun hthrow e he =>
      doneRun_iff_true_of_mem hr hwindow hthrow he⟩
  obtain ⟨s₀, op⟩ := e
  obtain rfl : op = .run := hop
  obtain ⟨_, hr₀⟩ := hr.before he
  have hw := wellFormed_of_run hr₀
  by_cases hj : j ∈ s₀.jobs
  · exact run_callsOf hw
      (window_of_mem_history hr hwindow he (hw.created j (by simpa using hj)))
  · rw [(run_other env hw hj).2.1, if_neg (not_due_of_not_mem env _ hw hj .run).1]
    rfl

end

/-- In every run, whatever the other jobs do: a delayed job whose callback does not return `bool` is
called in the first `Run` that evaluates it later than its `_start`, and never else; one whose
callback returns `bool` is called in each such `Run` until it returns `true`. -/
theorem delayed_job_fires (hr : (jobSystem env).Run ok h s) (hadd : .add j ∈ s.log)
    (hwindow : (s.heap j).window = some w) :
    ((s.heap j).returnsBool = false → FiresOnce env h s j w.startTime) ∧
      ((s.heap j).returnsBool = true → FiresUntilTrue env h s j w.startTime) :=
  ⟨firesOnce_of_run hr hadd hwindow, fun _ => firesUntilTrue_of_run hr hadd hwindow⟩

/-- The clock shows 0 when the two jobs are made, and then 8, 10, 12 and so on. The second call of a
callback returns `false`. -/
def everyTwoTicks : JobEnv where
  outcome n := ⟨[], .returns (n ≠ 1)⟩
  now n := if n < 4 then 0 else 2 * n

/-- A job of each kind that is delayed by 10 ticks, and then `n` calls of `Run`. -/
def delayedByTen (n : ℕ) : List JobOp :=
  [.call (.add (.addDelayedJob 10 false)), .call (.add (.addDelayedJob 10 true))] ++
    List.replicate n .run

theorem delayed_job_fires_once :
    ∃ h s, (jobSystem everyTwoTicks).Run (fun _ _ _ => True) h s ∧
      FiresOnce everyTwoTicks h s 0 10 ∧ s.callsOf 0 = 1 ∧
        FiresUntilTrue everyTwoTicks h s 1 10 ∧ s.callsOf 1 = 2 := by
  have hrun : ∃ (h : History JobSystem JobOp) (s : JobSystem),
      (jobSystem everyTwoTicks).Run (fun _ _ _ => True) h s ∧
        (.add 0 ∈ s.log ∧ (s.heap 0).window = some ⟨10, 10⟩ ∧ (s.heap 0).returnsBool = false ∧
          s.callsOf 0 = 1) ∧
        .add 1 ∈ s.log ∧ (s.heap 1).window = some ⟨10, 10⟩ ∧ (s.heap 1).returnsBool = true ∧
          s.callsOf 1 = 2 :=
    System.exists_run_of_trace rfl (delayedByTen 3) (by decide)
  obtain ⟨h, s, hr, ⟨hadd, hwindow, hbool, hcalls⟩, hadd', hwindow', hbool', hcalls'⟩ := hrun
  exact ⟨h, s, hr, (delayed_job_fires hr hadd hwindow).1 hbool, hcalls,
    (delayed_job_fires hr hadd' hwindow').2 hbool', hcalls'⟩

end NomadTasks
