import NomadTasks.JobSystem.Run
import Mathlib.Data.List.Nodup

/-!
# A callback that throws

`Run` moves the list of pending jobs to a local vector before it calls `Execute`. If a callback
throws, the vector is destroyed with the jobs that have not been executed yet still in it.

* `JobSystem.unexecuted`: the jobs that `Run` has not come to.
* `OthersKept`: an exception concerns the job that throws, and no other.
* `others_kept_iff`: that holds only if there is nothing left to execute.
-/

namespace NomadTasks

open Transition

variable {env : JobEnv} {ok : History JobSystem JobOp → JobSystem → JobOp → Prop}
  {h : History JobSystem JobOp} {s : JobSystem} {i j : ℕ}

/-- The callback of the pending job at position `i` throws in `Run`. -/
def ThrowsAt (env : JobEnv) (s : JobSystem) (i : ℕ) : Prop :=
  ∃ e, (s.batch env)[i]? = some e ∧ e.exit = .throws

/-- The jobs that were pending before a `Run`, and on which it has not called `Execute`. -/
def JobSystem.unexecuted (env : JobEnv) (s : JobSystem) : List ℕ :=
  s.jobs.drop (s.batch env).length

/-- After an exception has left `Run`, the jobs that were not executed are still pending, whatever
the user adds next, and the next `Run` executes them once and in their order. Of the others, those
are pending whose `Execute` has returned `false`. -/
structure OthersKept (env : JobEnv) (s : JobSystem) : Prop where
  pending : ∀ j ∈ s.unexecuted env, j ∈ (s.run env).1.jobs
  next : ∀ calls : List UserCall,
    (calls.foldl (JobSystem.perform env) (s.run env).1).Unbroken env →
      (((calls.foldl (JobSystem.perform env) (s.run env).1).batch env).map Execution.job).filter
        (· ∈ s.unexecuted env) = s.unexecuted env
  earlier : ∀ e ∈ s.batch env, e.exit ≠ .throws →
    (e.job ∈ (s.run env).1.jobs ↔ e.exit = .returns false)

/-- The jobs of a `Run` are the executed ones, and then the others. -/
theorem jobs_eq_append_unexecuted (env : JobEnv) (s : JobSystem) :
    s.jobs = (s.batch env).map Execution.job ++ s.unexecuted env := by
  obtain ⟨rest, hrest⟩ := isPrefix_executions env s.jobs s.detach
  have hlen : (s.batch env).length = ((s.batch env).map Execution.job).length := by simp
  rw [JobSystem.unexecuted, hlen]
  conv_lhs => rw [← hrest]
  conv_rhs => rw [← hrest]
  rw [JobSystem.batch, List.drop_left]

/-- A pending job has one execution in the batch, or it is left over. -/
theorem nodup_batch (env : JobEnv) (hw : s.WellFormed []) :
    ((s.batch env).map Execution.job ++ s.unexecuted env).Nodup := by
  rw [← jobs_eq_append_unexecuted]
  simpa using hw.nodup

/-- The callbacks add jobs that were not there. -/
theorem not_added_of_mem_jobs (env : JobEnv) (hw : s.WellFormed []) (hj : j ∈ s.jobs) :
    ¬ ∃ e ∈ s.batch env, j ∈ e.added := by
  rintro ⟨e, he, hadd⟩
  have hge : s.created ≤ j := ((run_spec env hw).1.fresh e he j hadd).1
  have hlt := hw.created j (by simpa using hj)
  omega

/-- What is pending after a `Run`, of the jobs that were pending before. -/
theorem mem_run_jobs_iff (hw : s.WellFormed []) (hj : j ∈ s.jobs) :
    j ∈ (s.run env).1.jobs ↔ ∃ e ∈ s.batch env, e.job = j ∧ e.exit = .returns false := by
  have hold := not_added_of_mem_jobs env hw hj
  rw [(run_spec env hw).1.jobs, JobSystem.detach_jobs, List.nil_append, List.mem_flatMap]
  constructor
  · rintro ⟨e, he, hmem⟩
    rcases List.mem_append.mp hmem with hmem | hmem
    · exact absurd ⟨e, he, hmem⟩ hold
    -- an execution leaves its own job pending only if it has returned `false`
    · split at hmem
      · next hexit => exact ⟨e, he, (List.mem_singleton.mp hmem).symm, hexit⟩
      · cases hmem
  · rintro ⟨e, he, rfl, hexit⟩
    exact ⟨e, he, by simp [Execution.pending, hexit]⟩

/-- A job that has been executed is pending exactly if `Execute` has returned `false`. -/
theorem executed_pending_iff (hw : s.WellFormed []) {e : Execution} (he : e ∈ s.batch env) :
    e.job ∈ (s.run env).1.jobs ↔ e.exit = .returns false := by
  have hj : e.job ∈ s.jobs := by
    rw [jobs_eq_append_unexecuted env s]
    exact List.mem_append_left _ (List.mem_map_of_mem he)
  rw [mem_run_jobs_iff hw hj]
  constructor
  -- the job has one execution in the batch
  · rintro ⟨d, hd, hjob, hexit⟩
    have hnodup := (List.nodup_append.mp (nodup_batch env hw)).1
    obtain rfl := List.inj_on_of_nodup_map hnodup hd he hjob
    exact hexit
  · exact fun hexit => ⟨e, he, rfl, hexit⟩

/-- A job that `Run` has not come to is not pending any more. -/
theorem unexecuted_not_pending (hw : s.WellFormed []) (hj : j ∈ s.unexecuted env) :
    j ∉ (s.run env).1.jobs := by
  have hjobs : j ∈ s.jobs := List.mem_of_mem_drop hj
  rw [mem_run_jobs_iff hw hjobs]
  rintro ⟨e, he, rfl, -⟩
  exact (List.nodup_append.mp (nodup_batch env hw)).2.2 _ (List.mem_map_of_mem he) _ hj rfl

/-- The loop ends with an exception exactly if a callback has thrown. -/
theorem runLoop_returns {batch : List ℕ} (hw : s.WellFormed batch) :
    (s.runLoop env batch).2 = true ↔ ∀ e ∈ s.executions env batch, e.exit ≠ .throws := by
  induction batch generalizing s with
  | nil => simp [JobSystem.runLoop, JobSystem.executions]
  | cons j batch ih =>
    have hj : j < s.created := hw.created j (by simp)
    have hexecuted : (s.execute env j).1.WellFormed (j :: batch) :=
      (execute_spec env hj).1.wellFormed ⟨hw.nodup, hw.created, hw.live⟩
    rw [JobSystem.runLoop_cons env hj, JobSystem.executions]
    cases hexit : (s.execution env j).exit with
    | throws => simp [hexit]
    | returns removed => simp [hexit, ih (hexecuted.settle removed)]

/-- In every run: if the callback of the pending job at position `i` throws, an exception leaves
`Run`, and the other jobs are unharmed exactly if that job is the last one. -/
theorem others_kept_iff (hr : (jobSystem env).Run ok h s) (hthrow : ThrowsAt env s i) :
    (s.run env).2 = false ∧ (OthersKept env s ↔ i + 1 = s.jobs.length) := by
  have hw := wellFormed_of_run hr
  obtain ⟨e, he, hexit⟩ := hthrow
  have hlen : (s.batch env).length = i + 1 := executions_length_of_throws he hexit
  have hleft : (s.run env).2 = false := by
    rw [← Bool.not_eq_true, JobSystem.run, runLoop_returns hw.detach]
    exact fun hnone => hnone e (List.mem_of_getElem? he) hexit
  refine ⟨hleft, fun hkept => ?_, fun hlast => ?_⟩
  -- a job behind position `i` would have to be pending
  · by_contra hne
    have hlt : i + 1 < s.jobs.length := by
      have hle : ((s.batch env).map Execution.job).length ≤ s.jobs.length :=
        (isPrefix_executions env s.jobs s.detach).length_le
      rw [List.length_map] at hle
      omega
    have hmem : s.jobs[i + 1] ∈ s.unexecuted env := by
      rw [JobSystem.unexecuted, hlen, List.drop_eq_getElem_cons hlt]
      exact List.mem_cons_self
    exact unexecuted_not_pending hw hmem (hkept.pending _ hmem)
  -- and without jobs behind it there is nothing to lose
  · have hnil : s.unexecuted env = [] := by
      rw [JobSystem.unexecuted, hlen, hlast, List.drop_length]
    refine ⟨by simp [hnil], by simp [hnil], fun d hd _ => executed_pending_iff hw hd⟩

/-- The `n`-th callback throws, and the others return `true`. -/
def throwsIn (n : ℕ) : JobEnv where
  outcome k := ⟨[], if k = n then .throws else .returns true⟩
  now k := k

instance (env : JobEnv) (s : JobSystem) (i : ℕ) : Decidable (ThrowsAt env s i) :=
  inferInstanceAs (Decidable (∃ e ∈ (s.batch env)[i]?, e.exit = .throws))

/-- Two jobs are added. -/
def twoAdded : List JobOp := [.call (.add (.addJob false)), .call (.add (.addJob false))]

theorem others_kept_iff_second :
    ∃ h s, (jobSystem (throwsIn 1)).Run (fun _ _ _ => True) h s ∧ ThrowsAt (throwsIn 1) s 1 ∧
      OthersKept (throwsIn 1) s := by
  have hrun : ∃ (h : History JobSystem JobOp) (s : JobSystem),
      (jobSystem (throwsIn 1)).Run (fun _ _ _ => True) h s ∧ ThrowsAt (throwsIn 1) s 1 ∧
        1 + 1 = s.jobs.length :=
    System.exists_run_of_trace rfl twoAdded (by decide)
  obtain ⟨h, s, hr, hthrow, hlast⟩ := hrun
  exact ⟨h, s, hr, hthrow, (others_kept_iff hr hthrow).2.mpr hlast⟩

/-- The first of two jobs throws; the second is lost. -/
theorem exception_loses_second :
    ∃ h s, (jobSystem (throwsIn 0)).Run (fun _ _ _ => True) h s ∧ ThrowsAt (throwsIn 0) s 0 ∧
      ¬ OthersKept (throwsIn 0) s := by
  have hrun : ∃ (h : History JobSystem JobOp) (s : JobSystem),
      (jobSystem (throwsIn 0)).Run (fun _ _ _ => True) h s ∧ ThrowsAt (throwsIn 0) s 0 ∧
        s.unexecuted (throwsIn 0) = [1] ∧ 1 ∉ (s.run (throwsIn 0)).1.jobs :=
    System.exists_run_of_trace rfl twoAdded (by decide)
  obtain ⟨h, s, hr, hthrow, hleft, hgone⟩ := hrun
  exact ⟨h, s, hr, hthrow, fun hkept => hgone (hkept.pending 1 (by simp [hleft]))⟩

end NomadTasks
