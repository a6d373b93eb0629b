import NomadTasks.JobSystem.Run
import Mathlib.Data.List.Chain

/-!
# Continuations

`IJob::then` makes a job and stores it in `_next`. Only `Job::Run` reads `_next`; the loop of
`JobSystem::Run` calls `Execute`, which does not.

* `ContinuationsRun`: the continuations of a job are executed one after another, a `Run` each.
* `continuations_run_iff`: that holds only as long as there is nothing to execute.
* `callOperator_jobs`: `operator()` would hand the continuation over.
-/

namespace NomadTasks

open Transition

variable {env : JobEnv} {ok : History JobSystem JobOp → JobSystem → JobOp → Prop}
  {h : History JobSystem JobOp} {s s' : JobSystem} {j c : ℕ}

/-! ## Which jobs a `Run` calls -/

theorem Execution.call_mem_events {e : Execution} (hc : .call c ∈ e.events) : e.job = c := by
  simp only [Execution.events, Execution.begins, List.mem_append, List.mem_cons] at hc
  split at hc <;> split at hc <;> simp_all

/-- A `Run` calls the callbacks of pending jobs only. -/
theorem mem_jobs_of_call (hw : s.WellFormed [])
    (hc : .call c ∈ (s.batch env).flatMap Execution.events) : c ∈ s.jobs := by
  obtain ⟨e, he, hce⟩ := List.mem_flatMap.mp hc
  obtain rfl := Execution.call_mem_events hce
  obtain ⟨-, -, hmem, -⟩ := exists_of_mem_executions hw.detach he
  exact hmem

/-- What is pending after a `Run` was pending before, or has been added by a callback. -/
theorem pending_cases (hw : s.WellFormed [])
    (hj : j ∈ (s.batch env).flatMap Execution.pending) :
    j ∈ s.jobs ∨ ∃ e ∈ s.batch env, j ∈ e.added := by
  obtain ⟨e, he, hje⟩ := List.mem_flatMap.mp hj
  rcases List.mem_append.mp hje with hje | hje
  · exact .inr ⟨e, he, hje⟩
  · obtain ⟨-, -, hmem, -⟩ := exists_of_mem_executions hw.detach he
    split at hje
    · exact .inl (List.mem_singleton.mp hje ▸ hmem)
    · cases hje

/-! ## Continuations are never pending -/

/-- The continuations exist, are not pending and have not been called. -/
structure ContinuationInv (s : JobSystem) : Prop where
  next : ∀ j c, (s.heap j).next = some c →
    c < s.created ∧ c ∉ s.jobs ∧ JobEvent.call c ∉ s.log
  called : ∀ c, .call c ∈ s.log → c < s.created

namespace ContinuationInv

/-- The calls of the user's code make new continuations, and add other jobs. -/
theorem grows {added : List ℕ} (hi : ContinuationInv s) (hw : s.WellFormed [])
    (hg : Grows s s' added) : ContinuationInv s' := by
  have hle := hg.created
  have hcall : ∀ c, JobEvent.call c ∈ s'.log ↔ .call c ∈ s.log := by simp [hg.log]
  refine ⟨fun j c hc => ?_, fun c hc => (hi.called c ((hcall c).mp hc)).trans_le hle⟩
  rw [hcall, hg.jobs, List.mem_append]
  rcases hg.next j c hc with hc | ⟨hge, hlt, hnot⟩
  · obtain ⟨hlt, hjobs, hlog⟩ := hi.next j c hc
    refine ⟨hlt.trans_le hle, ?_, hlog⟩
    rintro (hmem | hmem)
    · exact hjobs hmem
    · have := (hg.fresh c hmem).1
      omega
  · refine ⟨hlt, ?_, fun hmem => ?_⟩
    · rintro (hmem | hmem)
      · have := hw.created c hmem
        omega
      · exact hnot hmem
    · have := hi.called c hmem
      omega

/-- A `Run` executes pending jobs only. -/
theorem run (hi : ContinuationInv s) (hw : s.WellFormed []) : ContinuationInv (s.run env).1 := by
  obtain ⟨he, -⟩ := run_spec env hw
  have hle : s.created ≤ (s.run env).1.created := he.created
  have hcall : ∀ c, JobEvent.call c ∈ (s.run env).1.log → .call c ∈ s.log ∨ c ∈ s.jobs := by
    intro c hc
    rw [he.log] at hc
    rcases List.mem_append.mp hc with hc | hc
    · exact .inl (by simpa using hc)
    · exact .inr (mem_jobs_of_call hw hc)
  have hjobs : ∀ c ∈ (s.run env).1.jobs, c ∈ s.jobs ∨ ∃ e ∈ s.batch env, c ∈ e.added := by
    intro c hc
    rw [he.jobs] at hc
    exact pending_cases hw (by simpa using hc)
  -- a link that is there stays fresh, and a link that `Run` makes is to a job made in it
  refine ⟨fun j c hc => ?_, fun c hc => ?_⟩
  · rcases he.next j c hc with hc | ⟨hge, hlt, hnot⟩
    · obtain ⟨hlt, hpend, hlog⟩ := hi.next j c hc
      refine ⟨hlt.trans_le hle, fun hmem => ?_, fun hmem => ?_⟩
      -- only the delegates of the batch could have added the continuation
      · rcases hjobs c hmem with hmem | ⟨e, hmem, hadd⟩
        · exact hpend hmem
        · have : s.created ≤ c := (he.fresh e hmem c hadd).1
          omega
      · exact (hcall c hmem).elim hlog hpend
    · have hge' : s.created ≤ c := hge
      refine ⟨hlt, fun hmem => ?_, fun hmem => ?_⟩
      · rcases hjobs c hmem with hmem | ⟨e, hmem, hadd⟩
        · have := hw.created c hmem
          omega
        · exact hnot e hmem hadd
      · rcases hcall c hmem with hmem | hmem
        · have := hi.called c hmem
          omega
        · have := hw.created c hmem
          omega
  · rcases hcall c hc with hc | hc
    · exact (hi.called c hc).trans_le hle
    · exact (hw.created c hc).trans_le hle

end ContinuationInv

/-- It holds at the end of every run. -/
theorem continuationInv_of_run (hr : (jobSystem env).Run ok h s) : ContinuationInv s := by
  refine hr.invariant (P := fun _ s => ContinuationInv s) (fun s hs => ?_)
    fun h s op s' hr hi _ hs => ?_
  · obtain rfl : s = .empty := hs
    exact ⟨nofun, nofun⟩
  · have hw := wellFormed_of_run hr
    cases op with
    | call c =>
      cases hs
      exact hi.grows hw (Grows.performs env [c] s)
    | run =>
      cases hs
      exact hi.run hw

/-! ## The chain of continuations -/

/-- `cs` is the chain of continuations of `j`. -/
def ContinuesWith (s : JobSystem) (j : ℕ) (cs : List ℕ) : Prop :=
  List.IsChain (fun p c => (s.heap p).next = some c) (j :: cs)

/-- How often `Run` has been called after the callback of `j`. -/
def runsAfter (j : ℕ) (h : History JobSystem JobOp) : ℕ :=
  h.countP fun e => e.2 = .run ∧ .call j ∈ e.1.log

/-- The continuations of `j` are executed once, each in a later `Run` than its predecessor, and one
of them in each `Run` after that of `j`. -/
structure ContinuationsRun (h : History JobSystem JobOp) (s : JobSystem) (j : ℕ) (cs : List ℕ) :
    Prop where
  once : ∀ c ∈ cs, s.log.count (.call c) ≤ 1
  later : List.IsChain (fun p c => .call c ∈ s.log →
    ∃ e ∈ h, e.2 = .run ∧ .call p ∈ e.1.log ∧ .call c ∉ e.1.log) (j :: cs)
  executed : ∀ i (hi : i < cs.length), i < runsAfter j h → s.log.count (.call cs[i]) = 1

/-- A member of the chain has been attached to some job. -/
theorem ContinuesWith.exists_next {cs : List ℕ} (hc : ContinuesWith s j cs) (hmem : c ∈ cs) :
    ∃ p, (s.heap p).next = some c := by
  induction cs generalizing j with
  | nil => cases hmem
  | cons d cs ih =>
    obtain ⟨hnext, hrest⟩ := List.isChain_cons_cons.mp hc
    rcases List.mem_cons.mp hmem with rfl | hmem
    · exact ⟨j, hnext⟩
    · exact ih hrest hmem

/-- In every run, no continuation is executed: the continuations run as they should exactly if
there are none, or `Run` has not been called since the callback of the job. -/
theorem continuations_run_iff (hr : (jobSystem env).Run ok h s) {cs : List ℕ}
    (hc : ContinuesWith s j cs) : ContinuationsRun h s j cs ↔ cs = [] ∨ runsAfter j h = 0 := by
  have hi := continuationInv_of_run hr
  -- no continuation is ever called
  have hnever : ∀ c ∈ cs, JobEvent.call c ∉ s.log := by
    intro c hmem
    obtain ⟨p, hp⟩ := hc.exists_next hmem
    exact (hi.next p c hp).2.2
  constructor
  · intro hruns
    by_contra! hne
    obtain ⟨hcs, hafter⟩ := hne
    have hpos := List.length_pos_iff.mpr hcs
    have hone := hruns.executed 0 hpos (by omega)
    rw [List.count_eq_zero_of_not_mem (hnever _ (List.getElem_mem hpos))] at hone
    cases hone
  · intro hnothing
    refine ⟨fun c hmem => ?_, ?_, fun i hlt hafter => ?_⟩
    · rw [List.count_eq_zero_of_not_mem (hnever c hmem)]
      omega
    · exact hc.imp fun p c hp hcall => absurd hcall (hi.next p c hp).2.2
    · rcases hnothing with rfl | hzero
      · cases hlt
      · omega

/-- No callback does anything. -/
def doNothing : JobEnv where
  outcome _ := ⟨[], .returns true⟩
  now n := n

/-- A job with a continuation, and then `n` calls of `Run`. -/
def thenRuns (n : ℕ) : List JobOp :=
  [.call (.add (.addJob false)), .call (.thenJob 0 false)] ++ List.replicate n .run

instance (s : JobSystem) (j : ℕ) (cs : List ℕ) : Decidable (ContinuesWith s j cs) :=
  inferInstanceAs (Decidable (List.IsChain _ _))

theorem continuations_run_iff_first :
    ∃ h s, (jobSystem doNothing).Run (fun _ _ _ => True) h s ∧ ContinuesWith s 0 [1] ∧
      (ContinuationsRun h s 0 [1] ↔ [1] = ([] : List ℕ) ∨ runsAfter 0 h = 0) := by
  have hrun : ∃ (h : History JobSystem JobOp) (s : JobSystem),
      (jobSystem doNothing).Run (fun _ _ _ => True) h s ∧ ContinuesWith s 0 [1] :=
    System.exists_run_of_trace rfl (thenRuns 1) (by decide)
  obtain ⟨h, s, hr, hc⟩ := hrun
  exact ⟨h, s, hr, hc, continuations_run_iff hr hc⟩

/-- The second `Run` does not execute the continuation. -/
theorem continuation_not_run :
    ∃ h s, (jobSystem doNothing).Run (fun _ _ _ => True) h s ∧ ContinuesWith s 0 [1] ∧
      ¬ ContinuationsRun h s 0 [1] := by
  have hrun : ∃ (h : History JobSystem JobOp) (s : JobSystem),
      (jobSystem doNothing).Run (fun _ _ _ => True) h s ∧ ContinuesWith s 0 [1] ∧
        runsAfter 0 h = 1 ∧ s.log.count (.call 1) = 0 :=
    System.exists_run_of_trace rfl (thenRuns 2) (by decide)
  obtain ⟨h, s, hr, hc, hafter, hcount⟩ := hrun
  refine ⟨h, s, hr, hc, fun hruns => ?_⟩
  have hone := hruns.executed 0 (by decide) (by omega)
  rw [show ([1] : List ℕ)[0] = 1 from rfl, hcount] at hone
  cases hone

/-! ## `operator()` -/

/-- `operator()` hands the continuation of a job to the `JobSystem` once `Execute` has returned
`true`. -/
theorem callOperator_jobs {next : ℕ} (hj : j < s.created)
    (hexit : (s.execution env j).exit = .returns true)
    (hnext : ((s.execute env j).1.heap j).next = some next) :
    (s.callOperator env j).1.jobs = s.jobs ++ (s.execution env j).added ++ [next] := by
  obtain ⟨hg, heq⟩ := execute_spec env hj
  have hjobs := hg.jobs
  have hremove : ∀ s : JobSystem, (s.shouldRemove env j).1.jobs = s.jobs := by
    intro s
    rw [JobSystem.shouldRemove]
    split <;> rfl
  rcases hs : s.execute env j with ⟨s', exit⟩
  rw [hs] at heq hnext hjobs
  obtain rfl : exit = .returns true := heq.trans hexit
  have hnext' : (s'.heap j).next = some next := hnext
  simp only [JobSystem.callOperator, hs, hnext', hremove, JobSystem.handOver_jobs]
  exact congrArg (· ++ [next]) hjobs

end NomadTasks
