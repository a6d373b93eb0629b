import NomadTasks.JobSystem.Run
import NomadTasks.Ownership.Tally
import Mathlib.Logic.Relation

/-!
# A `JobSystem` that several threads use

Every thread has a stack of calls of `Run`: a callback may call `Run` again. What is done under
`_executionMutex` is one step; `Execute`, `delete` and the loop of `Run` are steps of their own.

* `JobFrame`, `JobSystem.next`: the program points of a thread, and its steps.
* `threadedSystem`: any number of threads under any interleaving.
* `jobs_once`: a job that has been added and not been deleted is in the list or in one batch.
* `run_threaded`: what `JobSystem.run` computes is what a thread does that is not interrupted.
-/

namespace NomadTasks

open Transition Ownership

/-! ## Threads -/

/-- The program points of a thread, innermost call first. -/
inductive JobFrame
  /-- In `Run`, at the lock. -/
  | swap
  /-- In the loop of `Run`, with the rest of `jobsToRun`. -/
  | loop (rest : List ℕ)
  /-- `job->Execute()`. -/
  | execute (job : ℕ) (rest : List ℕ)
  /-- Inside `_callback()`. -/
  | callback (job : ℕ) (rest : List ℕ)
  /-- `Execute` has returned. -/
  | executed (job : ℕ) (rest : List ℕ) (shouldRemove : Bool)
  /-- In a function that adds a job, which has made the job, at the lock. -/
  | adding (job : ℕ)
  deriving DecidableEq

/-- What a step of a thread leaves open: what the user's code does, or what the clock shows. -/
inductive JobChoice
  | call (c : UserCall) (now₁ now₂ : ℤ)
  | run
  | reset
  /-- The callback returns. -/
  | returns (result : Bool)
  /-- An exception leaves the callback and `Run`. -/
  | throws
  /-- A step of the `JobSystem`'s own code. -/
  | step (now : ℤ)
  deriving DecidableEq

/-- The thread executes code of the user: inside a callback, or outside of all calls. -/
def inUserCode : List JobFrame → Bool
  | [] | .callback .. :: _ => true
  | _ => false

namespace JobSystem

/-- A call of the user's code. `Add(func)` and `AddJob` make the job under the lock, and the others
before. -/
def startCall (s : JobSystem) (stack : List JobFrame) (now₁ now₂ : ℤ) :
    UserCall → JobSystem × List JobFrame
  | .add (.addJob returnsBool) => (s.addCall (.addJob returnsBool) now₁ now₂, stack)
  | .add c =>
      ({ s.construct (c.job now₁ now₂) with readings := s.readings + c.readings },
        .adding s.created :: stack)
  | .thenJob j returnsBool => (s.thenJob j returnsBool, stack)

/-- `Execute` calls the callback. -/
def enter (s : JobSystem) (j : ℕ) (rest : List ℕ) (stack : List JobFrame) :
    JobSystem × List JobFrame :=
  (s.beginCall j, .callback j rest :: stack)

/-- A step of the `JobSystem`'s own code. -/
def advance (s : JobSystem) (now : ℤ) : List JobFrame → Option (JobSystem × List JobFrame)
  | .adding j :: stack => some (s.handOver j, stack)
  | .swap :: stack => some (s.detach, .loop s.jobs :: stack)
  | .loop [] :: stack => some (s, stack)
  | .loop (j :: rest) :: stack => some (s, .execute j rest :: stack)
  | .execute j rest :: stack =>
      match (s.heap j).window with
      | none => some ((s.beginExecute j none).enter j rest stack)
      | some w =>
          if w.startTime < now then some ((s.beginExecute j (some now)).enter j rest stack)
          else some (s.beginExecute j (some now), .executed j rest false :: stack)
  | .executed j rest shouldRemove :: stack =>
      some (if shouldRemove then s.delete j else s.addInternal j, .loop rest :: stack)
  | _ => none

/-- One step of a thread with the given stack. -/
def next (s : JobSystem) (stack : List JobFrame) : JobChoice → Option (JobSystem × List JobFrame)
  | .step now => s.advance now stack
  | .call c now₁ now₂ => if inUserCode stack then some (s.startCall stack now₁ now₂ c) else none
  | .run => if inUserCode stack then some (s, .swap :: stack) else none
  | .reset => if inUserCode stack then some ({ s with jobs := [] }, stack) else none
  | .returns result =>
      match stack with
      | .callback j rest :: stack =>
          if (s.heap j).returnsBool then
            some (s.setResult j result, .executed j rest result :: stack)
          else some (s, .executed j rest true :: stack)
      | _ => none
  | .throws =>
      match stack with
      | .callback _ _ :: stack => some (s, stack)
      | _ => none

end JobSystem

/-- A `JobSystem`, and the stacks of the threads that use it. -/
structure ThreadedState where
  sys : JobSystem
  frames : ℕ → List JobFrame

/-- A step of a thread. -/
structure JobAction where
  thread : ℕ
  choice : JobChoice
  deriving DecidableEq

/-- One step of one of `n` threads. -/
def threadedStep (n : ℕ) (s : ThreadedState) (a : JobAction) : Option ThreadedState :=
  if a.thread < n then
    (s.sys.next (s.frames a.thread) a.choice).map fun (sys, stack) =>
      { sys, frames := Function.update s.frames a.thread stack }
  else none

/-- A `JobSystem` with `n` threads, under any interleaving. -/
def threadedSystem (n : ℕ) : System ThreadedState JobAction where
  init s := s = ⟨.empty, fun _ => []⟩
  step := threadedStep n

/-! ## Where a job is -/

/-- The jobs of a call of `Run` that are not executed yet or are being executed. -/
def JobFrame.jobs : JobFrame → List ℕ
  | .swap | .adding _ => []
  | .loop rest => rest
  | .execute j rest | .callback j rest | .executed j rest _ => j :: rest

/-- The job that a frame is about to add. -/
def JobFrame.made : JobFrame → List ℕ
  | .adding j => [j]
  | _ => []

/-- The occurrences of a job in the batches of a thread. -/
def inBatches (j : ℕ) (stack : List JobFrame) : ℕ := (stack.flatMap JobFrame.jobs).count j

/-- The calls of a thread that are about to add a job. -/
def inAdds (j : ℕ) (stack : List JobFrame) : ℕ := (stack.flatMap JobFrame.made).count j

/-- The occurrences of a job in the list of pending jobs and in the batches of the threads. -/
def ThreadedState.occurrences (n : ℕ) (s : ThreadedState) (j : ℕ) : ℕ :=
  s.sys.jobs.count j + tally n fun t => inBatches j (s.frames t)

/-! ## What a step does with the jobs -/

/-- The step moves jobs between the list and the batches of its thread, adds the ones that it logs
as added and takes away the ones that it logs as deleted. Only new jobs are made. -/
structure Balanced (s : JobSystem) (stack : List JobFrame) (s' : JobSystem)
    (stack' : List JobFrame) : Prop where
  moved : ∀ j, s'.jobs.count j + inBatches j stack' + s'.log.count (.delete j) +
      s.log.count (.add j) =
    s.jobs.count j + inBatches j stack + s.log.count (.delete j) + s'.log.count (.add j)
  made : ∀ j, s'.log.count (.add j) + inAdds j stack' ≤ s.log.count (.add j) + inAdds j stack +
    if s.created ≤ j ∧ j < s'.created then 1 else 0
  created : s.created ≤ s'.created

section Balanced

variable {s s' : JobSystem} {stack stack' : List JobFrame} {c : JobChoice} {j : ℕ}

@[simp] theorem inBatches_cons (frame : JobFrame) :
    inBatches j (frame :: stack) = frame.jobs.count j + inBatches j stack := by
  simp [inBatches]

@[simp] theorem inAdds_cons (frame : JobFrame) :
    inAdds j (frame :: stack) = frame.made.count j + inAdds j stack := by
  simp [inAdds]

/-- A step that makes no job and adds none. -/
theorem Balanced.of_moved (hcreated : s'.created = s.created)
    (hmade : ∀ j, s'.log.count (.add j) + inAdds j stack' = s.log.count (.add j) + inAdds j stack)
    (hmoved : ∀ j, s'.jobs.count j + inBatches j stack' + s'.log.count (.delete j) +
        s.log.count (.add j) =
      s.jobs.count j + inBatches j stack + s.log.count (.delete j) + s'.log.count (.add j)) :
    Balanced s stack s' stack' :=
  ⟨hmoved, fun j => (hmade j).le.trans (Nat.le_add_right _ _), hcreated.ge⟩

/-- A call of the user's code. -/
theorem startCall_balanced (s : JobSystem) (stack : List JobFrame) (now₁ now₂ : ℤ) (c : UserCall) :
    Balanced s stack (s.startCall stack now₁ now₂ c).1 (s.startCall stack now₁ now₂ c).2 := by
  fun_cases JobSystem.startCall s stack now₁ now₂ c
  · refine ⟨fun j => ?_, fun j => ?_, Nat.le_succ _⟩
    · simp [JobSystem.addCall, List.count_singleton]
      omega
    · simp [JobSystem.addCall, List.count_singleton]
      split_ifs <;> omega
  · refine ⟨fun j => ?_, fun j => ?_, Nat.le_succ _⟩
    · simp [JobFrame.jobs]
    · simp [JobFrame.made, List.count_singleton]
      split_ifs <;> omega
  · next j returnsBool =>
    rw [JobSystem.thenJob]
    split
    · refine ⟨fun j => ?_, fun j => ?_, Nat.le_succ _⟩
      · simp
      · simp
    · exact .of_moved rfl (fun _ => rfl) fun _ => rfl

/-- A step of the `JobSystem`'s own code. -/
theorem advance_balanced {now : ℤ} (h : s.advance now stack = some (s', stack')) :
    Balanced s stack s' stack' := by
  revert h
  fun_cases JobSystem.advance s now stack <;> intro h <;> cases h
  · -- `AddInternal(n)`
    refine .of_moved rfl (fun j => ?_) fun j => ?_
    · simp [JobFrame.made, List.count_singleton]
      omega
    · simp [JobFrame.jobs, List.count_singleton]
      omega
  · -- `std::swap(jobsToRun, _jobs)`
    refine .of_moved rfl (fun j => ?_) fun j => ?_
    · simp [JobFrame.made]
    · simp [JobFrame.jobs]
  -- the other steps move no job
  · exact .of_moved rfl (fun j => by simp [JobFrame.made]) fun j => by simp [JobFrame.jobs]
  · exact .of_moved rfl (fun j => by simp [JobFrame.made]) fun j => by simp [JobFrame.jobs]
  · exact .of_moved rfl (fun j => by simp [JobFrame.made]) fun j => by simp [JobFrame.jobs]
  · exact .of_moved rfl (fun j => by simp [JobFrame.made]) fun j => by simp [JobFrame.jobs]
  · exact .of_moved rfl (fun j => by simp [JobFrame.made]) fun j => by simp [JobFrame.jobs]
  -- a job that is done leaves the batch, for the log or for `_jobs`
  · next j rest shouldRemove stack =>
    cases shouldRemove with
    | true =>
      refine .of_moved rfl (fun j => ?_) fun k => ?_
      · simp [JobFrame.made]
      · simp [JobFrame.jobs, List.count_cons]
        omega
    | false =>
      refine .of_moved rfl (fun j => ?_) fun k => ?_
      · simp [JobFrame.made]
      · simp [JobFrame.jobs, List.count_cons]
        omega

/-- Every step but an exception and `Reset`. -/
theorem next_balanced (h : s.next stack c = some (s', stack')) (hthrow : c ≠ .throws)
    (hreset : c ≠ .reset) : Balanced s stack s' stack' := by
  cases c with
  | throws => exact absurd rfl hthrow
  | reset => exact absurd rfl hreset
  | step now => exact advance_balanced h
  | call c now₁ now₂ =>
    simp only [JobSystem.next, Option.ite_none_right_eq_some, Option.some.injEq] at h
    have hbal := startCall_balanced s stack now₁ now₂ c
    rwa [h.2] at hbal
  | run =>
    simp only [JobSystem.next, Option.ite_none_right_eq_some, Option.some.injEq,
      Prod.mk.injEq] at h
    obtain ⟨-, rfl, rfl⟩ := h
    exact .of_moved rfl (fun j => by simp [JobFrame.made]) fun j => by simp [JobFrame.jobs]
  | returns result =>
    simp only [JobSystem.next] at h
    split at h
    · split at h <;> cases h <;>
        exact .of_moved rfl (fun j => by simp [JobFrame.made]) fun j => by simp [JobFrame.jobs]
    · cases h

end Balanced

/-! ## Whole runs -/

/-- No callback throws, and nobody calls `Reset`. -/
def NoThrowNoReset (_ : History ThreadedState JobAction) (_ : ThreadedState) (a : JobAction) :
    Prop :=
  a.choice ≠ .throws ∧ a.choice ≠ .reset

instance (h : History ThreadedState JobAction) (s : ThreadedState) (a : JobAction) :
    Decidable (NoThrowNoReset h s a) :=
  inferInstanceAs (Decidable (_ ∧ _))

/-- What has been added is somewhere, or has been deleted; every job is added at most once. -/
structure LedgerInv (n : ℕ) (s : ThreadedState) : Prop where
  moved : ∀ j, s.occurrences n j + s.sys.log.count (.delete j) = s.sys.log.count (.add j)
  made : ∀ j, s.sys.log.count (.add j) + tally n (fun t => inAdds j (s.frames t)) ≤
    if j < s.sys.created then 1 else 0

theorem LedgerInv.step {n : ℕ} {s s' : ThreadedState} {a : JobAction}
    {h : History ThreadedState JobAction} (hi : LedgerInv n s) (hok : NoThrowNoReset h s a)
    (hs : threadedStep n s a = some s') : LedgerInv n s' := by
  rw [threadedStep] at hs
  split at hs
  · next hlt =>
    simp only [Option.map_eq_some_iff, Prod.exists] at hs
    obtain ⟨sys, stack, hnext, rfl⟩ := hs
    have hbal := next_balanced hnext hok.1 hok.2
    -- the other threads keep their frames, so that the tally changes by the stack of this one
    refine ⟨fun j => ?_, fun j => ?_⟩
    · have htally := tally_update (inBatches j) s.frames hlt stack
      have hmoved := hbal.moved j
      have hold := hi.moved j
      simp only [ThreadedState.occurrences] at *
      omega
    · have htally := tally_update (inAdds j) s.frames hlt stack
      have hmade := hbal.made j
      have hold := hi.made j
      have hle := hbal.created
      dsimp only
      -- the new jobs have not been added before
      split_ifs at hmade hold ⊢ <;> omega
  · cases hs

/-- The ledger is balanced at the end of every run without exceptions and `Reset`. -/
theorem ledgerInv_of_run {n : ℕ} {h : History ThreadedState JobAction} {s : ThreadedState}
    (hr : (threadedSystem n).Run NoThrowNoReset h s) : LedgerInv n s := by
  refine hr.invariant (P := fun _ s => LedgerInv n s) (fun s hs => ?_)
    fun _ _ _ _ _ hi hok hs => hi.step hok hs
  obtain rfl : s = ⟨.empty, fun _ => []⟩ := hs
  constructor <;> intro j <;>
    simp [ThreadedState.occurrences, tally, inBatches, inAdds, JobSystem.empty]

/-- In every run without exceptions and `Reset`, a job occurs once in the list of pending jobs and
the batches of the threads if it has been added and not been deleted, and not at all otherwise. So
no job is deleted twice, and none is in the batches of two threads. -/
theorem jobs_once {n : ℕ} {h : History ThreadedState JobAction} {s : ThreadedState}
    (hr : (threadedSystem n).Run NoThrowNoReset h s) (j : ℕ) :
    (s.occurrences n j = if .add j ∈ s.sys.log ∧ .delete j ∉ s.sys.log then 1 else 0) ∧
      s.sys.log.count (.delete j) ≤ 1 ∧
      ∀ t < n, ∀ u < n, 0 < inBatches j (s.frames t) → 0 < inBatches j (s.frames u) →
        t = u ∧ inBatches j (s.frames t) = 1 ∧ j ∉ s.sys.jobs := by
  have hi := ledgerInv_of_run hr
  have hmoved := hi.moved j
  -- a job is added at most once, since every job is made once
  have hadd : s.sys.log.count (.add j) ≤ 1 := by
    have hmade := hi.made j
    split_ifs at hmade <;> omega
  have hbatch : ∀ t < n, inBatches j (s.frames t) ≤ tally n fun t => inBatches j (s.frames t) :=
    fun t ht => le_tally (fun t => inBatches j (s.frames t)) ht
  have htally : (tally n fun t => inBatches j (s.frames t)) + s.sys.jobs.count j ≤ 1 := by
    rw [ThreadedState.occurrences] at hmoved
    omega
  refine ⟨?_, by omega, fun t ht u hu hpost hposu => ⟨?_, ?_, ?_⟩⟩
  -- the occurrences are the job that was added and is not deleted yet
  · by_cases hadded : JobEvent.add j ∈ s.sys.log
    · have hone := List.count_pos_iff.mpr hadded
      by_cases hdel : JobEvent.delete j ∈ s.sys.log
      · have hdelone := List.count_pos_iff.mpr hdel
        rw [if_neg fun h => h.2 hdel]
        omega
      · rw [if_pos ⟨hadded, hdel⟩]
        have hzero := List.count_eq_zero_of_not_mem hdel
        omega
    · rw [if_neg fun h => hadded h.1]
      have hzero := List.count_eq_zero_of_not_mem hadded
      omega
  · have hle : (tally n fun t => inBatches j (s.frames t)) ≤ 1 := by omega
    exact eq_of_tally_le_one hle ht hu hpost hposu
  · have hle := hbatch t ht
    omega
  · have hle := hbatch t ht
    exact List.count_eq_zero.mp (by omega)

/-- Thread 0 executes job 0, whose callback adds job 2 and calls `Run`, which takes jobs 1 and 2;
meanwhile thread 1 adds job 3 and calls `Run`. -/
def nestedRuns : List JobAction :=
  [⟨0, .call (.add (.addJob true)) 0 0⟩, ⟨0, .run⟩, ⟨0, .step 0⟩, ⟨0, .step 0⟩, ⟨0, .step 0⟩,
    ⟨1, .call (.add (.addDelayedJob 5 false)) 0 0⟩, ⟨1, .step 0⟩,
    ⟨0, .call (.add (.addJob false)) 0 0⟩, ⟨0, .run⟩, ⟨0, .step 0⟩, ⟨0, .step 0⟩,
    ⟨1, .call (.add (.addJob false)) 0 0⟩, ⟨1, .run⟩, ⟨1, .step 0⟩]

theorem jobs_once_nested :
    ∃ h s, (threadedSystem 2).Run NoThrowNoReset h s ∧ inBatches 0 (s.frames 0) = 1 ∧
      inBatches 2 (s.frames 0) = 1 ∧ inBatches 3 (s.frames 1) = 1 ∧ s.occurrences 2 0 = 1 := by
  have hrun : ∃ h s, (threadedSystem 2).Run NoThrowNoReset h s ∧ inBatches 0 (s.frames 0) = 1 ∧
      inBatches 2 (s.frames 0) = 1 ∧ inBatches 3 (s.frames 1) = 1 ∧
        .add 0 ∈ s.sys.log ∧ .delete 0 ∉ s.sys.log :=
    System.exists_run_of_trace rfl nestedRuns (by decide)
  obtain ⟨h, s, hr, hzero, htwo, hthree, hadd, hdel⟩ := hrun
  refine ⟨h, s, hr, hzero, htwo, hthree, ?_⟩
  rw [(jobs_once hr 0).1, if_pos ⟨hadd, hdel⟩]

/-! ## A thread that is not interrupted -/

/-- A step of a thread alone. -/
def Advances (p q : JobSystem × List JobFrame) : Prop := ∃ c, p.1.next p.2 c = some q

section Advances

open Relation

variable (env : JobEnv) {stack : List JobFrame} {j : ℕ} {rest : List ℕ}

/-- The calls of a callback. -/
theorem performs_advances (hcode : inUserCode stack = true) (calls : List UserCall)
    (s : JobSystem) :
    ReflTransGen Advances (s, stack) (calls.foldl (JobSystem.perform env) s, stack) := by
  induction calls generalizing s with
  | nil => exact .refl
  | cons c calls ih =>
    refine .trans ?_ (ih (s.perform env c))
    have hfirst : Advances (s, stack)
        (s.startCall stack (env.now s.readings) (env.now (s.readings + 1)) c) :=
      ⟨.call c (env.now s.readings) (env.now (s.readings + 1)), by simp [JobSystem.next, hcode]⟩
    cases c with
    | thenJob => exact .single hfirst
    | add c =>
      cases c with
      | addJob => exact .single hfirst
      | _ => exact .head hfirst (.single ⟨.step 0, rfl⟩)

/-- The call of the callback, up to its end. -/
theorem executeInternal_advances (s : JobSystem) :
    ReflTransGen Advances (s.enter j rest stack)
      (match s.executeInternal env j with
        | (s, .throws) => (s, stack)
        | (s, .returns shouldRemove) => (s, .executed j rest shouldRemove :: stack)) := by
  refine .trans (performs_advances env rfl (env.outcome s.calls).calls (s.beginCall j)) ?_
  simp only [JobSystem.executeInternal]
  cases (env.outcome s.calls).exit with
  | throws => exact .single ⟨.throws, rfl⟩
  | returns result =>
    refine .single ⟨.returns result, ?_⟩
    simp only [JobSystem.next]
    split <;> simp_all

/-- A call of `Execute`. -/
theorem execute_advances (s : JobSystem) :
    ReflTransGen Advances (s, .execute j rest :: stack)
      (match s.execute env j with
        | (s, .throws) => (s, stack)
        | (s, .returns shouldRemove) => (s, .executed j rest shouldRemove :: stack)) := by
  cases hw : (s.heap j).window with
  | none =>
    simp only [JobSystem.execute, hw]
    refine .head ⟨.step 0, ?_⟩ (executeInternal_advances env (s.beginExecute j none))
    simp [JobSystem.next, JobSystem.advance, hw]
  | some w =>
    simp only [JobSystem.execute, hw]
    by_cases hstart : w.startTime < env.now s.readings
    · rw [if_pos hstart]
      refine .head ⟨.step (env.now s.readings), ?_⟩ (executeInternal_advances env _)
      simp [JobSystem.next, JobSystem.advance, hw, hstart]
    · rw [if_neg hstart]
      exact .single ⟨.step (env.now s.readings),
        by simp [JobSystem.next, JobSystem.advance, hw, hstart]⟩

/-- The loop of `Run`. -/
theorem runLoop_advances (batch : List ℕ) (s : JobSystem) :
    ReflTransGen Advances (s, .loop batch :: stack) ((s.runLoop env batch).1, stack) := by
  induction batch generalizing s with
  | nil => exact .single ⟨.step 0, rfl⟩
  | cons j batch ih =>
    refine .head ⟨.step 0, rfl⟩ (.trans (execute_advances env s) ?_)
    rw [JobSystem.runLoop]
    rcases s.execute env j with ⟨s', _ | _⟩
    · next shouldRemove =>
      cases shouldRemove with
      | true => exact .head ⟨.step 0, rfl⟩ (ih (s'.delete j))
      | false => exact .head ⟨.step 0, rfl⟩ (ih (s'.addInternal j))
    · exact .refl

/-- A call of `Run` that no other thread interrupts does what `JobSystem.run` computes. -/
theorem run_threaded {n : ℕ} (s : ThreadedState) {t : ℕ} (ht : t < n)
    (hcode : inUserCode (s.frames t) = true) :
    ReflTransGen (fun s s' => ∃ c, threadedStep n s ⟨t, c⟩ = some s') s
      { s with sys := (s.sys.run env).1 } := by
  have hlocal : ReflTransGen Advances (s.sys, s.frames t) ((s.sys.run env).1, s.frames t) := by
    have hcall : Advances (s.sys, s.frames t) (s.sys, .swap :: s.frames t) :=
      ⟨.run, by simp [JobSystem.next, hcode]⟩
    have hswap : Advances (s.sys, .swap :: s.frames t)
        (s.sys.detach, .loop s.sys.jobs :: s.frames t) := ⟨.step 0, rfl⟩
    exact .head hcall (.head hswap (runLoop_advances env s.sys.jobs s.sys.detach))
  have hlift : ReflTransGen (fun s s' => ∃ c, threadedStep n s ⟨t, c⟩ = some s')
      ⟨s.sys, Function.update s.frames t (s.frames t)⟩
      ⟨(s.sys.run env).1, Function.update s.frames t (s.frames t)⟩ := by
    refine hlocal.lift
      (fun p => ({ sys := p.1, frames := Function.update s.frames t p.2 } : ThreadedState))
      fun p q hpq => ?_
    obtain ⟨c, hc⟩ := hpq
    exact ⟨c, by simp [threadedStep, ht, hc]⟩
  simpa using hlift

end Advances

end NomadTasks
