import NomadTasks.JobSystem.Basic
import Mathlib.Order.Nat

/-!
# One `Run` as a transformer of the list of pending jobs

`executions` says, job by job, what the calls of `Execute` in a `Run` do: what they read from the
clock, whether they call the callback, which jobs it adds and how it ends. The pending list does not
occur in it. `Run` is then a function of this list.

* `Execution`: what one call of `Execute` does.
* `Grows`: what the calls of the user's code do to a `JobSystem`.
* `runLoop_spec`: the loop of `Run`, for any batch.
* `run_transforms`: a `Run` whose callbacks do not throw.
-/

namespace NomadTasks

open Transition

/-! ## The calls of the user's code -/

namespace JobSystem

/-- The jobs that the calls add. -/
def addedBy (env : JobEnv) : JobSystem → List UserCall → List ℕ
  | _, [] => []
  | s, .add c :: calls => s.created :: addedBy env (s.perform env (.add c)) calls
  | s, .thenJob j returnsBool :: calls => addedBy env (s.perform env (.thenJob j returnsBool)) calls

/-- The pending jobs and the jobs of `batch` are different jobs, which exist. -/
structure WellFormed (s : JobSystem) (batch : List ℕ) : Prop where
  nodup : (batch ++ s.jobs).Nodup
  created : ∀ j ∈ batch ++ s.jobs, j < s.created
  live : ∀ j ∈ batch ++ s.jobs, s.live j = true

end JobSystem

/-- The user's code has added the jobs of `added` to `s`, which are new, and nothing else has
happened to the jobs that exist. -/
structure Grows (s s' : JobSystem) (added : List ℕ) : Prop where
  jobs : s'.jobs = s.jobs ++ added
  log : s'.log = s.log ++ added.map .add
  created : s.created ≤ s'.created
  fresh : ∀ j ∈ added, s.created ≤ j ∧ j < s'.created ∧ s'.live j = true
  nodup : added.Nodup
  window : ∀ j < s.created, (s'.heap j).window = (s.heap j).window
  returnsBool : ∀ j < s.created, (s'.heap j).returnsBool = (s.heap j).returnsBool
  live : ∀ j < s.created, s'.live j = s.live j
  next : ∀ j c, (s'.heap j).next = some c →
    (s.heap j).next = some c ∨ s.created ≤ c ∧ c < s'.created ∧ c ∉ added

namespace Grows

variable {s s' s'' : JobSystem}

theorem refl (s : JobSystem) : Grows s s [] := by
  constructor <;> simp +contextual

/-- The counts of the environment do not matter. -/
theorem of_log {s₀ : JobSystem} {added : List ℕ} {log : List JobEvent} (h : Grows s₀ s' added)
    (hs : { s₀ with calls := s.calls, readings := s.readings } = { s with log }) :
    Grows { s with log } s' added := by
  rw [← hs]
  exact ⟨h.jobs, h.log, h.created, h.fresh, h.nodup, h.window, h.returnsBool, h.live, h.next⟩

/-- One growth after another. -/
theorem trans {added added' : List ℕ} (h : Grows s s' added) (h' : Grows s' s'' added') :
    Grows s s'' (added ++ added') := by
  have hle := h.created
  refine ⟨?_, ?_, hle.trans h'.created, fun j hj => ?_, ?_, fun j hj => ?_, fun j hj => ?_,
    fun j hj => ?_, fun j c hc => ?_⟩
  · rw [h'.jobs, h.jobs, List.append_assoc]
  · rw [h'.log, h.log, List.map_append, List.append_assoc]
  · rcases List.mem_append.mp hj with hj | hj
    · obtain ⟨hge, hlt, hlive⟩ := h.fresh j hj
      exact ⟨hge, hlt.trans_le h'.created, (h'.live j hlt).trans hlive⟩
    · obtain ⟨hge, hlt, hlive⟩ := h'.fresh j hj
      exact ⟨hle.trans hge, hlt, hlive⟩
  · refine List.nodup_append.mpr ⟨h.nodup, h'.nodup, fun j hj k hk => ?_⟩
    have := (h.fresh j hj).2.1
    have := (h'.fresh k hk).1
    omega
  · exact (h'.window j (hj.trans_le hle)).trans (h.window j hj)
  · exact (h'.returnsBool j (hj.trans_le hle)).trans (h.returnsBool j hj)
  · exact (h'.live j (hj.trans_le hle)).trans (h.live j hj)
  · have hle' := h'.created
    rcases h'.next j c hc with hc | ⟨hge, hlt, hnot⟩
    · rcases h.next j c hc with hc | ⟨hge, hlt, hnot⟩
      · exact .inl hc
      · refine .inr ⟨hge, hlt.trans_le hle', fun hmem => ?_⟩
        rcases List.mem_append.mp hmem with hmem | hmem
        · exact hnot hmem
        · have := (h'.fresh c hmem).1
          omega
    · refine .inr ⟨hle.trans hge, hlt, fun hmem => ?_⟩
      rcases List.mem_append.mp hmem with hmem | hmem
      · have := (h.fresh c hmem).2.1
        omega
      · exact hnot hmem

/-- A function that adds a job. -/
theorem addCall (s : JobSystem) (c : AddCall) (now₁ now₂ : ℤ) :
    Grows s (s.addCall c now₁ now₂) [s.created] := by
  have hnext : (c.job now₁ now₂).next = none := by cases c <;> rfl
  refine ⟨rfl, rfl, Nat.le_succ _, by simp [JobSystem.addCall], by simp, fun k hk => ?_,
    fun k hk => ?_, fun k hk => ?_, fun k d hd => .inl ?_⟩
  · simp [JobSystem.addCall, Nat.ne_of_lt hk]
  · simp [JobSystem.addCall, Nat.ne_of_lt hk]
  · simp [JobSystem.addCall, Nat.ne_of_lt hk]
  · by_cases hk : k = s.created
    · simp [JobSystem.addCall, hk, hnext] at hd
    · simpa [JobSystem.addCall, hk] using hd

/-- `then`. -/
theorem thenJob (s : JobSystem) (j : ℕ) (returnsBool : Bool) :
    Grows s (s.thenJob j returnsBool) [] := by
  by_cases hlive : s.live j = true
  · rw [JobSystem.thenJob, if_pos hlive]
    -- the continuation is a new job, so that among the old ones only `j` changes
    have hheap : ∀ k < s.created, Function.update (Function.update s.heap s.created { returnsBool })
        j { s.heap j with next := some s.created } k =
          if k = j then { s.heap j with next := some s.created } else s.heap k := by
      intro k hk
      by_cases hkj : k = j
      · simp [hkj]
      · simp [hkj, Nat.ne_of_lt hk]
    refine ⟨by simp, by simp, Nat.le_succ _, by simp, .nil, fun k hk => ?_, fun k hk => ?_,
      fun k hk => Function.update_of_ne (Nat.ne_of_lt hk) .., fun k c hc => ?_⟩
    · simp only [hheap k hk]
      split
      · next hkj => rw [hkj]
      · rfl
    · simp only [hheap k hk]
      split
      · next hkj => rw [hkj]
      · rfl
    · by_cases hkj : k = j
      · obtain rfl : s.created = c := by simpa [hkj] using hc
        exact .inr ⟨Nat.le_refl _, Nat.lt_succ_self _, by simp⟩
      · by_cases hk : k = s.created
        · have hne : s.created ≠ j := fun hj => hkj (hk.trans hj)
          simp [hk, hne] at hc
        · exact .inl (by simpa [hkj, hk] using hc)
  · rw [JobSystem.thenJob, if_neg hlive]
    exact refl s

/-- The calls of a callback. -/
theorem performs (env : JobEnv) (calls : List UserCall) (s : JobSystem) :
    Grows s (calls.foldl (JobSystem.perform env) s) (s.addedBy env calls) := by
  induction calls generalizing s with
  | nil => exact refl s
  | cons c calls ih =>
    cases c with
    | add c => exact (addCall s c _ _).trans (ih _)
    | thenJob j returnsBool => exact (thenJob s j returnsBool).trans (ih _)

/-- The pending jobs stay well formed. -/
theorem wellFormed {added batch : List ℕ} (h : Grows s s' added) (hw : s.WellFormed batch) :
    s'.WellFormed batch := by
  have hjobs : batch ++ s'.jobs = (batch ++ s.jobs) ++ added := by
    rw [h.jobs, List.append_assoc]
  refine ⟨?_, fun j hj => ?_, fun j hj => ?_⟩
  · rw [hjobs]
    refine List.nodup_append.mpr ⟨hw.nodup, h.nodup, fun j hj k hk => ?_⟩
    have := hw.created j hj
    have := (h.fresh k hk).1
    omega
  · rcases List.mem_append.mp (hjobs ▸ hj) with hj | hj
    · exact (hw.created j hj).trans_le h.created
    · exact (h.fresh j hj).2.1
  · rcases List.mem_append.mp (hjobs ▸ hj) with hj | hj
    · exact (h.live j (hw.created j hj)).trans (hw.live j hj)
    · exact (h.fresh j hj).2.2

end Grows

/-! ## One call of `Execute` -/

/-- What one call of `Execute` does. -/
structure Execution where
  job : ℕ
  /-- What it reads from the clock, if the job is a `DelayedJob`. -/
  reading : Option ℤ
  /-- It calls the callback. -/
  called : Bool
  /-- The jobs that the callback adds. -/
  added : List ℕ
  exit : Exit

namespace Execution

/-- The job is deleted afterwards. -/
def removed (e : Execution) : Bool := decide (e.exit = .returns true)

/-- What is logged before the callback makes its calls. -/
def begins (e : Execution) : List JobEvent :=
  .execute e.job e.reading :: if e.called then [.call e.job] else []

/-- What is logged. -/
def events (e : Execution) : List JobEvent :=
  e.begins ++ e.added.map .add ++ if e.removed then [.delete e.job] else []

/-- The jobs that are pending afterwards because of it: the ones that the callback has added, and
then the job itself, if `Execute` has returned `false`. -/
def pending (e : Execution) : List ℕ :=
  e.added ++ if e.exit = .returns false then [e.job] else []

end Execution

namespace JobSystem

/-- A `DelayedJob` calls its callback after `_start`, a `Job` in any case. -/
def due (env : JobEnv) (s : JobSystem) (j : ℕ) : Bool :=
  match (s.heap j).window with
  | none => true
  | some w => decide (w.startTime < env.now s.readings)

/-- What `Execute` reads from the clock. -/
def readingOf (env : JobEnv) (s : JobSystem) (j : ℕ) : Option ℤ :=
  (s.heap j).window.map fun _ => env.now s.readings

/-- What `Execute` does with job `j`. -/
def execution (env : JobEnv) (s : JobSystem) (j : ℕ) : Execution where
  job := j
  reading := s.readingOf env j
  called := s.due env j
  added :=
    if s.due env j then
      ((s.beginExecute j (s.readingOf env j)).beginCall j).addedBy env (env.outcome s.calls).calls
    else []
  exit :=
    if s.due env j then
      match (env.outcome s.calls).exit with
      | .throws => .throws
      | .returns result => .returns (!(s.heap j).returnsBool || result)
    else .returns false

@[simp] theorem execution_job (env : JobEnv) (s : JobSystem) (j : ℕ) :
    (s.execution env j).job = j := rfl

end JobSystem

section Execute

variable {s : JobSystem} {j : ℕ}

/-- The assignment of `_resultK` concerns nothing else. -/
theorem Grows.setResult {s' : JobSystem} {added : List ℕ} (h : Grows s s' added) (result : Bool) :
    Grows s (s'.setResult j result) added := by
  refine ⟨h.jobs, h.log, h.created, h.fresh, h.nodup, fun k hk => ?_, fun k hk => ?_, h.live,
    fun k c hc => h.next k c ?_⟩
  · by_cases hkj : k = j
    · subst hkj
      simpa using h.window k hk
    · simpa [hkj] using h.window k hk
  · by_cases hkj : k = j
    · subst hkj
      simpa using h.returnsBool k hk
    · simpa [hkj] using h.returnsBool k hk
  · by_cases hkj : k = j
    · subst hkj
      simpa using hc
    · simpa [hkj] using hc

/-- `ExecuteInternal` calls the callback once. -/
theorem executeInternal_spec (env : JobEnv) (hj : j < s.created) :
    Grows (s.beginCall j) (s.executeInternal env j).1
        ((s.beginCall j).addedBy env (env.outcome s.calls).calls) ∧
      (s.executeInternal env j).2 =
        match (env.outcome s.calls).exit with
        | .throws => .throws
        | .returns result => .returns (!(s.heap j).returnsBool || result) := by
  have h := Grows.performs env (env.outcome s.calls).calls (s.beginCall j)
  have hbool := h.returnsBool j hj
  rw [JobSystem.beginCall_heap] at hbool
  cases hexit : (env.outcome s.calls).exit with
  | throws =>
    simp only [JobSystem.executeInternal, hexit]
    exact ⟨h, trivial⟩
  | returns result =>
    simp only [JobSystem.executeInternal, hexit, hbool]
    cases (s.heap j).returnsBool with
    | true => exact ⟨h.setResult result, by simp⟩
    | false => exact ⟨h, by simp⟩

/-- `Execute` does what `execution` says. -/
theorem execute_spec (env : JobEnv) (hj : j < s.created) :
    Grows { s with log := s.log ++ (s.execution env j).begins } (s.execute env j).1
        (s.execution env j).added ∧
      (s.execute env j).2 = (s.execution env j).exit := by
  have hspec := executeInternal_spec env (s := s.beginExecute j (s.readingOf env j)) hj
  -- a `Job` calls its delegate at once; a `DelayedJob` reads the clock first
  cases hw : (s.heap j).window with
  | none =>
    have hread : s.readingOf env j = none := by simp [JobSystem.readingOf, hw]
    have hdue : s.due env j = true := by simp [JobSystem.due, hw]
    rw [hread] at hspec
    simp only [JobSystem.execute, hw, JobSystem.execution, Execution.begins, hdue, hread, if_true]
    exact ⟨hspec.1.of_log (by simp [JobSystem.beginCall, JobSystem.beginExecute]), hspec.2⟩
  | some w =>
    have hread : s.readingOf env j = some (env.now s.readings) := by simp [JobSystem.readingOf, hw]
    rw [hread] at hspec
    by_cases hstart : w.startTime < env.now s.readings
    · have hdue : s.due env j = true := by simp [JobSystem.due, hw, hstart]
      simp only [JobSystem.execute, hw, JobSystem.execution, Execution.begins, hdue, hread, if_true,
        hstart]
      exact ⟨hspec.1.of_log (by simp [JobSystem.beginCall, JobSystem.beginExecute]), hspec.2⟩
    · have hdue : s.due env j = false := by simp [JobSystem.due, hw, hstart]
      simp only [JobSystem.execute, hw, JobSystem.execution, Execution.begins, hdue, hread,
        if_false, hstart, Bool.false_eq_true]
      exact ⟨(Grows.refl _).of_log (by simp [JobSystem.beginExecute]), trivial⟩

end Execute

/-! ## The loop -/

namespace JobSystem

/-- The end of the loop body: the job is deleted, or added again. -/
def settle (s : JobSystem) (j : ℕ) : Bool → JobSystem
  | true => s.delete j
  | false => s.addInternal j

/-- What the calls of `Execute` in a loop over `batch` do. An exception ends the loop. -/
def executions (env : JobEnv) : JobSystem → List ℕ → List Execution
  | _, [] => []
  | s, j :: batch =>
      s.execution env j ::
        match (s.execution env j).exit with
        | .throws => []
        | .returns removed => executions env ((s.execute env j).1.settle j removed) batch

theorem runLoop_cons (env : JobEnv) {s : JobSystem} {j : ℕ} (hj : j < s.created)
    (batch : List ℕ) :
    s.runLoop env (j :: batch) =
      match (s.execution env j).exit with
      | .throws => ((s.execute env j).1, false)
      | .returns removed => ((s.execute env j).1.settle j removed).runLoop env batch := by
  rw [← (execute_spec env hj).2, runLoop]
  rcases s.execute env j with ⟨s', _ | _⟩
  · next removed => cases removed <;> rfl
  · rfl

theorem WellFormed.tail {s : JobSystem} {j : ℕ} {batch : List ℕ} (hw : s.WellFormed (j :: batch)) :
    s.WellFormed batch :=
  ⟨(List.nodup_cons.mp hw.nodup).2, fun k hk => hw.created k (List.mem_cons_of_mem j hk),
    fun k hk => hw.live k (List.mem_cons_of_mem j hk)⟩

theorem WellFormed.nil {s : JobSystem} {batch : List ℕ} (hw : s.WellFormed batch) :
    s.WellFormed [] :=
  ⟨(List.nodup_append.mp hw.nodup).2.1, fun k hk => hw.created k (List.mem_append_right batch hk),
    fun k hk => hw.live k (List.mem_append_right batch hk)⟩

/-- The jobs stay well formed at the end of the loop body. -/
theorem WellFormed.settle {s : JobSystem} {j : ℕ} {batch : List ℕ} (removed : Bool)
    (hw : s.WellFormed (j :: batch)) : (s.settle j removed).WellFormed batch := by
  cases removed with
  | true =>
    refine ⟨hw.tail.nodup, hw.tail.created, fun k hk => ?_⟩
    have hkj : k ≠ j := fun hkj => (List.nodup_cons.mp hw.nodup).1 (hkj ▸ hk)
    exact (Function.update_of_ne hkj ..).trans (hw.tail.live k hk)
  | false =>
    -- the job moves from the front of the batch to the end of the list
    have hperm : (batch ++ (s.jobs ++ [j])).Perm ((j :: batch) ++ s.jobs) := by
      rw [← List.append_assoc]
      exact List.perm_append_singleton j (batch ++ s.jobs)
    exact ⟨hperm.nodup_iff.mpr hw.nodup, fun k hk => hw.created k (hperm.mem_iff.mp hk),
      fun k hk => hw.live k (hperm.mem_iff.mp hk)⟩

end JobSystem

/-- From `s` to `s'`, the calls `es` of `Execute` have been made, and their jobs have been deleted
or added again. -/
structure Executed (s s' : JobSystem) (es : List Execution) : Prop where
  jobs : s'.jobs = s.jobs ++ es.flatMap Execution.pending
  log : s'.log = s.log ++ es.flatMap Execution.events
  created : s.created ≤ s'.created
  fresh : ∀ e ∈ es, ∀ j ∈ e.added, s.created ≤ j ∧ j < s'.created
  window : ∀ j < s.created, (s'.heap j).window = (s.heap j).window
  returnsBool : ∀ j < s.created, (s'.heap j).returnsBool = (s.heap j).returnsBool
  live : ∀ j < s.created, s'.live j = true ↔
    s.live j = true ∧ ∀ e ∈ es, e.removed = true → e.job ≠ j
  next : ∀ j c, (s'.heap j).next = some c →
    (s.heap j).next = some c ∨ s.created ≤ c ∧ c < s'.created ∧ ∀ e ∈ es, c ∉ e.added

namespace Executed

variable {s s' s'' : JobSystem} {es es' : List Execution}

theorem refl (s : JobSystem) : Executed s s [] := by
  constructor <;> simp +contextual

theorem trans (h : Executed s s' es) (h' : Executed s' s'' es') : Executed s s'' (es ++ es') := by
  have hle := h.created
  have hle' := h'.created
  refine ⟨?_, ?_, hle.trans hle', fun e he j hj => ?_, fun j hj => ?_, fun j hj => ?_,
    fun j hj => ?_, fun j c hc => ?_⟩
  · rw [h'.jobs, h.jobs, List.flatMap_append, List.append_assoc]
  · rw [h'.log, h.log, List.flatMap_append, List.append_assoc]
  · rcases List.mem_append.mp he with he | he
    · obtain ⟨hge, hlt⟩ := h.fresh e he j hj
      exact ⟨hge, hlt.trans_le hle'⟩
    · obtain ⟨hge, hlt⟩ := h'.fresh e he j hj
      exact ⟨hle.trans hge, hlt⟩
  · exact (h'.window j (hj.trans_le hle)).trans (h.window j hj)
  · exact (h'.returnsBool j (hj.trans_le hle)).trans (h.returnsBool j hj)
  · rw [h'.live j (hj.trans_le hle), h.live j hj, and_assoc, List.forall_mem_append]
  -- a link is old, or made by the first or by the second of the two
  · rcases h'.next j c hc with hc | ⟨hge, hlt, hnot⟩
    · rcases h.next j c hc with hc | ⟨hge, hlt, hnot⟩
      · exact .inl hc
      · refine .inr ⟨hge, hlt.trans_le hle', List.forall_mem_append.mpr ⟨hnot, fun e he hmem => ?_⟩⟩
        have := (h'.fresh e he c hmem).1
        omega
    · refine .inr ⟨hle.trans hge, hlt, List.forall_mem_append.mpr ⟨fun e he hmem => ?_, hnot⟩⟩
      have := (h.fresh e he c hmem).2
      omega

/-- The loop body, from the call of `Execute` on. -/
theorem body (env : JobEnv) {j : ℕ} (hj : j < s.created) :
    Executed s
      (match (s.execution env j).exit with
        | .throws => (s.execute env j).1
        | .returns removed => (s.execute env j).1.settle j removed)
      [s.execution env j] := by
  obtain ⟨h, -⟩ := execute_spec env hj
  have hfresh : ∀ e ∈ [s.execution env j], ∀ k ∈ e.added,
      s.created ≤ k ∧ k < (s.execute env j).1.created := by
    simpa using fun k hk => ⟨(h.fresh k hk).1, (h.fresh k hk).2.1⟩
  -- a job that throws stays in `jobsToRun`, one that returns is deleted or put back
  cases hexit : (s.execution env j).exit with
  | throws =>
    refine ⟨?_, ?_, h.created, hfresh, h.window, h.returnsBool, fun k hk => ?_,
      by simpa using h.next⟩
    · simpa [Execution.pending, hexit] using h.jobs
    · simpa [Execution.events, Execution.removed, hexit] using h.log
    · simpa [Execution.removed, hexit] using h.live k hk
  | returns removed =>
    cases removed with
    | true =>
      refine ⟨?_, ?_, h.created, hfresh, h.window, h.returnsBool, fun k hk => ?_,
        by simpa [JobSystem.settle] using h.next⟩
      · simpa [JobSystem.settle, Execution.pending, hexit] using h.jobs
      · simp [JobSystem.settle, Execution.events, Execution.removed, hexit, h.log]
      · by_cases hkj : k = j
        · simp [JobSystem.settle, Execution.removed, hexit, hkj]
        · simp [JobSystem.settle, Execution.removed, hexit, hkj, Ne.symm hkj, h.live k hk]
    | false =>
      refine ⟨?_, ?_, h.created, hfresh, h.window, h.returnsBool, fun k hk => ?_,
        by simpa [JobSystem.settle] using h.next⟩
      · simp [JobSystem.settle, Execution.pending, hexit, h.jobs]
      · simpa [JobSystem.settle, Execution.events, Execution.removed, hexit] using h.log
      · simpa [JobSystem.settle, Execution.removed, hexit] using h.live k hk

end Executed

/-- The loop of `Run` makes the calls of `executions`, and keeps the jobs well formed. -/
theorem runLoop_spec (env : JobEnv) {batch : List ℕ} {s : JobSystem} (hw : s.WellFormed batch) :
    Executed s (s.runLoop env batch).1 (s.executions env batch) ∧
      (s.runLoop env batch).1.WellFormed [] := by
  induction batch generalizing s with
  | nil => exact ⟨.refl s, hw⟩
  | cons j batch ih =>
    have hj : j < s.created := hw.created j (by simp)
    have hbody := Executed.body env hj
    have hexecuted : (s.execute env j).1.WellFormed (j :: batch) :=
      (execute_spec env hj).1.wellFormed ⟨hw.nodup, hw.created, hw.live⟩
    rw [JobSystem.runLoop_cons env hj, JobSystem.executions]
    cases hexit : (s.execution env j).exit with
    | throws =>
      -- the rest of the batch is lost
      rw [hexit] at hbody
      exact ⟨hbody, hexecuted.nil⟩
    | returns removed =>
      rw [hexit] at hbody
      obtain ⟨hrest, hw'⟩ := ih (hexecuted.settle removed)
      exact ⟨hbody.trans hrest, hw'⟩

/-- The loop executes jobs of its batch only; each is found as it was before the loop. -/
theorem exists_of_mem_executions {env : JobEnv} {batch : List ℕ} {s : JobSystem}
    (hw : s.WellFormed batch) {e : Execution} (he : e ∈ s.executions env batch) :
    ∃ s₀ : JobSystem, e = s₀.execution env e.job ∧ e.job ∈ batch ∧
      (s₀.heap e.job).window = (s.heap e.job).window ∧
      (s₀.heap e.job).returnsBool = (s.heap e.job).returnsBool := by
  -- on the batch: an execution is of its first job, or of the rest after that one
  induction batch generalizing s with
  | nil => cases he
  | cons j batch ih =>
    rw [JobSystem.executions] at he
    rcases List.mem_cons.mp he with rfl | he
    · exact ⟨s, rfl, by simp, rfl, rfl⟩
    · have hj : j < s.created := hw.created j (by simp)
      have hbody := Executed.body env hj
      have hexecuted : (s.execute env j).1.WellFormed (j :: batch) :=
        (execute_spec env hj).1.wellFormed ⟨hw.nodup, hw.created, hw.live⟩
      cases hexit : (s.execution env j).exit with
      -- an exception ends the batch
      | throws =>
        simp only [hexit] at he
        cases he
      | returns removed =>
        rw [hexit] at hbody
        simp only [hexit] at he
        obtain ⟨s₀, heq, hmem, hwindow, hbool⟩ := ih (hexecuted.settle removed) he
        have hlt : e.job < s.created := hw.created _ (by simp [hmem])
        exact ⟨s₀, heq, List.mem_cons_of_mem j hmem, hwindow.trans (hbody.window _ hlt),
          hbool.trans (hbody.returnsBool _ hlt)⟩

/-- If no callback throws, the loop executes the whole batch. -/
theorem map_job_executions {env : JobEnv} {batch : List ℕ} {s : JobSystem}
    (hthrow : ∀ e ∈ s.executions env batch, e.exit ≠ .throws) :
    (s.executions env batch).map Execution.job = batch := by
  induction batch generalizing s with
  | nil => rfl
  | cons j batch ih =>
    rw [JobSystem.executions] at hthrow ⊢
    cases hexit : (s.execution env j).exit with
    | throws => exact absurd hexit (hthrow _ List.mem_cons_self)
    | returns removed =>
      simp only [hexit] at hthrow
      exact congrArg (j :: ·) (ih fun e he => hthrow e (List.mem_cons_of_mem _ he))

/-- The loop executes the batch from its front. -/
theorem isPrefix_executions (env : JobEnv) (batch : List ℕ) (s : JobSystem) :
    (s.executions env batch).map Execution.job <+: batch := by
  induction batch generalizing s with
  | nil => exact List.prefix_rfl
  | cons j batch ih =>
    rw [JobSystem.executions]
    cases (s.execution env j).exit with
    | throws => exact List.prefix_cons_iff.mpr (.inr ⟨[], rfl, List.nil_prefix⟩)
    | returns removed => exact (List.prefix_cons_inj j).mpr (ih _)

/-- A call of `Execute` that throws is the last one. -/
theorem executions_length_of_throws {env : JobEnv} {batch : List ℕ} {s : JobSystem} {i : ℕ}
    {e : Execution} (he : (s.executions env batch)[i]? = some e) (hthrow : e.exit = .throws) :
    (s.executions env batch).length = i + 1 := by
  induction batch generalizing s i with
  | nil => cases he
  | cons j batch ih =>
    rw [JobSystem.executions] at he ⊢
    cases hexit : (s.execution env j).exit with
    | throws =>
      simp only [hexit] at he
      cases i with
      | zero => rfl
      | succ i => cases he
    | returns removed =>
      simp only [hexit] at he
      cases i with
      | zero =>
        obtain rfl : s.execution env j = e := by simpa using he
        rw [hexit] at hthrow
        cases hthrow
      | succ i => exact congrArg (· + 1) (ih (by simpa using he))

/-! ## `Run` -/

/-- The job that the event calls `Execute` on. -/
def JobEvent.executed? : JobEvent → Option ℕ
  | .execute j _ => some j
  | _ => none

/-- The job that the event deletes. -/
def JobEvent.deleted? : JobEvent → Option ℕ
  | .delete j => some j
  | _ => none

theorem filterMap_executed_events (es : List Execution) :
    (es.flatMap Execution.events).filterMap JobEvent.executed? = es.map Execution.job := by
  have hadded : ∀ added : List ℕ, (added.map JobEvent.add).filterMap JobEvent.executed? = [] := by
    intro added
    simp [List.filterMap_map, Function.comp_def, JobEvent.executed?]
  induction es with
  | nil => rfl
  | cons e es ih =>
    rw [List.flatMap_cons, List.filterMap_append, ih, List.map_cons]
    simp only [Execution.events, Execution.begins, List.filterMap_append, hadded]
    cases e.called <;> cases e.removed <;> simp [JobEvent.executed?, List.filterMap_cons]

theorem filterMap_deleted_events (es : List Execution) :
    (es.flatMap Execution.events).filterMap JobEvent.deleted? =
      (es.filter Execution.removed).map Execution.job := by
  have hadded : ∀ added : List ℕ, (added.map JobEvent.add).filterMap JobEvent.deleted? = [] := by
    intro added
    simp [List.filterMap_map, Function.comp_def, JobEvent.deleted?]
  induction es with
  | nil => rfl
  | cons e es ih =>
    rw [List.flatMap_cons, List.filterMap_append, ih]
    simp only [Execution.events, Execution.begins, List.filterMap_append, hadded]
    cases e.called <;> cases hr : e.removed <;> simp [JobEvent.deleted?, hr]

/-- The calls of `Execute` in a `Run`. -/
def JobSystem.batch (env : JobEnv) (s : JobSystem) : List Execution :=
  s.detach.executions env s.jobs

/-- No callback that is called in the `Run` throws. -/
def JobSystem.Unbroken (env : JobEnv) (s : JobSystem) : Prop :=
  ∀ e ∈ s.batch env, e.exit ≠ .throws

instance (env : JobEnv) (s : JobSystem) : Decidable (s.Unbroken env) :=
  inferInstanceAs (Decidable (∀ e ∈ s.batch env, _))

theorem JobSystem.WellFormed.detach {s : JobSystem} (hw : s.WellFormed []) :
    s.detach.WellFormed s.jobs := by
  refine ⟨?_, fun j hj => ?_, fun j hj => ?_⟩
  · simpa using hw.nodup
  · exact hw.created j (by simpa using hj)
  · exact hw.live j (by simpa using hj)

/-- `Run` executes the pending jobs. -/
theorem run_spec (env : JobEnv) {s : JobSystem} (hw : s.WellFormed []) :
    Executed s.detach (s.run env).1 (s.batch env) ∧ (s.run env).1.WellFormed [] :=
  runLoop_spec env hw.detach

/-- The pending jobs of a `JobSystem` are different jobs, which exist. -/
theorem wellFormed_of_run {env : JobEnv} {ok : History JobSystem JobOp → JobSystem → JobOp → Prop}
    {h : History JobSystem JobOp} {s : JobSystem} (hr : (jobSystem env).Run ok h s) :
    s.WellFormed [] := by
  refine hr.invariant (P := fun _ s => s.WellFormed []) (fun s hs => ?_)
    fun h s op s' _ hw _ hs => ?_
  · obtain rfl : s = .empty := hs
    exact ⟨.nil, nofun, nofun⟩
  · cases op with
    | call c =>
      cases hs
      exact (Grows.performs env [c] s).wellFormed hw
    | run =>
      cases hs
      exact (run_spec env hw).2

/-- A `Run` whose callbacks do not throw calls `Execute` once on each pending job, in the order of
the list, deletes exactly the jobs for which it has returned `true`, and leaves the jobs that each
callback has added, followed by the job itself if `Execute` has returned `false`. -/
theorem run_transforms {env : JobEnv} {s : JobSystem} (hw : s.WellFormed [])
    (hthrow : s.Unbroken env) :
    ∃ events, (s.run env).1.log = s.log ++ .run :: events ∧ s.jobs.Nodup ∧
      events.filterMap JobEvent.executed? = s.jobs ∧
      (∀ e ∈ s.batch env, ∀ j ∈ e.added, j ∉ s.jobs) ∧
      events.filterMap JobEvent.deleted? =
        ((s.batch env).filter Execution.removed).map Execution.job ∧
      (∀ j < s.created, (s.run env).1.live j = true ↔ s.live j = true ∧
        ∀ e ∈ s.batch env, e.removed = true → e.job ≠ j) ∧
      (s.run env).1.jobs = (s.batch env).flatMap Execution.pending := by
  obtain ⟨h, -⟩ := run_spec env hw
  refine ⟨_, ?_, hw.nodup, ?_, fun e he j hj hmem => ?_, filterMap_deleted_events _, h.live, ?_⟩
  · simpa using h.log
  · rw [filterMap_executed_events]
    exact map_job_executions hthrow
  · have hge : s.created ≤ j := (h.fresh e he j hj).1
    have hlt := hw.created j hmem
    omega
  · simpa using h.jobs

/-- The first callback returns `false` after it has added two jobs, one of them delayed; the others
return `true`. -/
def addsTwo : JobEnv where
  outcome n :=
    if n = 0 then ⟨[.add (.addJob false), .add (.addDelayedJob 5 true)], .returns false⟩
    else ⟨[], .returns true⟩
  now n := n

/-- Two jobs with a `bool` callback. -/
def twoPending : JobSystem :=
  [.add (.addJob true), .add (.add true)].foldl (JobSystem.perform addsTwo) .empty

theorem run_transforms_two :
    (twoPending.run addsTwo).1.jobs = [2, 3, 0] ∧
      (twoPending.run addsTwo).1.jobs = (twoPending.batch addsTwo).flatMap Execution.pending := by
  have hw : twoPending.WellFormed [] :=
    (Grows.performs addsTwo _ .empty).wellFormed ⟨.nil, nofun, nofun⟩
  obtain ⟨_, -, -, -, -, -, -, hjobs⟩ :=
    run_transforms hw (show twoPending.Unbroken addsTwo by decide)
  exact ⟨by decide, hjobs⟩

end NomadTasks
