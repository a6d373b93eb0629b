import NomadTasks.Transition.System
import Mathlib.Data.Int.Notation
import Mathlib.Logic.Function.Basic
import Mathlib.Tactic.Simps.Basic

/-!
# The thread job system: its data and operations

A `JobSystem` keeps a list of pending jobs. `Run` takes the whole list and executes it job by job;
a job whose `Execute` returns `false` is added again, and the others are deleted. The callbacks add
jobs while the loop runs.

Jobs are named by the order in which they are constructed. What the callbacks do and what the clock
shows is up to the environment.

* `JobSystem`: the pending jobs, and the jobs that exist.
* `AddCall`, `UserCall`: the calls that the user's code makes.
* `JobSystem.execute`, `JobSystem.run`: `Execute` and `Run`.
* `JobSystem.callOperator`: `IJob::operator()`, the other way to execute a job.
* `jobSystem`: the calls of one thread.
-/

namespace NomadTasks

open Transition

/-! ## Data -/

/-- `_start` and `_end` of a `DelayedJob`, in ticks of `system_clock`. -/
structure Window where
  startTime : ℤ
  endTime : ℤ
  deriving DecidableEq

/-- A `Job<_Ret>`, or a `DelayedJob<_Ret>` if it has a window. What its `_callback` does is up to
the environment. -/
structure Job where
  /-- `_Ret` is `bool`. -/
  returnsBool : Bool
  resultK : Bool := true
  /-- `_next`. -/
  next : Option ℕ := none
  window : Option Window := none
  deriving DecidableEq

/-- A `DelayedJob(fn, in, f)`; its constructor reads the clock twice. -/
def Job.delayed (returnsBool : Bool) (delay f now₁ now₂ : ℤ) : Job where
  returnsBool := returnsBool
  window := some ⟨now₁ + delay, now₂ + delay + f⟩

/-- The member functions that add a job, each for a callable whose return type is `bool` or not. -/
inductive AddCall
  /-- `Add(job)`, with a new `Job` that the caller hands over. -/
  | add (returnsBool : Bool)
  /-- `Add(func, …)` and `AddJob(func, …)`. -/
  | addJob (returnsBool : Bool)
  | addJobFor (f : ℤ) (returnsBool : Bool)
  | addDelayedJob (delay : ℤ) (returnsBool : Bool)
  | addDelayedJobFor (delay f : ℤ) (returnsBool : Bool)
  deriving DecidableEq

namespace AddCall

/-- How often the constructor of the job reads the clock. -/
def readings : AddCall → ℕ
  | .add _ | .addJob _ => 0
  | .addJobFor .. | .addDelayedJob .. | .addDelayedJobFor .. => 2

/-- The job that is constructed, when the readings are `now₁` and `now₂`. -/
def job (now₁ now₂ : ℤ) : AddCall → Job
  | .add returnsBool | .addJob returnsBool => { returnsBool }
  | .addJobFor f returnsBool => .delayed returnsBool 0 f now₁ now₂
  | .addDelayedJob delay returnsBool => .delayed returnsBool delay 0 now₁ now₂
  | .addDelayedJobFor delay f returnsBool => .delayed returnsBool delay f now₁ now₂

end AddCall

/-- The calls that the user's code makes besides `Run`. -/
inductive UserCall
  | add (c : AddCall)
  /-- `job.then(fn)`, with a callable whose return type is `bool` or not. -/
  | thenJob (job : ℕ) (returnsBool : Bool)
  deriving DecidableEq

/-- How a callback ends. The result counts if its return type is `bool`. -/
inductive Exit
  | returns (result : Bool)
  | throws
  deriving DecidableEq

/-- What a callback does: the calls it makes, in order, and how it ends. -/
structure Outcome where
  calls : List UserCall
  exit : Exit

/-- What a `JobSystem` cannot foresee: what the `n`-th call of a callback does, and what the `n`-th
reading of the clock shows. -/
structure JobEnv where
  outcome : ℕ → Outcome
  now : ℕ → ℤ

/-- What has happened to the jobs. -/
inductive JobEvent
  /-- `Run` takes the list of pending jobs. -/
  | run
  /-- A function of `AddCall` has added the job. -/
  | add (job : ℕ)
  /-- `Execute` is called; `reading` is what it reads from the clock, if it does. -/
  | execute (job : ℕ) (reading : Option ℤ)
  /-- The callback of the job is called. -/
  | call (job : ℕ)
  | delete (job : ℕ)
  deriving DecidableEq

/-- A `JobSystem`, and the jobs that its users have made. -/
structure JobSystem where
  /-- `_jobs`. -/
  jobs : List ℕ
  /-- The objects. -/
  heap : ℕ → Job
  /-- How many jobs have been constructed. -/
  created : ℕ
  /-- The job has been constructed and not been deleted. -/
  live : ℕ → Bool
  /-- Auxiliary: how many callbacks have been called. -/
  calls : ℕ
  /-- Auxiliary: how often the clock has been read. -/
  readings : ℕ
  /-- Auxiliary: what has happened so far, oldest first. -/
  log : List JobEvent

namespace JobSystem

/-! ## Operations -/

/-- A new `JobSystem`. -/
def empty : JobSystem where
  jobs := []
  heap _ := { returnsBool := false }
  created := 0
  live _ := false
  calls := 0
  readings := 0
  log := []

/-- `new` of a job, which gets the name `s.created`. -/
@[simps]
def construct (s : JobSystem) (job : Job) : JobSystem :=
  { s with
    heap := Function.update s.heap s.created job
    created := s.created + 1
    live := Function.update s.live s.created true }

/-- `AddInternal(fn)`. -/
@[simps]
def addInternal (s : JobSystem) (j : ℕ) : JobSystem :=
  { s with jobs := s.jobs ++ [j] }

/-- The user's code hands a job over to `AddInternal`. -/
@[simps]
def handOver (s : JobSystem) (j : ℕ) : JobSystem :=
  { s with jobs := s.jobs ++ [j], log := s.log ++ [.add j] }

/-- `delete job`. -/
@[simps]
def delete (s : JobSystem) (j : ℕ) : JobSystem :=
  { s with live := Function.update s.live j false, log := s.log ++ [.delete j] }

/-- `std::swap(jobsToRun, _jobs)` in `Run`. -/
@[simps]
def detach (s : JobSystem) : JobSystem :=
  { s with jobs := [], log := s.log ++ [.run] }

/-- One of the functions that add a job, when the readings of the clock are `now₁` and `now₂`. -/
def addCall (s : JobSystem) (c : AddCall) (now₁ now₂ : ℤ) : JobSystem :=
  { (s.construct (c.job now₁ now₂)).handOver s.created with readings := s.readings + c.readings }

/-- `job.then(fn)`. Nobody calls it on a job that has been deleted. -/
def thenJob (s : JobSystem) (j : ℕ) (returnsBool : Bool) : JobSystem :=
  if s.live j then
    { s.construct { returnsBool } with
      heap := Function.update (Function.update s.heap s.created { returnsBool }) j
        { s.heap j with next := some s.created } }
  else s

/-- A call of the user's code. -/
def perform (env : JobEnv) (s : JobSystem) : UserCall → JobSystem
  | .add c => s.addCall c (env.now s.readings) (env.now (s.readings + 1))
  | .thenJob j returnsBool => s.thenJob j returnsBool

/-- `Execute` begins, with what it reads from the clock. -/
@[simps]
def beginExecute (s : JobSystem) (j : ℕ) (reading : Option ℤ) : JobSystem :=
  { s with
    readings := s.readings + reading.toList.length
    log := s.log ++ [.execute j reading] }

/-- `_callback` is called. -/
@[simps]
def beginCall (s : JobSystem) (j : ℕ) : JobSystem :=
  { s with calls := s.calls + 1, log := s.log ++ [.call j] }

/-- `_resultK = …`. -/
@[simps]
def setResult (s : JobSystem) (j : ℕ) (result : Bool) : JobSystem :=
  { s with heap := Function.update s.heap j { s.heap j with resultK := result } }

/-- `Job::ExecuteInternal`. -/
def executeInternal (env : JobEnv) (s : JobSystem) (j : ℕ) : JobSystem × Exit :=
  let outcome := env.outcome s.calls
  let s := outcome.calls.foldl (perform env) (s.beginCall j)
  match outcome.exit with
  | .throws => (s, .throws)
  | .returns result =>
      if (s.heap j).returnsBool then (s.setResult j result, .returns result)
      else (s, .returns true)

/-- `Job::Execute` and `DelayedJob::Execute`. -/
def execute (env : JobEnv) (s : JobSystem) (j : ℕ) : JobSystem × Exit :=
  match (s.heap j).window with
  | none => (s.beginExecute j none).executeInternal env j
  | some w =>
      let now := env.now s.readings
      let s := s.beginExecute j (some now)
      if w.startTime < now then s.executeInternal env j else (s, .returns false)

/-- The rest of the loop of `Run`; `false` if an exception leaves it. -/
def runLoop (env : JobEnv) : JobSystem → List ℕ → JobSystem × Bool
  | s, [] => (s, true)
  | s, j :: rest =>
      match s.execute env j with
      | (s, .throws) => (s, false)
      | (s, .returns true) => runLoop env (s.delete j) rest
      | (s, .returns false) => runLoop env (s.addInternal j) rest

/-- `Run`. -/
def run (env : JobEnv) (s : JobSystem) : JobSystem × Bool :=
  s.detach.runLoop env s.jobs

/-! ## The other way to execute a job -/

/-- `Job::ShouldRemove` and `DelayedJob::ShouldRemove`. -/
def shouldRemove (env : JobEnv) (s : JobSystem) (j : ℕ) : JobSystem × Bool :=
  match (s.heap j).window with
  | none => (s, (s.heap j).resultK)
  | some w => ({ s with readings := s.readings + 1 }, decide (w.endTime ≤ env.now s.readings))

/-- `IJob::operator()`, which is `Job::Run`. Nothing in the `JobSystem` calls it. -/
def callOperator (env : JobEnv) (s : JobSystem) (j : ℕ) : JobSystem × Exit :=
  match s.execute env j with
  | (s, .returns true) =>
      let s := match (s.heap j).next with
        | none => s
        | some next => s.handOver next
      let (s, remove) := s.shouldRemove env j
      (s, .returns remove)
  | r => r

end JobSystem

/-- A call of the user's code, or `Run`. -/
inductive JobOp
  | call (c : UserCall)
  | run
  deriving DecidableEq

/-- The calls that one thread makes, in any order. An exception that leaves `Run` is caught by the
caller. -/
def jobSystem (env : JobEnv) : System JobSystem JobOp where
  init s := s = .empty
  step s
    | .call c => some (s.perform env c)
    | .run => some (s.run env).1

end NomadTasks
