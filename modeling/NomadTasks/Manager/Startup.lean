import Mathlib.Data.BitVec
import Mathlib.Logic.Function.Basic
import Mathlib.Tactic.Common

/-!
# The start of `Manager::Run`

`Run` makes the threads and fibers one after another, and checks its options in between: each of its
error codes is returned with a part of the work done. This is the sequential part, from the check
for `AlreadyInitialized` up to the switch to the main fiber; what the threads then do is in the
other modules.

* `RunOptions`, `RunState`: the options of the manager, and its members.
* `RunState.run`: `Run`.
* `run_exit`: the exits of `Run`, with the error code and what each leaves behind.
* `roles_ok_iff`: for which options the threads get consistent roles.
-/

namespace NomadTasks

/-! ## Data -/

/-- The members of `ManagerOptions` that `Run` depends on. -/
structure RunOptions where
  numThreads : BitVec 8
  numFibers : BitVec 16 := 25
  threadAffinity : Bool := false
  autoSpawnThreads : Bool := true
  shutdownAfterMainCallback : Bool := true
  deriving DecidableEq

/-- `_numThreads`, which the constructor sets to `options.NumThreads + 1`. -/
def RunOptions.threadCount (opts : RunOptions) : BitVec 8 := opts.numThreads + 1

/-- `ReturnCode`. -/
inductive ReturnCode
  | succes
  | unknownError
  | osError
  | nullCallback
  | alreadyInitialized
  | invalidNumFibers
  | errorThreadAffinity
  deriving DecidableEq

/-- What the `_handle` of a `Thread` with an `_id` denotes. -/
inductive ThreadHandle
  /-- The thread that `CreateThread` has made for `_threads[i]`. -/
  | created (i : ℕ)
  /-- What `GetCurrentThread()` returns: the thread that uses it. -/
  | current
  deriving DecidableEq

/-- A `Thread`, with the members of its `TLS` that `Run` sets. -/
structure StartThread where
  /-- `none` when `HasSpawned()` is `false`. -/
  handle : Option ThreadHandle := none
  threadIndex : BitVec 8 := 255
  hasAffinity : Bool := false
  isIo : Bool := false
  currentFiberIndex : Option ℕ := none
  /-- The last mask for which `SetThreadAffinityMask` was called with the handle. -/
  mask : Option (BitVec 64) := none
  deriving DecidableEq

/-- The members of `Manager` that `Run` sets. -/
structure RunState where
  /-- The length of the array at `_threads`; `none` is `nullptr`. -/
  threads : Option ℕ := none
  /-- What is in memory from `_threads` on. -/
  thread : ℕ → StartThread := fun _ => {}
  /-- The length of the arrays at `_fibers` and `_idleFibers`. -/
  fibers : Option ℕ := none
  /-- The fiber whose callback is `FiberCallback_Main`. -/
  mainFiber : Option ℕ := none
  /-- `_mainCallback` is not `nullptr`. -/
  mainCallback : Bool := false
  /-- The worker threads that have been started. -/
  workers : List ℕ := []
  /-- Auxiliary: the indices at which `_threads` has been accessed. -/
  accesses : List ℕ := []

/-- What `Run` finds out while it runs. -/
structure RunEnv where
  /-- `std::thread::hardware_concurrency()`. -/
  cores : BitVec 32
  /-- `CreateThread` succeeds for `_threads[i]`. -/
  spawns : ℕ → Bool
  /-- The fiber that `FindFreeFiber` returns to the main thread. -/
  freeFiber : ℕ

/-! ## `Thread` -/

namespace StartThread

/-- `SetAffinity(i)`; the shift is defined for the 64 bits of the mask only. -/
def setAffinity (t : StartThread) (i : ℕ) : StartThread :=
  if t.handle = none then t else { t with mask := some (1#64 <<< i) }

/-- What `ThreadCallback_Worker` does first on its own thread. -/
def workerStarts (t : StartThread) : StartThread :=
  if t.hasAffinity then t.setAffinity t.threadIndex.toNat else t

end StartThread

namespace RunState

/-- An access to `_threads[i]`. -/
def access (s : RunState) (i : ℕ) (f : StartThread → StartThread) : RunState :=
  { s with
    thread := Function.update s.thread i (f (s.thread i))
    accesses := s.accesses ++ [i] }

/-! ## `Run` -/

/-- `_threads[i].FromCurrentThread()`. -/
def fromCurrentThread (s : RunState) (i : ℕ) : RunState :=
  s.access i fun t => { t with handle := some .current }

/-- The body of the loop in `Run` up to `SpawnThread`: the role of thread `i`. -/
def setRole (s : RunState) (opts : RunOptions) (i : ℕ) : RunState :=
  s.access i fun t => { t with
    threadIndex := BitVec.ofNat 8 i
    isIo := t.isIo || decide (0 < i ∧ i = opts.threadCount.toNat - 1)
    hasAffinity :=
      if 0 < i ∧ i ≠ opts.threadCount.toNat - 1 then opts.threadAffinity else t.hasAffinity }

/-- `SpawnThread(i)`; `false` if `CreateThread` has failed. -/
def spawnThread (s : RunState) (env : RunEnv) (i : ℕ) : RunState × Bool :=
  if env.spawns i then
    ({ s.access i fun t => { t with handle := some (.created i) } with
        workers := s.workers ++ [i] }, true)
  else (s.access i fun t => { t with handle := none }, false)

/-- The loop in `Run` over the threads; `false` if it is left with `OSError`. -/
def spawnLoop (opts : RunOptions) (env : RunEnv) : RunState → List ℕ → RunState × Bool
  | s, [] => (s, true)
  | s, i :: rest =>
      if 0 < i ∧ opts.autoSpawnThreads = true then
        match (s.setRole opts i).spawnThread env i with
        | (s, true) => spawnLoop opts env s rest
        | (s, false) => (s, false)
      else spawnLoop opts env (s.setRole opts i) rest

/-- `new Thread[_numThreads]`, and the main thread. -/
def makeMainThread (s : RunState) (opts : RunOptions) (main : Bool) : RunState :=
  let s :=
    { s with threads := some opts.threadCount.toNat, thread := fun _ => {} }.fromCurrentThread 0
  if main && opts.threadAffinity then s.access 0 fun t => t.setAffinity 1 else s

/-- The check of `ThreadAffinity`. -/
def affinityFails (opts : RunOptions) (env : RunEnv) : Bool :=
  opts.threadAffinity &&
    (opts.threadCount == 0 || decide (env.cores + 1 < opts.threadCount.setWidth 32))

/-- The end of `Run`, after the loop. The switch to the main fiber comes back, and `Run` joins the
other threads. -/
def finish (s : RunState) (opts : RunOptions) (env : RunEnv) (main : Bool) :
    RunState × ReturnCode :=
  let s := { s.access 0 fun t => { t with currentFiberIndex := some env.freeFiber } with
    mainCallback := main }
  if main = false ∧ opts.shutdownAfterMainCallback = true then (s, .nullCallback)
  else
    let s := { s with mainFiber := some env.freeFiber }
    if main then
      ({ s with accesses := s.accesses ++ List.range' 1 (opts.threadCount.toNat - 1) }, .succes)
    else (s, .succes)

/-- `Run`; `main` says whether the callback is not `nullptr`. -/
def run (s : RunState) (opts : RunOptions) (env : RunEnv) (main : Bool) : RunState × ReturnCode :=
  if s.threads.isSome || s.fibers.isSome then (s, .alreadyInitialized)
  else
    let s := s.makeMainThread opts main
    if opts.numFibers = 0 then (s, .invalidNumFibers)
    else
      let s := { s with fibers := some opts.numFibers.toNat }
      if affinityFails opts env then (s, .errorThreadAffinity)
      else
        match s.spawnLoop opts env (List.range opts.threadCount.toNat) with
        | (s, true) => s.finish opts env main
        | (s, false) => (s, .osError)

end RunState

section

variable {opts : RunOptions} {env : RunEnv} {main : Bool} {s : RunState}

namespace RunState

@[simp] theorem access_threads (s : RunState) (i : ℕ) (f : StartThread → StartThread) :
    (s.access i f).threads = s.threads := rfl

@[simp] theorem access_fibers (s : RunState) (i : ℕ) (f : StartThread → StartThread) :
    (s.access i f).fibers = s.fibers := rfl

@[simp] theorem access_workers (s : RunState) (i : ℕ) (f : StartThread → StartThread) :
    (s.access i f).workers = s.workers := rfl

@[simp] theorem access_accesses (s : RunState) (i : ℕ) (f : StartThread → StartThread) :
    (s.access i f).accesses = s.accesses ++ [i] := rfl

@[simp] theorem access_thread (s : RunState) (i : ℕ) (f : StartThread → StartThread) :
    (s.access i f).thread = Function.update s.thread i (f (s.thread i)) := rfl

/-- The workers of the list that are started before one fails. -/
def startedBy (opts : RunOptions) (env : RunEnv) (l : List ℕ) : List ℕ :=
  if opts.autoSpawnThreads then (l.filter fun i => decide (0 < i)).takeWhile env.spawns else []

/-! ## The loop over the threads -/

/-- The loop starts workers until one fails, and touches nothing but the threads. -/
theorem spawnLoop_spec (opts : RunOptions) (env : RunEnv) (l : List ℕ) (s : RunState) :
    (s.spawnLoop opts env l).1.threads = s.threads ∧ (s.spawnLoop opts env l).1.fibers = s.fibers ∧
      (s.spawnLoop opts env l).1.workers = s.workers ++ startedBy opts env l ∧
      ((s.spawnLoop opts env l).2 = true ↔
        (opts.autoSpawnThreads = true → ∀ i ∈ l, 0 < i → env.spawns i = true)) := by
  induction l generalizing s with
  | nil => simp [spawnLoop, startedBy]
  | cons i rest ih =>
    rw [spawnLoop]
    split
    · next hi =>
      obtain ⟨hpos, hauto⟩ := hi
      cases hspawn : env.spawns i with
      | true =>
        simp only [spawnThread, hspawn, if_true]
        obtain ⟨hthreads, hfibers, hworkers, hdone⟩ := ih { (s.setRole opts i).access i
          fun t => { t with handle := some (.created i) } with
            workers := (s.setRole opts i).workers ++ [i] }
        refine ⟨hthreads, hfibers, ?_, ?_⟩
        · rw [hworkers]
          simp [setRole, startedBy, hauto, hpos, hspawn]
        · rw [hdone]
          simp [hspawn]
      | false =>
        simp only [spawnThread, hspawn, if_false, Bool.false_eq_true]
        refine ⟨rfl, rfl, ?_, ?_⟩
        · simp [setRole, startedBy, hauto, hpos, hspawn]
        · simp [hauto, hpos, hspawn]
    -- thread 0, or no thread is spawned here
    · next hi =>
      obtain ⟨hthreads, hfibers, hworkers, hdone⟩ := ih (s.setRole opts i)
      refine ⟨hthreads, hfibers, ?_, ?_⟩
      · rw [hworkers]
        by_cases hauto : opts.autoSpawnThreads = true
        · have hzero : ¬ 0 < i := fun hpos => hi ⟨hpos, hauto⟩
          simp [setRole, startedBy, hauto, hzero]
        · simp [setRole, startedBy, hauto]
      · rw [hdone]
        by_cases hauto : opts.autoSpawnThreads = true
        · have hzero : ¬ 0 < i := fun hpos => hi ⟨hpos, hauto⟩
          simp [hauto, hzero]
        · simp [hauto]

/-- Thread `i` when the loop has passed it. -/
def withRole (opts : RunOptions) (i : ℕ) (t : StartThread) : StartThread :=
  { t with
    threadIndex := BitVec.ofNat 8 i
    isIo := t.isIo || decide (0 < i ∧ i = opts.threadCount.toNat - 1)
    hasAffinity :=
      if 0 < i ∧ i ≠ opts.threadCount.toNat - 1 then opts.threadAffinity else t.hasAffinity
    handle := if 0 < i ∧ opts.autoSpawnThreads = true then some (.created i) else t.handle }

/-- When no worker fails, each thread of the list gets its role. -/
theorem spawnLoop_roles {l : List ℕ} (hnodup : l.Nodup)
    (hdone : (s.spawnLoop opts env l).2 = true) :
    (∀ i, (s.spawnLoop opts env l).1.thread i =
      if i ∈ l then withRole opts i (s.thread i) else s.thread i) ∧
    ∀ i, i ∈ (s.spawnLoop opts env l).1.accesses ↔ i ∈ s.accesses ∨ i ∈ l := by
  induction l generalizing s with
  | nil => simp [spawnLoop]
  | cons j rest ih =>
    obtain ⟨hj, hrest⟩ := List.nodup_cons.mp hnodup
    rw [spawnLoop] at hdone ⊢
    -- the state after the body of the loop, whose thread `j` has its role
    have hbody : ∀ s' : RunState,
        s'.thread = Function.update s.thread j (withRole opts j (s.thread j)) →
        (∀ i, i ∈ s'.accesses ↔ i ∈ s.accesses ∨ i = j) → (s'.spawnLoop opts env rest).2 = true →
        (∀ i, (s'.spawnLoop opts env rest).1.thread i =
          if i ∈ j :: rest then withRole opts i (s.thread i) else s.thread i) ∧
        ∀ i, i ∈ (s'.spawnLoop opts env rest).1.accesses ↔ i ∈ s.accesses ∨ i ∈ j :: rest := by
      intro s' hthread haccess hdone'
      obtain ⟨hroles, haccesses⟩ := ih hrest hdone'
      refine ⟨fun i => ?_, fun i => ?_⟩
      · rw [hroles, hthread]
        by_cases hij : i = j
        · subst hij
          simp [hj]
        · simp [hij]
      · rw [haccesses, haccess, List.mem_cons, or_assoc]
    split at hdone
    · next hi =>
      rw [if_pos hi]
      cases hspawn : env.spawns j with
      | true =>
        simp only [spawnThread, hspawn, if_true] at hdone ⊢
        refine hbody _ ?_ (fun i => by simp [setRole]) hdone
        simp [setRole, withRole, hi.1, hi.2]
      -- the loop ends at the first worker that fails
      | false => simp [spawnThread, hspawn] at hdone
    · next hi =>
      rw [if_neg hi]
      refine hbody _ ?_ (fun i => by simp [setRole]) hdone
      simp [setRole, withRole, hi]

end RunState

/-! ## What `Run` leaves behind -/

/-- The main thread has been made. -/
theorem makeMainThread_spec (s : RunState) (opts : RunOptions) (main : Bool) :
    (s.makeMainThread opts main).threads = some opts.threadCount.toNat ∧
      (s.makeMainThread opts main).fibers = s.fibers ∧
      (s.makeMainThread opts main).workers = s.workers := by
  simp only [RunState.makeMainThread]
  split <;> exact ⟨rfl, rfl, rfl⟩

/-- The end of `Run` adds nothing to the threads, fibers and workers. -/
theorem finish_spec (s : RunState) (opts : RunOptions) (env : RunEnv) (main : Bool) :
    (s.finish opts env main).1.threads = s.threads ∧
      (s.finish opts env main).1.fibers = s.fibers ∧
      (s.finish opts env main).1.workers = s.workers ∧
      (s.finish opts env main).2 =
        if main = false ∧ opts.shutdownAfterMainCallback = true then .nullCallback
        else .succes := by
  simp only [RunState.finish]
  split
  · exact ⟨rfl, rfl, rfl, rfl⟩
  · split <;> exact ⟨rfl, rfl, rfl, rfl⟩

/-- What each exit of `Run` on a new manager leaves behind. -/
theorem run_exit (opts : RunOptions) (env : RunEnv) (main : Bool) :
    (({} : RunState).run opts env main).1.threads = some opts.threadCount.toNat ∧
    match (({} : RunState).run opts env main).2 with
    | .invalidNumFibers => opts.numFibers = 0 ∧
        (({} : RunState).run opts env main).1.fibers = none ∧
        (({} : RunState).run opts env main).1.workers = []
    | .errorThreadAffinity => RunState.affinityFails opts env = true ∧
        (({} : RunState).run opts env main).1.fibers = some opts.numFibers.toNat ∧
        (({} : RunState).run opts env main).1.workers = []
    | .osError => opts.autoSpawnThreads = true ∧
        (∃ i < opts.threadCount.toNat, 0 < i ∧ env.spawns i = false) ∧
        (({} : RunState).run opts env main).1.fibers = some opts.numFibers.toNat ∧
        (({} : RunState).run opts env main).1.workers =
          RunState.startedBy opts env (List.range opts.threadCount.toNat)
    | .nullCallback => (main = false ∧ opts.shutdownAfterMainCallback = true) ∧
        (({} : RunState).run opts env main).1.fibers = some opts.numFibers.toNat ∧
        (({} : RunState).run opts env main).1.workers =
          RunState.startedBy opts env (List.range opts.threadCount.toNat)
    | .succes => ¬ (main = false ∧ opts.shutdownAfterMainCallback = true) ∧
        (({} : RunState).run opts env main).1.fibers = some opts.numFibers.toNat ∧
        (({} : RunState).run opts env main).1.workers =
          RunState.startedBy opts env (List.range opts.threadCount.toNat)
    | _ => False := by
  obtain ⟨hthreads, hfibers, hworkers⟩ := makeMainThread_spec {} opts main
  -- the exits in the order of the code
  simp only [RunState.run, Option.isSome_none, Bool.or_self, Bool.false_eq_true, if_false]
  split
  · next hzero => exact ⟨hthreads, hzero, hfibers, hworkers⟩
  · split
    · next hfails => exact ⟨hthreads, hfails, rfl, hworkers⟩
    · obtain ⟨hthreads', hfibers', hworkers', hdone⟩ := RunState.spawnLoop_spec opts env
        (List.range opts.threadCount.toNat)
        { RunState.makeMainThread {} opts main with fibers := some opts.numFibers.toNat }
      have hstarted : (RunState.makeMainThread {} opts main).workers ++
          RunState.startedBy opts env (List.range opts.threadCount.toNat) =
            RunState.startedBy opts env (List.range opts.threadCount.toNat) := by
        rw [hworkers]
        rfl
      split
      · next s hloop =>
        rw [hloop] at hthreads' hfibers' hworkers'
        obtain ⟨hthreads'', hfibers'', hworkers'', hcode⟩ := finish_spec s opts env main
        refine ⟨hthreads''.trans (hthreads'.trans hthreads), ?_⟩
        rw [hcode]
        by_cases hnull : main = false ∧ opts.shutdownAfterMainCallback = true
        · rw [if_pos hnull]
          exact ⟨hnull, hfibers''.trans hfibers', hworkers''.trans (hworkers'.trans hstarted)⟩
        · rw [if_neg hnull]
          exact ⟨hnull, hfibers''.trans hfibers', hworkers''.trans (hworkers'.trans hstarted)⟩
      · next s hloop =>
        rw [hloop] at hthreads' hfibers' hworkers' hdone
        simp only [Bool.false_eq_true, false_iff, List.mem_range] at hdone
        push Not at hdone
        obtain ⟨hauto, i, hi, hpos, hspawn⟩ := hdone
        exact ⟨hthreads'.trans hthreads, hauto, ⟨i, hi, hpos, by simpa using hspawn⟩, hfibers',
          hworkers'.trans hstarted⟩

/-- Nothing is left of a call of `Run`: no worker thread is running, which destroying the manager
would leave without its arrays, the members are what they were, and `Run` can be called again. -/
structure LeavesNothing (opts : RunOptions) (before after : RunState) : Prop where
  stopped : after.workers = []
  restored : after.threads = before.threads ∧ after.fibers = before.fibers ∧
    after.mainFiber = before.mainFiber ∧ after.mainCallback = before.mainCallback
  again : ∀ env main, (after.run opts env main).2 ≠ .alreadyInitialized

/-- The codes of a `Run` that has failed on a new manager. -/
def ReturnCode.fails : ReturnCode → Bool
  | .osError | .nullCallback | .invalidNumFibers | .errorThreadAffinity => true
  | _ => false

/-- The codes after which workers can be running. -/
def ReturnCode.afterSpawn : ReturnCode → Bool
  | .osError | .nullCallback => true
  | _ => false

/-- Each `Run` that fails on a new manager leaves something behind: the array of the threads, so
that every later call returns `AlreadyInitialized`, and the workers that it has started. -/
theorem failed_run_leaves (opts : RunOptions) (env : RunEnv) (main : Bool)
    (hfail : (({} : RunState).run opts env main).2.fails = true) :
    ¬ LeavesNothing opts {} (({} : RunState).run opts env main).1 ∧
      (∀ env' main', ((({} : RunState).run opts env main).1.run opts env' main').2 =
        .alreadyInitialized) ∧
      (({} : RunState).run opts env main).1.workers =
        if (({} : RunState).run opts env main).2.afterSpawn then
          RunState.startedBy opts env (List.range opts.threadCount.toNat)
        else [] := by
  obtain ⟨hthreads, hexit⟩ := run_exit opts env main
  have hagain : ∀ env' main', ((({} : RunState).run opts env main).1.run opts env' main').2 =
      .alreadyInitialized := by
    intro env' main'
    rw [RunState.run, hthreads]
    rfl
  refine ⟨fun hnothing => hnothing.again env main (hagain env main), hagain, ?_⟩
  -- the workers, exit by exit
  cases hcode : (({} : RunState).run opts env main).2 with
  | invalidNumFibers | errorThreadAffinity =>
    rw [hcode] at hexit
    exact hexit.2.2
  | osError =>
    rw [hcode] at hexit
    exact hexit.2.2.2
  | nullCallback =>
    rw [hcode] at hexit
    exact hexit.2.2
  | _ =>
    rw [hcode] at hfail
    cases hfail

/-- `CreateThread` fails for the IO thread of a manager with two worker threads. -/
def ioThreadFails : RunEnv where
  cores := 4
  spawns i := i ≠ 2
  freeFiber := 0

theorem failed_run_leaves_noFibers :
    (({} : RunState).run { numThreads := 2, numFibers := 0 } ioThreadFails true).2 =
        .invalidNumFibers ∧
      ¬ LeavesNothing { numThreads := 2, numFibers := 0 } {}
        (({} : RunState).run { numThreads := 2, numFibers := 0 } ioThreadFails true).1 :=
  ⟨by decide, (failed_run_leaves _ _ _ (by decide)).1⟩

/-- `Run` returns `OSError`, and the first worker goes on running. -/
theorem failed_run_leaves_worker :
    (({} : RunState).run { numThreads := 2 } ioThreadFails true).2 = .osError ∧
      (({} : RunState).run { numThreads := 2 } ioThreadFails true).1.workers = [1] ∧
      ¬ LeavesNothing { numThreads := 2 } {}
        (({} : RunState).run { numThreads := 2 } ioThreadFails true).1 := by
  have hworkers : (({} : RunState).run { numThreads := 2 } ioThreadFails true).1.workers = [1] := by
    decide
  refine ⟨by decide, hworkers, fun hnothing => ?_⟩
  have hstopped := hnothing.stopped
  rw [hworkers] at hstopped
  cases hstopped

/-! ## Roles -/

/-- The mask of thread `i` once it runs: `Run` sets it for the main thread, and the workers set it
for themselves. -/
def RunState.maskOf (s : RunState) (i : ℕ) : Option (BitVec 64) :=
  if i = 0 then (s.thread 0).mask else (s.thread i).workerStarts.mask

/-- The mask is the single bit of a core that exists. -/
def PinsCore (env : RunEnv) (mask : Option (BitVec 64)) : Prop :=
  ∃ core < env.cores.toNat, core < 64 ∧ mask = some (1#64 <<< core)

/-- The threads have consistent roles: all accesses are inside the array; one thread is the IO
thread, and not thread 0; a thread has its own index; and with `ThreadAffinity` and a main callback,
the main thread and the workers except the IO thread are pinned to different cores. -/
structure RolesOk (opts : RunOptions) (env : RunEnv) (main : Bool) (s : RunState) : Prop where
  inBounds : ∀ i ∈ s.accesses, ∃ n ∈ s.threads, i < n
  oneIo : ∃ i < opts.threadCount.toNat, 0 < i ∧
    ∀ j < opts.threadCount.toNat, (s.thread j).isIo = true ↔ j = i
  index : ∀ i < opts.threadCount.toNat, (s.thread i).threadIndex.toNat = i
  pinned : opts.threadAffinity = true → main = true →
    (∀ i < opts.threadCount.toNat, (s.thread i).isIo = false → PinsCore env (s.maskOf i)) ∧
    ∀ i < opts.threadCount.toNat, ∀ j < opts.threadCount.toNat, (s.thread i).isIo = false →
      (s.thread j).isIo = false → s.maskOf i = s.maskOf j → i = j

/-- The main thread before the loop. -/
theorem makeMainThread_thread (s : RunState) (opts : RunOptions) (main : Bool) :
    (∀ i, (s.makeMainThread opts main).thread i = if i = 0 then
        { handle := some .current,
          mask := if main && opts.threadAffinity then some (1#64 <<< 1) else none }
      else {}) ∧
    ∀ i, i ∈ (s.makeMainThread opts main).accesses ↔ i ∈ s.accesses ∨ i = 0 := by
  simp only [RunState.makeMainThread, RunState.fromCurrentThread]
  split
  · refine ⟨fun i => ?_, fun i => by simp⟩
    by_cases hi : i = 0
    · simp [hi, StartThread.setAffinity]
    · simp [hi]
  · refine ⟨fun i => ?_, fun i => by simp⟩
    by_cases hi : i = 0
    · simp [hi]
    · simp [hi]

/-- The end of `Run` gives the main thread a fiber, and may join the other threads. -/
theorem finish_thread (s : RunState) (opts : RunOptions) (env : RunEnv) (main : Bool) :
    (∀ i, (s.finish opts env main).1.thread i =
      if i = 0 then { s.thread 0 with currentFiberIndex := some env.freeFiber } else s.thread i) ∧
    0 ∈ (s.finish opts env main).1.accesses ∧
    ∀ i, i ∈ (s.finish opts env main).1.accesses →
      i ∈ s.accesses ∨ i = 0 ∨ i < opts.threadCount.toNat := by
  have hthread : ∀ i, (s.finish opts env main).1.thread i = Function.update s.thread 0
      { s.thread 0 with currentFiberIndex := some env.freeFiber } i := by
    intro i
    simp only [RunState.finish]
    split
    · rfl
    · split <;> rfl
  refine ⟨fun i => ?_, ?_, fun i hi => ?_⟩
  · rw [hthread]
    by_cases hi : i = 0
    · simp [hi]
    · simp [hi]
  · simp only [RunState.finish]
    split
    · simp
    · split <;> simp
  · simp only [RunState.finish] at hi
    split at hi
    · simp only [RunState.access_accesses, List.mem_append, List.mem_singleton] at hi
      exact hi.imp_right .inl
    · split at hi
      · simp only [RunState.access_accesses, List.mem_append, List.mem_singleton,
          List.mem_range'_1] at hi
        rcases hi with (hi | hi) | hi
        · exact .inl hi
        · exact .inr (.inl hi)
        · exact .inr (.inr (by omega))
      · simp only [RunState.access_accesses, List.mem_append, List.mem_singleton] at hi
        exact hi.imp_right .inl

/-- The state after a `Run` that has succeeded. -/
theorem run_succes (hsucces : (({} : RunState).run opts env main).2 = .succes) :
    (∀ i ∈ (({} : RunState).run opts env main).1.accesses, i = 0 ∨ i < opts.threadCount.toNat) ∧
    0 ∈ (({} : RunState).run opts env main).1.accesses ∧
    ∀ i < opts.threadCount.toNat,
      ((({} : RunState).run opts env main).1.thread i).threadIndex = BitVec.ofNat 8 i ∧
      ((({} : RunState).run opts env main).1.thread i).isIo =
        decide (0 < i ∧ i = opts.threadCount.toNat - 1) ∧
      ((({} : RunState).run opts env main).1.thread i).hasAffinity =
        (decide (0 < i ∧ i ≠ opts.threadCount.toNat - 1) && opts.threadAffinity) ∧
      ((({} : RunState).run opts env main).1.thread i).mask =
        if i = 0 ∧ (main && opts.threadAffinity) = true then some (1#64 <<< 1) else none := by
  have hnodup := List.nodup_range (n := opts.threadCount.toNat)
  obtain ⟨hmade, hmadeAccess⟩ := makeMainThread_thread {} opts main
  simp only [RunState.run, Option.isSome_none, Bool.or_self, Bool.false_eq_true, if_false]
    at hsucces ⊢
  split at hsucces
  · cases hsucces
  · next hfibers =>
    rw [if_neg hfibers]
    split at hsucces
    · cases hsucces
    · next haffinity =>
      rw [if_neg haffinity]
      split at hsucces
      · next s' hloop =>
        obtain ⟨hroles, haccess⟩ := RunState.spawnLoop_roles hnodup (congrArg Prod.snd hloop)
        obtain ⟨hfinish, hzero, hfinishAccess⟩ := finish_thread s' opts env main
        simp only [hloop] at hroles haccess ⊢
        refine ⟨fun i hi => ?_, hzero, fun i hi => ?_⟩
        · rcases hfinishAccess i hi with hi | hi
          · rw [haccess, hmadeAccess, List.mem_range] at hi
            rcases hi with (hi | hi) | hi
            · cases hi
            · exact .inl hi
            · exact .inr hi
          · exact hi
        -- the three assignments to the members of a thread, from the last one back
        · have hrole := hroles i
          rw [if_pos (List.mem_range.mpr hi), hmade] at hrole
          rw [hfinish]
          by_cases hi0 : i = 0
          · subst hi0
            simp [hrole, RunState.withRole]
          · simp [hi0, hrole, RunState.withRole]
      · cases hsucces

/-- The only thread with a mask before the workers run is the main thread. -/
theorem maskOf_run (hsucces : (({} : RunState).run opts env main).2 = .succes)
    (haffinity : opts.threadAffinity = true) (hmain : main = true) :
    (0 < opts.threadCount.toNat →
      (({} : RunState).run opts env main).1.maskOf 0 = some (1#64 <<< 1)) ∧
    (2 < opts.threadCount.toNat → (({} : RunState).run opts env main).1.maskOf 1 = none ∨
      (({} : RunState).run opts env main).1.maskOf 1 = some (1#64 <<< 1)) := by
  obtain ⟨-, -, hthread⟩ := run_succes hsucces
  refine ⟨fun hpos => ?_, fun htwo => ?_⟩
  · rw [RunState.maskOf, if_pos rfl, (hthread 0 hpos).2.2.2]
    simp [haffinity, hmain]
  · obtain ⟨hindex, -, hpins, hmask⟩ := hthread 1 (by omega)
    -- thread 1 is not the IO thread, so that it pins itself, unless it is not spawned by `Run`
    have hpins' : ((({} : RunState).run opts env main).1.thread 1).hasAffinity = true := by
      rw [hpins, haffinity]
      simpa using by omega
    rw [RunState.maskOf, if_neg (by decide), StartThread.workerStarts, if_pos hpins',
      StartThread.setAffinity, hindex]
    split
    · exact .inl (hmask.trans (by simp))
    · exact .inr rfl

/-- A bit of the mask says which core it is. -/
theorem core_eq_one {core : ℕ} (hcore : core < 64)
    (hmask : (1#64 <<< 1 : BitVec 64) = 1#64 <<< core) : core = 1 := by
  have hval := congrArg BitVec.toNat hmask
  have hlt : 2 ^ core < 2 ^ 64 := Nat.pow_lt_pow_right (by decide) hcore
  simp only [BitVec.toNat_shiftLeft, BitVec.toNat_ofNat, Nat.shiftLeft_eq] at hval
  rw [Nat.mod_eq_of_lt (by decide : 1 < 2 ^ 64), Nat.one_mul, Nat.one_mul,
    Nat.mod_eq_of_lt hlt] at hval
  exact (Nat.pow_right_injective (Nat.le_refl 2) hval).symm

theorem threadCount_toNat (opts : RunOptions) :
    opts.threadCount.toNat = (opts.numThreads.toNat + 1) % 256 := by
  rw [RunOptions.threadCount, BitVec.toNat_add]
  rfl

/-- `_numThreads` is more than one exactly if the sum does not wrap around, and counts a worker. -/
theorem two_le_threadCount (opts : RunOptions) :
    2 ≤ opts.threadCount.toNat ↔ 1 ≤ opts.numThreads.toNat ∧ opts.numThreads.toNat ≤ 254 := by
  have hlt := opts.numThreads.isLt
  rw [threadCount_toNat]
  omega

/-- A `Run` that succeeds gives the threads consistent roles exactly if `NumThreads` is between 1
and 254, and, if it pins the main thread, there is no other worker and a second core. -/
theorem roles_ok_iff (hsucces : (({} : RunState).run opts env main).2 = .succes) :
    RolesOk opts env main (({} : RunState).run opts env main).1 ↔
      (1 ≤ opts.numThreads.toNat ∧ opts.numThreads.toNat ≤ 254) ∧
        (opts.threadAffinity = true → main = true →
          opts.numThreads = 1 ∧ 2 ≤ env.cores.toNat) := by
  obtain ⟨haccess, hzero, hthread⟩ := run_succes hsucces
  have hthreads := (run_exit opts env main).1
  have hcount : opts.threadCount.toNat = 2 ↔ opts.numThreads = 1 := by
    have hlt := opts.numThreads.isLt
    have hone : (1 : BitVec 8).toNat = 1 := rfl
    rw [threadCount_toNat, ← BitVec.toNat_inj, hone]
    omega
  have hlast : ∀ i < opts.threadCount.toNat,
      ((({} : RunState).run opts env main).1.thread i).isIo = true ↔
        0 < i ∧ i = opts.threadCount.toNat - 1 := by
    intro i hi
    rw [(hthread i hi).2.1, decide_eq_true_eq]
  rw [← two_le_threadCount]
  constructor
  · intro hroles
    obtain ⟨i, hi, hpos, -⟩ := hroles.oneIo
    refine ⟨by omega, fun haffinity hmain => ?_⟩
    obtain ⟨hpins, hdifferent⟩ := hroles.pinned haffinity hmain
    obtain ⟨hmain0, hworker⟩ := maskOf_run hsucces haffinity hmain
    have hother : ∀ j < opts.threadCount.toNat, j ≠ opts.threadCount.toNat - 1 →
        ((({} : RunState).run opts env main).1.thread j).isIo = false := by
      intro j hj hne
      rw [← Bool.not_eq_true, hlast j hj]
      exact fun hand => hne hand.2
    -- with a worker besides the IO thread, it would be on the core of the main thread
    have htwo : opts.threadCount.toNat = 2 := by
      by_contra hne
      have h0 := hother 0 (by omega) (by omega)
      have h1 := hother 1 (by omega) (by omega)
      rcases hworker (by omega) with hnone | hsame
      · obtain ⟨core, -, -, hmask⟩ := hpins 1 (by omega) h1
        rw [hnone] at hmask
        cases hmask
      · have := hdifferent 0 (by omega) 1 (by omega) h0 h1 ((hmain0 (by omega)).trans hsame.symm)
        cases this
    -- and the main thread is on core 1
    obtain ⟨core, hcore, h64, hmask⟩ := hpins 0 (by omega) (hother 0 (by omega) (by omega))
    rw [hmain0 (by omega)] at hmask
    obtain rfl := core_eq_one h64 (Option.some.inj hmask)
    exact ⟨hcount.mp htwo, by omega⟩
  · rintro ⟨htwo, hpinned⟩
    refine ⟨fun i hi => ⟨_, hthreads, ?_⟩, ⟨opts.threadCount.toNat - 1, by omega, by omega,
      fun j hj => ?_⟩, fun i hi => ?_, fun haffinity hmain => ?_⟩
    · rcases haccess i hi with rfl | hi
      · omega
      · exact hi
    · rw [hlast j hj]
      omega
    · rw [(hthread i hi).1, BitVec.toNat_ofNat]
      have := opts.threadCount.isLt
      omega
    -- the main thread is the only one that is pinned
    · obtain ⟨hone, hcores⟩ := hpinned haffinity hmain
      have heq : opts.threadCount.toNat = 2 := hcount.mpr hone
      have honly : ∀ i < opts.threadCount.toNat,
          ((({} : RunState).run opts env main).1.thread i).isIo = false → i = 0 := by
        intro i hi hno
        rw [← Bool.not_eq_true, hlast i hi] at hno
        omega
      refine ⟨fun i hi hno => ?_, fun i hi j hj hno hno' _ => ?_⟩
      · obtain rfl := honly i hi hno
        exact ⟨1, hcores, by decide, (maskOf_run hsucces haffinity hmain).1 (by omega)⟩
      · rw [honly i hi hno, honly j hj hno']

/-- `CreateThread` succeeds, on a machine with `cores` cores. -/
def allSpawn (cores : BitVec 32) : RunEnv where
  cores := cores
  spawns _ := true
  freeFiber := 0

theorem roles_ok_iff_four :
    RolesOk { numThreads := 4 } (allSpawn 4) true
      (({} : RunState).run { numThreads := 4 } (allSpawn 4) true).1 :=
  (roles_ok_iff (by decide)).mpr (by decide)

/-- With 255 worker threads `_numThreads` is zero, and with none the main thread is the only one;
with affinity the main thread and the first worker share a core; and the core of the main thread
does not exist on a machine with one. -/
theorem roles_broken :
    (∀ n ∈ [(255 : BitVec 8), 0],
      (({} : RunState).run { numThreads := n } (allSpawn 4) true).2 = .succes ∧
        ¬ RolesOk { numThreads := n } (allSpawn 4) true
          (({} : RunState).run { numThreads := n } (allSpawn 4) true).1) ∧
    ((({} : RunState).run { numThreads := 2, threadAffinity := true } (allSpawn 4) true).2 =
        .succes ∧
      ¬ RolesOk { numThreads := 2, threadAffinity := true } (allSpawn 4) true
        (({} : RunState).run { numThreads := 2, threadAffinity := true } (allSpawn 4) true).1) ∧
    (({} : RunState).run { numThreads := 1, threadAffinity := true } (allSpawn 1) true).2 =
        .succes ∧
      ¬ RolesOk { numThreads := 1, threadAffinity := true } (allSpawn 1) true
        (({} : RunState).run { numThreads := 1, threadAffinity := true } (allSpawn 1) true).1 := by
  refine ⟨fun n hn => ?_, ⟨by decide, fun hroles => ?_⟩, by decide, fun hroles => ?_⟩
  · simp only [List.mem_cons, List.not_mem_nil, or_false] at hn
    rcases hn with rfl | rfl
    · refine ⟨by decide, fun hroles => ?_⟩
      obtain ⟨i, hi, -⟩ := hroles.oneIo
      exact absurd hi (Nat.not_lt_zero i)
    · refine ⟨by decide, fun hroles => ?_⟩
      obtain ⟨i, hi, hpos, -⟩ := hroles.oneIo
      exact absurd (Nat.lt_one_iff.mp hi) hpos.ne'
  · have hsame := (hroles.pinned rfl rfl).2 0 (by decide) 1 (by decide) (by decide) (by decide)
      (by decide)
    cases hsame
  · obtain ⟨core, hcore, -, hmask⟩ := (hroles.pinned rfl rfl).1 0 (by decide) (by decide)
    obtain rfl : core = 0 := Nat.lt_one_iff.mp hcore
    revert hmask
    decide

end

end NomadTasks
