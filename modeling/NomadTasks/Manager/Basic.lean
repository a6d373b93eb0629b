import NomadTasks.Counter.Registration

/-!
# The fiber manager: its data, and the program of a thread and of a fiber

`Manager` runs a pool of fibers on its threads. A fiber that has nothing to do stays in
`FiberCallback_Worker` and takes jobs with `GetNextJob`; a job that waits for a counter parks its
fiber, and another fiber goes on on the same thread. The fiber that is switched to finishes the
hand-off that its predecessor has left in the thread's `TLS`.

The program points follow the statements of `Manager.cpp`, `ManagerJobs.cpp`,
`ManagerCallbacks.cpp`, `Job.cpp` and `Queue.cpp`; `FiberPc.next` and `ThreadPc.next` say what a
step does and where it goes. The delegate of a job is any sequence of calls of the public
interface.

* `ManagerState`: what the threads share, and what the fibers and threads are doing.
* `FiberPc`, `ThreadPc`: the program points of a fiber, and of a thread's own code.
* `Act`: what one step does to the state.
-/

namespace NomadTasks

/-! ## Data -/

/-- The members of `ManagerOptions` that the scheduling depends on. -/
structure ManagerOptions where
  numThreads : ℕ
  numFibers : ℕ
  shutdownAfterMainCallback : Bool

/-- `_numThreads`: the main thread and the other workers, and the IO thread. `NumThreads` is at
most 254, so that the sum of the constructor does not wrap around. -/
def ManagerOptions.threadCount (opts : ManagerOptions) : ℕ := opts.numThreads + 1

/-- `_isIo` of a thread, which `Run` sets for the last one before it is spawned. -/
def ManagerOptions.isIo (opts : ManagerOptions) (t : ℕ) : Bool :=
  decide (0 < t) && t == opts.threadCount - 1

/-- The counters of a program: those the user makes, the `TinyCounter` of each `WaitForSingle`
call, and the `_counter` of each `Queue`. -/
inductive CtrId
  | user (n : ℕ)
  | tiny (n : ℕ)
  | queue (q : ℕ)
  deriving DecidableEq

/-- The number of waiting slots that the constructors of `Counter` and `TinyCounter` ask for. -/
def CtrId.slots : CtrId → ℕ
  | .user _ | .queue _ => BaseCounter.maxWaiting
  | .tiny _ => 1

/-- `JobInfo`: the delegate, `none` when `IsNull()`, and the counter to decrement. -/
structure JobInfo where
  delegate : Option ℕ
  counter : Option CtrId
  deriving DecidableEq

/-- `JobPriority`. -/
inductive JobPriority
  | high
  | normal
  | low
  | io
  deriving DecidableEq

/-- `FiberDestination`. -/
inductive FiberDestination
  | none
  | waiting
  | pool
  deriving DecidableEq

/-- The members of `TLS` that change while the manager runs. -/
structure TLS where
  currentFiberIndex : ℕ := noFiber
  previousFiberIndex : ℕ := noFiber
  previousFiberStored : FlagPtr := 0
  previousFiberDestination : FiberDestination := .none
  readyFibers : List ReadyFiber := []
  deriving DecidableEq

/-- A hand-off that a fiber leaves for the next one: it goes back to the pool, or it waits and its
`fiberStored` flag is to be set. -/
inductive Handoff
  | pool (fiberIndex : ℕ)
  | waiting (fiberIndex : ℕ) (fiberStored : FlagPtr)
  deriving DecidableEq

/-- The hand-off that a `TLS` holds. -/
def TLS.handoff (tls : TLS) : Option Handoff :=
  match tls.previousFiberDestination with
  | .none => none
  | .pool => some (.pool tls.previousFiberIndex)
  | .waiting => some (.waiting tls.previousFiberIndex tls.previousFiberStored)

/-- An assignment to members of a `TLS`. -/
inductive TlsWrite
  | currentFiberIndex (f : ℕ)
  | previousFiberIndex (f : ℕ)
  | previousFiberDestination (d : FiberDestination)
  | previousFiberStored (p : FlagPtr)
  /-- `TLS::Cleanup`. -/
  | cleanup
  deriving DecidableEq

/-- The members after an assignment. -/
def TLS.write (tls : TLS) : TlsWrite → TLS
  | .currentFiberIndex f => { tls with currentFiberIndex := f }
  | .previousFiberIndex f => { tls with previousFiberIndex := f }
  | .previousFiberDestination d => { tls with previousFiberDestination := d }
  | .previousFiberStored p => { tls with previousFiberStored := p }
  | .cleanup =>
      { tls with
        previousFiberIndex := noFiber
        previousFiberDestination := .none
        previousFiberStored := 0 }

/-! ## Program points -/

/-- The program points of `FindFreeFiber`. -/
inductive FindPc
  /-- The loop test, and the first load of `_idleFibers[i]`. -/
  | loadRelaxed (i : ℕ)
  /-- The second load of `_idleFibers[i]`. -/
  | loadAcquire (i : ℕ)
  /-- The exchange on `_idleFibers[i]`. -/
  | casIdle (i : ℕ)
  deriving DecidableEq

/-- One step of `FindFreeFiber`: the next program point, or the fiber it has taken. The exchange
is a weak one, which can fail although the flag is set. -/
def FindPc.next (numFibers : ℕ) (idleFibers : ℕ → Bool) (exchanged : Bool) : FindPc → FindPc ⊕ ℕ
  | .loadRelaxed i =>
      if i < numFibers then
        if idleFibers i then .inl (.loadAcquire i) else .inl (.loadRelaxed (i + 1))
      else .inl (.loadRelaxed 0)
  | .loadAcquire i => if idleFibers i then .inl (.casIdle i) else .inl (.loadRelaxed (i + 1))
  | .casIdle i => if idleFibers i && exchanged then .inr i else .inl (.loadRelaxed (i + 1))

/-- The program points of `CleanupPreviousFiber`. -/
inductive CleanupPc
  /-- `switch (tls->_previousFiberDestination)`. -/
  | destination
  /-- `_idleFibers[tls->_previousFiberIndex].store(true)`. -/
  | storeIdle
  /-- `tls->_previousFiberStored->store(true)`. -/
  | storeStored
  /-- `tls->Cleanup()`. -/
  | cleanup
  deriving DecidableEq

/-- The program points of `GetNextJob`. -/
inductive NextJobPc
  /-- `if (tls->_isIo)`. -/
  | isIo
  | dequeueIo
  | dequeueHigh
  /-- The loop over `_readyFibers`, at position `k`: the load of `it->second`. -/
  | readyFiber (k : ℕ)
  /-- `delete it->second; tls->_readyFibers.erase(it)`. -/
  | erase (k : ℕ) (fiberIndex : ℕ)
  | setPrevious (fiberIndex : ℕ)
  | setDestination (fiberIndex : ℕ)
  | setCurrent (fiberIndex : ℕ)
  | switchTo (fiberIndex : ℕ)
  /-- Inside `SwitchTo`, until another fiber switches back. -/
  | parked
  | dequeueNormal
  | dequeueLow
  deriving DecidableEq

/-- What a fiber runs besides the worker loop: `_mainCallback`, or the delegate of a job. -/
inductive Ctx
  | main
  | job (job : JobInfo)
  deriving DecidableEq

/-- Who has called `ScheduleJob` or `WaitForCounter`. -/
inductive Caller
  /-- The main callback or a delegate. -/
  | body
  /-- `WaitForSingle`, with its `TinyCounter`. -/
  | single (n : ℕ)
  /-- `Queue::Step`. -/
  | queue (q : ℕ)
  deriving DecidableEq

/-- What follows `CleanupPreviousFiber`. -/
inductive CleanupCaller
  | worker
  | getNextJob
  | waitForCounter (ctx : Ctx) (caller : Caller)
  deriving DecidableEq

/-- The program points of `WaitForCounter`, apart from `AddWaitingFiber` and
`CleanupPreviousFiber`. -/
inductive WaitPc
  /-- `counter->GetValue() == targetValue`. -/
  | getValue
  /-- `new std::atomic_bool(false)`. -/
  | newStored
  /-- `delete fiberStored`, before the early return. -/
  | deleteStored (fiberStored : FlagPtr)
  | setPrevious (fiberStored : FlagPtr)
  | setDestination (fiberStored : FlagPtr)
  | setStored (fiberStored : FlagPtr)
  | findFree (fiberStored : FlagPtr) (pc : FindPc)
  | setCurrent (fiberStored : FlagPtr) (fiberIndex : ℕ)
  | switchTo (fiberStored : FlagPtr) (fiberIndex : ℕ)
  /-- Inside `SwitchTo`, until another fiber switches back. -/
  | parked (fiberStored : FlagPtr)
  deriving DecidableEq

/-- The calls on a counter, each with what follows it. -/
inductive CounterUse
  /-- `Increment` in `ScheduleJob`. -/
  | scheduleJob (ctx : Ctx) (caller : Caller) (prio : JobPriority) (job : JobInfo)
  /-- `AddWaitingFiber` in `WaitForCounter`. -/
  | waitForCounter (ctx : Ctx) (caller : Caller) (targetValue : CounterUnit) (fiberStored : FlagPtr)
  /-- `Increment` or `Decrement` in a delegate. -/
  | modify (ctx : Ctx) (op : Modifier)
  /-- `Decrement` in `JobInfo::Execute`. -/
  | execute
  deriving DecidableEq

/-- The program points of a fiber. -/
inductive FiberPc
  /-- `LaunchFiber`: the fiber has not run yet. -/
  | start
  | cleanup (pc : CleanupPc) (caller : CleanupCaller)
  /-- `while (!manager->IsShuttingDown())`. -/
  | loop
  | getNextJob (pc : NextJobPc)
  | sleepFor
  /-- `JobInfo::Execute`, before the delegate is called. -/
  | execute (job : JobInfo)
  /-- In the main callback or a delegate, between two calls. -/
  | body (ctx : Ctx)
  /-- About to call a member of a counter. -/
  | begin (use : CounterUse) (ctr : CtrId)
  /-- In the call `x` of a member of a counter. -/
  | call (use : CounterUse) (ctr : CtrId) (x : ℕ)
  /-- `queue->enqueue(job)` in `ScheduleJob`. -/
  | enqueue (ctx : Ctx) (caller : Caller) (prio : JobPriority) (job : JobInfo)
  /-- An exception leaves `ScheduleJob` or `WaitForCounter`; the delegate catches it. -/
  | threw (ctx : Ctx) (caller : Caller)
  | waitForCounter (ctx : Ctx) (caller : Caller) (ctr : CtrId) (targetValue : CounterUnit)
      (pc : WaitPc)
  /-- `WaitForCounter` has returned. -/
  | waited (ctx : Ctx) (caller : Caller)
  /-- `Queue::Step`, at `_queue.empty()`. -/
  | queueStep (ctx : Ctx) (q : ℕ)
  /-- `FiberCallback_Main`, after the main callback. -/
  | mainReturned
  | mainFindFree (pc : FindPc)
  | mainSetCurrent (fiberIndex : ℕ)
  | mainSwitchTo (fiberIndex : ℕ)
  | mainParked
  | switchBack
  /-- The fiber has switched back to its thread for good. -/
  | ended
  deriving DecidableEq

/-- A fiber: where it is, and the local variable `tls` that is live there. -/
structure FiberState where
  tls : ℕ := 0
  pc : FiberPc := .start
  deriving DecidableEq

/-- The program points of a thread's own code: `ThreadCallback_Worker`, and `Run` on thread 0. -/
inductive ThreadPc
  | findFree (pc : FindPc)
  | setCurrent (fiberIndex : ℕ)
  /-- `mainFiber->SetCallback(FiberCallback_Main)`. -/
  | setCallback (fiberIndex : ℕ)
  | switchTo (fiberIndex : ℕ)
  /-- Inside `SwitchTo`, until a fiber switches back. -/
  | inFiber
  | returned
  deriving DecidableEq

/-! ## The state -/

/-- What has happened to the delegates. -/
inductive DelegateEvent
  | called (job : JobInfo)
  | finished (job : JobInfo)
  deriving DecidableEq

/-- The job of a delegate event. -/
def DelegateEvent.job : DelegateEvent → JobInfo
  | .called job | .finished job => job

/-- What has happened to the hand-offs of the threads. -/
inductive HandoffEvent
  /-- The hand-off is complete in the `TLS` of thread `t`. -/
  | written (t : ℕ) (h : Option Handoff)
  /-- Thread `t` switches to fiber `f`. -/
  | switchedTo (t : ℕ) (f : ℕ)
  /-- `CleanupPreviousFiber`, run by fiber `f` on thread `t`, performs what the `TLS` of thread
  `tls` holds. -/
  | consumed (tls : ℕ) (t : ℕ) (f : ℕ) (h : Option Handoff)
  deriving DecidableEq

/-- A `WaitForSingle` call, and its job. -/
inductive SingleCall
  | notStarted
  | waiting (job : JobInfo)
  | returned (job : JobInfo)
  | threw
  deriving DecidableEq

/-- The call returns. -/
def SingleCall.return : SingleCall → SingleCall
  | .waiting job => .returned job
  | call => call

/-- The state of the manager, its threads, fibers, queues and counters. -/
structure ManagerState where
  shuttingDown : Bool
  threads : ℕ → ThreadPc
  /-- The fiber that a thread executes; `none` when it executes its own code. -/
  running : ℕ → Option ℕ
  fibers : ℕ → FiberState
  /-- `_callback` is `FiberCallback_Main`. -/
  mainCallback : ℕ → Bool
  /-- The thread whose `_threadFiber` is the `_returnFiber`. -/
  returnFiber : ℕ → ℕ
  idleFibers : ℕ → Bool
  tls : ℕ → TLS
  /-- The allocated `std::atomic_bool`s. -/
  flags : FlagPtr → Option Bool
  counters : CtrId → CounterState ℕ
  /-- The job queues. -/
  jobs : JobPriority → List JobInfo
  /-- `_queue` of each `Queue`. -/
  queues : ℕ → List (JobPriority × JobInfo)
  /-- Auxiliary: the fiber that has allocated a flag. -/
  flagFiber : FlagPtr → ℕ
  /-- Auxiliary: the `AddWaitingFiber` that has been called with a flag. -/
  flagCall : FlagPtr → Option (CtrId × ℕ)
  /-- Auxiliary: the `WaitForSingle` calls. -/
  singles : ℕ → SingleCall
  /-- Auxiliary: a `Queue::Execute` is in progress. -/
  executing : ℕ → Bool
  /-- Auxiliary: all jobs ever added to each `Queue`. -/
  added : ℕ → List JobInfo
  /-- Auxiliary: the delegate calls so far, oldest first. -/
  delegates : List DelegateEvent
  /-- Auxiliary: the hand-offs so far, oldest first. -/
  handoffs : List HandoffEvent

/-- The state that `Run` has prepared when the first thread is spawned. -/
def ManagerState.start (opts : ManagerOptions) : ManagerState where
  shuttingDown := false
  threads t := if t < opts.threadCount then .findFree (.loadRelaxed 0) else .returned
  running _ := none
  fibers _ := {}
  mainCallback _ := false
  returnFiber _ := 0
  idleFibers f := decide (f < opts.numFibers)
  tls _ := {}
  flags _ := none
  counters c := .idle (.construct c.slots)
  jobs _ := []
  queues _ := []
  flagFiber _ := noFiber
  flagCall _ := none
  singles _ := .notStarted
  executing _ := false
  added _ := []
  delegates := []
  handoffs := []

/-! ## Steps -/

/-- What one step does to the state, apart from the program point of the thread or fiber. -/
inductive Act
  /-- A load, a failed exchange or a local computation. -/
  | none
  /-- The exchange of `_idleFibers[f]` from `true` to `false`. -/
  | takeIdle (f : ℕ)
  /-- `_idleFibers[tls->_previousFiberIndex].store(true)`. -/
  | storeIdle (tls : ℕ)
  /-- `tls->_previousFiberStored->store(true)`. -/
  | storeStored (tls : ℕ)
  | newStored (p : FlagPtr)
  | deleteStored (p : FlagPtr)
  | writeTls (tls : ℕ) (w : TlsWrite)
  /-- Delete the flag of entry `k` of the ready list, and erase the entry. -/
  | erase (tls : ℕ) (k : ℕ)
  /-- A step on a counter. -/
  | counter (c : CtrId) (a : CounterAction ℕ)
  | enqueue (prio : JobPriority) (job : JobInfo)
  | dequeue (prio : JobPriority)
  | setCallback (f : ℕ)
  /-- `tls->_threadFiber.SwitchTo(&_fibers[f])`. -/
  | switchTo (tls : ℕ) (f : ℕ)
  | switchBack
  | shutdown
  | callDelegate (job : JobInfo)
  | finishDelegate (job : JobInfo)
  /-- `WaitForSingle` constructs its `TinyCounter`. -/
  | beginSingle (n : ℕ) (job : JobInfo)
  /-- `_queue.emplace_back`. -/
  | addJob (q : ℕ) (prio : JobPriority) (job : JobInfo)
  | enterExecute (q : ℕ)
  | leaveExecute (q : ℕ)
  /-- `WaitForCounter` returns to its caller. -/
  | endWait (caller : Caller)
  /-- An exception goes through its caller. -/
  | throwThrough (caller : Caller)

/-- A call that the main callback or a delegate makes. A `Queue` is used through `Add`, `+=` and
`Execute` only: nobody calls `Queue::Step` itself. -/
inductive BodyOp
  | scheduleJob (prio : JobPriority) (delegate : Option ℕ) (ctr : Option ℕ)
  /-- `WaitForCounter`, on no counter (`nullptr`) or a user's one, not blocking. -/
  | waitForCounter (ctr : Option ℕ) (targetValue : CounterUnit)
  /-- `WaitForSingle`; `n` names the call and its `TinyCounter`. -/
  | waitForSingle (prio : JobPriority) (delegate : Option ℕ) (n : ℕ)
  | modify (ctr : ℕ) (op : Modifier)
  /-- `Queue::Add` or `Queue::operator+=`. -/
  | addJob (q : ℕ) (prio : JobPriority) (delegate : Option ℕ)
  /-- `Queue::Execute`. -/
  | execute (q : ℕ)
  /-- `Shutdown(false)`. -/
  | shutdown
  /-- The main callback or the delegate returns. -/
  | finish
  deriving DecidableEq

/-- What a step leaves open. -/
inductive Choice
  /-- A `dequeue`, an `enqueue` or a weak exchange succeeds. -/
  | succeed
  /-- A `dequeue`, an `enqueue` or a weak exchange fails. -/
  | fail
  /-- The address that `new` returns. -/
  | address (p : FlagPtr)
  /-- The name of a call on a counter. -/
  | call (x : ℕ)
  /-- What the main callback or a delegate does next. -/
  | op (op : BodyOp)
  deriving DecidableEq

/-- What follows `CleanupPreviousFiber`. -/
def CleanupCaller.after : CleanupCaller → FiberPc
  | .worker => .loop
  | .getNextJob => .getNextJob .dequeueNormal
  | .waitForCounter ctx caller => .waited ctx caller

/-- `ScheduleJob(prio, job)`. -/
def FiberPc.scheduleJob (ctx : Ctx) (caller : Caller) (prio : JobPriority) (job : JobInfo) :
    FiberPc :=
  match job.counter with
  | none => .enqueue ctx caller prio job
  | some c => .begin (.scheduleJob ctx caller prio job) c

/-- What follows `ScheduleJob`. -/
def Caller.afterSchedule (ctx : Ctx) : Caller → FiberPc
  | .body => .body ctx
  | .single n => .waitForCounter ctx (.single n) (.tiny n) 0 .getValue
  | .queue q => .waitForCounter ctx (.queue q) (.queue q) 0 .getValue

/-- What follows `WaitForCounter`. -/
def Caller.afterWait (ctx : Ctx) : Caller → FiberPc
  | .body | .single _ => .body ctx
  | .queue q => .queueStep ctx q

/-- What follows the delegate in `JobInfo::Execute`. -/
def JobInfo.afterDelegate (job : JobInfo) : FiberPc :=
  match job.counter with
  | none => .loop
  | some c => .begin .execute c

namespace CounterUse

/-- The call `x` begins; `current` is `tls->_currentFiberIndex`. -/
def action (x current : ℕ) : CounterUse → CounterAction ℕ
  | .scheduleJob .. => .beginModify x (.increment 1)
  | .waitForCounter _ _ targetValue fiberStored =>
      .beginAddWaiting x ⟨current, targetValue, fiberStored⟩
  | .modify _ op => .beginModify x op
  | .execute => .beginModify x (.decrement 1)

/-- What follows the call. -/
def after (c : CtrId) (result : CounterCall) : CounterUse → FiberPc
  | .scheduleJob ctx caller prio job => .enqueue ctx caller prio job
  | .waitForCounter ctx caller targetValue fiberStored =>
      match result with
      | .addWaiting _ (.returned true) =>
          .waitForCounter ctx caller c targetValue (.deleteStored fiberStored)
      | .addWaiting _ (.returned false) =>
          .waitForCounter ctx caller c targetValue (.setPrevious fiberStored)
      | _ => .threw ctx caller
  | .modify ctx _ => .body ctx
  | .execute => .loop

end CounterUse

/-- The load of a flag. The load of a deleted one may return anything. -/
def ManagerState.loadStored (s : ManagerState) (p : FlagPtr) (choice : Choice) : Bool :=
  match s.flags p with
  | some stored => stored
  | none => choice == .succeed

/-- A `dequeue` into the local variable `job`: it may fail although the queue is not empty. -/
def ManagerState.dequeue (s : ManagerState) (prio : JobPriority) (choice : Choice)
    (failed : FiberPc) : Act × FiberPc :=
  match s.jobs prio, choice with
  | job :: _, .succeed => (.dequeue prio, .execute job)
  | _, _ => (.none, failed)

/-- One step of `CleanupPreviousFiber(tls)`. -/
def CleanupPc.next (s : ManagerState) (tls : ℕ) (caller : CleanupCaller) :
    CleanupPc → Act × FiberPc
  | .destination =>
      match (s.tls tls).previousFiberDestination with
      | .none => (.none, caller.after)
      | .pool => (.none, .cleanup .storeIdle caller)
      | .waiting => (.none, .cleanup .storeStored caller)
  | .storeIdle => (.storeIdle tls, .cleanup .cleanup caller)
  | .storeStored => (.storeStored tls, .cleanup .cleanup caller)
  | .cleanup => (.writeTls tls .cleanup, caller.after)

/-- One step of `GetNextJob(job, tls)`. -/
def NextJobPc.next (opts : ManagerOptions) (s : ManagerState) (tls : ℕ) (choice : Choice) :
    NextJobPc → Act × FiberPc
  | .isIo => (.none, .getNextJob (if opts.isIo tls then .dequeueIo else .dequeueHigh))
  | .dequeueIo => s.dequeue .io choice .sleepFor
  | .dequeueHigh => s.dequeue .high choice (.getNextJob (.readyFiber 0))
  | .readyFiber k =>
      match (s.tls tls).readyFibers[k]? with
      | none => (.none, .getNextJob .dequeueNormal)
      | some (fiberIndex, fiberStored) =>
          if s.loadStored fiberStored choice then (.none, .getNextJob (.erase k fiberIndex))
          else (.none, .getNextJob (.readyFiber (k + 1)))
  | .erase k fiberIndex => (.erase tls k, .getNextJob (.setPrevious fiberIndex))
  | .setPrevious fiberIndex =>
      (.writeTls tls (.previousFiberIndex (s.tls tls).currentFiberIndex),
        .getNextJob (.setDestination fiberIndex))
  | .setDestination fiberIndex =>
      (.writeTls tls (.previousFiberDestination .pool), .getNextJob (.setCurrent fiberIndex))
  | .setCurrent fiberIndex =>
      (.writeTls tls (.currentFiberIndex fiberIndex), .getNextJob (.switchTo fiberIndex))
  | .switchTo fiberIndex => (.switchTo tls fiberIndex, .getNextJob .parked)
  | .parked => (.none, .cleanup .destination .getNextJob)
  | .dequeueNormal => s.dequeue .normal choice (.getNextJob .dequeueLow)
  | .dequeueLow => s.dequeue .low choice .sleepFor

/-- One step of `WaitForCounter(counter, targetValue)`. -/
def WaitPc.next (opts : ManagerOptions) (s : ManagerState) (tls : ℕ) (choice : Choice) (ctx : Ctx)
    (caller : Caller) (ctr : CtrId) (targetValue : CounterUnit) : WaitPc → Option (Act × FiberPc)
  | .getValue =>
      if (s.counters ctr).ctr.counter = targetValue then some (.none, .waited ctx caller)
      else some (.none, .waitForCounter ctx caller ctr targetValue .newStored)
  | .newStored =>
      match choice with
      | .address p =>
          if p ≠ 0 ∧ s.flags p = none then
            some (.newStored p, .begin (.waitForCounter ctx caller targetValue p) ctr)
          else none
      | _ => none
  | .deleteStored p => some (.deleteStored p, .waited ctx caller)
  | .setPrevious p =>
      some (.writeTls tls (.previousFiberIndex (s.tls tls).currentFiberIndex),
        .waitForCounter ctx caller ctr targetValue (.setDestination p))
  | .setDestination p =>
      some (.writeTls tls (.previousFiberDestination .waiting),
        .waitForCounter ctx caller ctr targetValue (.setStored p))
  | .setStored p =>
      some (.writeTls tls (.previousFiberStored p),
        .waitForCounter ctx caller ctr targetValue (.findFree p (.loadRelaxed 0)))
  | .findFree p pc =>
      match pc.next opts.numFibers s.idleFibers (choice == .succeed) with
      | .inl pc' => some (.none, .waitForCounter ctx caller ctr targetValue (.findFree p pc'))
      | .inr f => some (.takeIdle f, .waitForCounter ctx caller ctr targetValue (.setCurrent p f))
  | .setCurrent p f =>
      some (.writeTls tls (.currentFiberIndex f),
        .waitForCounter ctx caller ctr targetValue (.switchTo p f))
  | .switchTo p f =>
      some (.switchTo tls f, .waitForCounter ctx caller ctr targetValue (.parked p))
  | .parked _ => some (.none, .cleanup .destination (.waitForCounter ctx caller))

/-- The next call of the main callback or a delegate. A `Queue` has no synchronisation of its own:
nobody uses one while its `Execute` is in progress. -/
def BodyOp.next (s : ManagerState) (ctx : Ctx) : BodyOp → Option (Act × FiberPc)
  | .scheduleJob prio delegate ctr =>
      some (.none, .scheduleJob ctx .body prio ⟨delegate, ctr.map .user⟩)
  | .waitForCounter none _ => some (.none, .body ctx)
  | .waitForCounter (some n) targetValue =>
      some (.none, .waitForCounter ctx .body (.user n) targetValue .getValue)
  | .waitForSingle prio delegate n =>
      if s.singles n = .notStarted then
        some (.beginSingle n ⟨delegate, some (.tiny n)⟩,
          .scheduleJob ctx (.single n) prio ⟨delegate, some (.tiny n)⟩)
      else none
  | .modify n op => some (.none, .begin (.modify ctx op) (.user n))
  | .addJob q prio delegate =>
      if s.executing q then none
      else some (.addJob q prio ⟨delegate, some (.queue q)⟩, .body ctx)
  | .execute q => if s.executing q then none else some (.enterExecute q, .queueStep ctx q)
  | .shutdown => some (.shutdown, .body ctx)
  | .finish =>
      match ctx with
      | .main => some (.none, .mainReturned)
      | .job job => some (.finishDelegate job, job.afterDelegate)

/-- One step of fiber `f` on thread `t`, with its local variable `tls`. -/
def FiberPc.next (opts : ManagerOptions) (s : ManagerState) (f tls : ℕ) (choice : Choice) :
    FiberPc → Option (Act × FiberPc)
  | .start =>
      if s.mainCallback f then some (.none, .body .main)
      else some (.none, .cleanup .destination .worker)
  | .cleanup pc caller => some (pc.next s tls caller)
  | .loop => some (.none, if s.shuttingDown then .switchBack else .getNextJob .isIo)
  | .getNextJob pc => some (pc.next opts s tls choice)
  | .sleepFor => some (.none, .loop)
  | .execute job =>
      match job.delegate with
      | none => some (.none, job.afterDelegate)
      | some _ => some (.callDelegate job, .body (.job job))
  | .body ctx =>
      match choice with
      | .op op => op.next s ctx
      | _ => none
  | .begin use ctr =>
      match choice with
      | .call x =>
          if (s.counters ctr).calls x = .notStarted then
            some (.counter ctr (use.action x (s.tls tls).currentFiberIndex), .call use ctr x)
          else none
      | _ => none
  | .call use ctr x =>
      if ((s.counters ctr).calls x).inProgress then some (.counter ctr (.step x), .call use ctr x)
      else some (.none, use.after ctr ((s.counters ctr).calls x))
  | .enqueue ctx caller prio job =>
      if choice = .fail then some (.none, .threw ctx caller)
      else some (.enqueue prio job, caller.afterSchedule ctx)
  | .threw ctx caller => some (.throwThrough caller, .body ctx)
  | .waitForCounter ctx caller ctr targetValue pc =>
      pc.next opts s tls choice ctx caller ctr targetValue
  | .waited ctx caller => some (.endWait caller, caller.afterWait ctx)
  | .queueStep ctx q =>
      match s.queues q with
      | [] => some (.leaveExecute q, .body ctx)
      | (prio, job) :: _ => some (.none, .scheduleJob ctx (.queue q) prio job)
  | .mainReturned =>
      if opts.shutdownAfterMainCallback then some (.shutdown, .switchBack)
      else some (.none, .mainFindFree (.loadRelaxed 0))
  | .mainFindFree pc =>
      match pc.next opts.numFibers s.idleFibers (choice == .succeed) with
      | .inl pc' => some (.none, .mainFindFree pc')
      | .inr g => some (.takeIdle g, .mainSetCurrent g)
  | .mainSetCurrent g => some (.writeTls tls (.currentFiberIndex g), .mainSwitchTo g)
  | .mainSwitchTo g => some (.switchTo tls g, .mainParked)
  | .mainParked => some (.none, .switchBack)
  | .switchBack => some (.switchBack, .ended)
  | .ended => none

/-- The program points at which the fiber calls `GetCurrentTLS`. -/
def FiberPc.getsCurrentTLS : FiberPc → Bool
  | .start | .loop | .mainReturned | .waitForCounter _ _ _ _ .getValue
  | .waitForCounter _ _ _ _ (.parked _) => true
  | _ => false

/-- The local variable `tls` of a fiber in its next step on thread `t`. -/
def FiberState.currentTLS (fiber : FiberState) (t : ℕ) : ℕ :=
  if fiber.pc.getsCurrentTLS then t else fiber.tls

/-- One step of a thread's own code. -/
def ThreadPc.next (opts : ManagerOptions) (s : ManagerState) (t : ℕ) (choice : Choice) :
    ThreadPc → Option (Act × ThreadPc)
  | .findFree pc =>
      match pc.next opts.numFibers s.idleFibers (choice == .succeed) with
      | .inl pc' => some (.none, .findFree pc')
      | .inr f => some (.takeIdle f, .setCurrent f)
  | .setCurrent f =>
      some (.writeTls t (.currentFiberIndex f), if t = 0 then .setCallback f else .switchTo f)
  | .setCallback f => some (.setCallback f, .switchTo f)
  | .switchTo f => some (.switchTo t f, .inFiber)
  | .inFiber | .returned => none

end NomadTasks
