import NomadTasks.Manager.System

/-!
# The steps of a fiber, as a relation

`FiberStep` lists the steps of `FiberPc.next`, one constructor for each thing that a step can do,
with the tests it has passed. `fiberStep_of_next` says that there are no others.
-/

namespace NomadTasks

/-- `FiberStep opts s f tls pc act pc'`: fiber `f`, with its local variable `tls`, takes a step from
`pc` to `pc'` in the state `s`, and does `act`. -/
inductive FiberStep (opts : ManagerOptions) (s : ManagerState) (f tls : ℕ) :
    FiberPc → Act → FiberPc → Prop
  | startMain (hcb : s.mainCallback f = true) : FiberStep opts s f tls .start .none (.body .main)
  | startWorker (hcb : s.mainCallback f = false) :
      FiberStep opts s f tls .start .none (.cleanup .destination .worker)
  -- `CleanupPreviousFiber`
  | nothingWorker (hd : (s.tls tls).previousFiberDestination = .none) :
      FiberStep opts s f tls (.cleanup .destination .worker) .none .loop
  | nothingNext (hd : (s.tls tls).previousFiberDestination = .none) :
      FiberStep opts s f tls (.cleanup .destination .getNextJob) .none (.getNextJob .dequeueNormal)
  | nothingWait {ctx caller} (hd : (s.tls tls).previousFiberDestination = .none) :
      FiberStep opts s f tls (.cleanup .destination (.waitForCounter ctx caller)) .none
        (.waited ctx caller)
  | previousPool {k} (hd : (s.tls tls).previousFiberDestination = .pool) :
      FiberStep opts s f tls (.cleanup .destination k) .none (.cleanup .storeIdle k)
  | previousWaiting {k} (hd : (s.tls tls).previousFiberDestination = .waiting) :
      FiberStep opts s f tls (.cleanup .destination k) .none (.cleanup .storeStored k)
  | storeIdle {k} :
      FiberStep opts s f tls (.cleanup .storeIdle k) (.storeIdle tls) (.cleanup .cleanup k)
  | storeStored {k} :
      FiberStep opts s f tls (.cleanup .storeStored k) (.storeStored tls) (.cleanup .cleanup k)
  | cleanupWorker :
      FiberStep opts s f tls (.cleanup .cleanup .worker) (.writeTls tls .cleanup) .loop
  | cleanupNext :
      FiberStep opts s f tls (.cleanup .cleanup .getNextJob) (.writeTls tls .cleanup)
        (.getNextJob .dequeueNormal)
  | cleanupWait {ctx caller} :
      FiberStep opts s f tls (.cleanup .cleanup (.waitForCounter ctx caller))
        (.writeTls tls .cleanup) (.waited ctx caller)
  -- `FiberCallback_Worker`
  | loopStop (hs : s.shuttingDown = true) : FiberStep opts s f tls .loop .none .switchBack
  | loopGo (hs : s.shuttingDown = false) :
      FiberStep opts s f tls .loop .none (.getNextJob .isIo)
  | sleepFor : FiberStep opts s f tls .sleepFor .none .loop
  | switchBack : FiberStep opts s f tls .switchBack .switchBack .ended
  -- `GetNextJob`
  | isIo (hio : opts.isIo tls = true) :
      FiberStep opts s f tls (.getNextJob .isIo) .none (.getNextJob .dequeueIo)
  | isNotIo (hio : opts.isIo tls = false) :
      FiberStep opts s f tls (.getNextJob .isIo) .none (.getNextJob .dequeueHigh)
  | dequeueIo {job rest} (hj : s.jobs .io = job :: rest) :
      FiberStep opts s f tls (.getNextJob .dequeueIo) (.dequeue .io) (.execute job)
  | dequeueHigh {job rest} (hj : s.jobs .high = job :: rest) :
      FiberStep opts s f tls (.getNextJob .dequeueHigh) (.dequeue .high) (.execute job)
  | dequeueNormal {job rest} (hj : s.jobs .normal = job :: rest) :
      FiberStep opts s f tls (.getNextJob .dequeueNormal) (.dequeue .normal) (.execute job)
  | dequeueLow {job rest} (hj : s.jobs .low = job :: rest) :
      FiberStep opts s f tls (.getNextJob .dequeueLow) (.dequeue .low) (.execute job)
  | noIo : FiberStep opts s f tls (.getNextJob .dequeueIo) .none .sleepFor
  | noHigh : FiberStep opts s f tls (.getNextJob .dequeueHigh) .none (.getNextJob (.readyFiber 0))
  | noNormal : FiberStep opts s f tls (.getNextJob .dequeueNormal) .none (.getNextJob .dequeueLow)
  | noLow : FiberStep opts s f tls (.getNextJob .dequeueLow) .none .sleepFor
  | readyEnd {k} (hk : (s.tls tls).readyFibers[k]? = none) :
      FiberStep opts s f tls (.getNextJob (.readyFiber k)) .none (.getNextJob .dequeueNormal)
  | readySkip {k g p} (hk : (s.tls tls).readyFibers[k]? = some (g, p))
      (hp : s.flags p ≠ some true) :
      FiberStep opts s f tls (.getNextJob (.readyFiber k)) .none (.getNextJob (.readyFiber (k + 1)))
  | readyTake {k g p} (hk : (s.tls tls).readyFibers[k]? = some (g, p))
      (hp : s.flags p ≠ some false) :
      FiberStep opts s f tls (.getNextJob (.readyFiber k)) .none (.getNextJob (.erase k g))
  | erase {k g} :
      FiberStep opts s f tls (.getNextJob (.erase k g)) (.erase tls k)
        (.getNextJob (.setPrevious g))
  | nextSetPrevious {g} :
      FiberStep opts s f tls (.getNextJob (.setPrevious g))
        (.writeTls tls (.previousFiberIndex (s.tls tls).currentFiberIndex))
        (.getNextJob (.setDestination g))
  | nextSetDestination {g} :
      FiberStep opts s f tls (.getNextJob (.setDestination g))
        (.writeTls tls (.previousFiberDestination .pool)) (.getNextJob (.setCurrent g))
  | nextSetCurrent {g} :
      FiberStep opts s f tls (.getNextJob (.setCurrent g)) (.writeTls tls (.currentFiberIndex g))
        (.getNextJob (.switchTo g))
  | nextSwitchTo {g} :
      FiberStep opts s f tls (.getNextJob (.switchTo g)) (.switchTo tls g) (.getNextJob .parked)
  | nextResumed :
      FiberStep opts s f tls (.getNextJob .parked) .none (.cleanup .destination .getNextJob)
  -- `JobInfo::Execute`
  | executeNull {job : JobInfo} (hd : job.delegate = none) (hc : job.counter = none) :
      FiberStep opts s f tls (.execute job) .none .loop
  | executeNullDecrement {job : JobInfo} {c} (hd : job.delegate = none)
      (hc : job.counter = some c) : FiberStep opts s f tls (.execute job) .none (.begin .execute c)
  | execute {job : JobInfo} {d} (hd : job.delegate = some d) :
      FiberStep opts s f tls (.execute job) (.callDelegate job) (.body (.job job))
  -- the main callback or a delegate
  | opSchedule {ctx prio delegate} :
      FiberStep opts s f tls (.body ctx) .none (.enqueue ctx .body prio ⟨delegate, none⟩)
  | opScheduleCounter {ctx prio delegate n} :
      FiberStep opts s f tls (.body ctx) .none
        (.begin (.scheduleJob ctx .body prio ⟨delegate, some (.user n)⟩) (.user n))
  | opWaitNull {ctx} : FiberStep opts s f tls (.body ctx) .none (.body ctx)
  | opWait {ctx n v} :
      FiberStep opts s f tls (.body ctx) .none (.waitForCounter ctx .body (.user n) v .getValue)
  | opSingle {ctx prio delegate n} (hn : s.singles n = .notStarted) :
      FiberStep opts s f tls (.body ctx) (.beginSingle n ⟨delegate, some (.tiny n)⟩)
        (.begin (.scheduleJob ctx (.single n) prio ⟨delegate, some (.tiny n)⟩) (.tiny n))
  | opModify {ctx n op} :
      FiberStep opts s f tls (.body ctx) .none (.begin (.modify ctx op) (.user n))
  | opAddJob {ctx q prio delegate} (hq : s.executing q = false) :
      FiberStep opts s f tls (.body ctx) (.addJob q prio ⟨delegate, some (.queue q)⟩) (.body ctx)
  | opExecute {ctx q} (hq : s.executing q = false) :
      FiberStep opts s f tls (.body ctx) (.enterExecute q) (.queueStep ctx q)
  | opShutdown {ctx} : FiberStep opts s f tls (.body ctx) .shutdown (.body ctx)
  | opFinishMain : FiberStep opts s f tls (.body .main) .none .mainReturned
  | opFinishJob {job : JobInfo} (hc : job.counter = none) :
      FiberStep opts s f tls (.body (.job job)) (.finishDelegate job) .loop
  | opFinishDecrement {job : JobInfo} {c} (hc : job.counter = some c) :
      FiberStep opts s f tls (.body (.job job)) (.finishDelegate job) (.begin .execute c)
  -- calls on counters
  | begin {use c x} (hx : (s.counters c).calls x = .notStarted) :
      FiberStep opts s f tls (.begin use c)
        (.counter c (use.action x (s.tls tls).currentFiberIndex)) (.call use c x)
  | call {use c x} (hx : ((s.counters c).calls x).inProgress = true) :
      FiberStep opts s f tls (.call use c x) (.counter c (.step x)) (.call use c x)
  | incremented {ctx caller prio job c x} (hx : ((s.counters c).calls x).inProgress = false) :
      FiberStep opts s f tls (.call (.scheduleJob ctx caller prio job) c x) .none
        (.enqueue ctx caller prio job)
  | addReached {ctx caller v p c x reg}
      (hx : (s.counters c).calls x = .addWaiting reg (.returned true)) :
      FiberStep opts s f tls (.call (.waitForCounter ctx caller v p) c x) .none
        (.waitForCounter ctx caller c v (.deleteStored p))
  | addWaits {ctx caller v p c x reg}
      (hx : (s.counters c).calls x = .addWaiting reg (.returned false)) :
      FiberStep opts s f tls (.call (.waitForCounter ctx caller v p) c x) .none
        (.waitForCounter ctx caller c v (.setPrevious p))
  | addThrew {ctx caller v p c x} (hx : ((s.counters c).calls x).inProgress = false)
      (hr : ∀ reg r, (s.counters c).calls x ≠ .addWaiting reg (.returned r)) :
      FiberStep opts s f tls (.call (.waitForCounter ctx caller v p) c x) .none (.threw ctx caller)
  | modified {ctx op c x} (hx : ((s.counters c).calls x).inProgress = false) :
      FiberStep opts s f tls (.call (.modify ctx op) c x) .none (.body ctx)
  | decremented {c x} (hx : ((s.counters c).calls x).inProgress = false) :
      FiberStep opts s f tls (.call .execute c x) .none .loop
  -- `ScheduleJob`
  | enqueueFail {ctx caller prio job} :
      FiberStep opts s f tls (.enqueue ctx caller prio job) .none (.threw ctx caller)
  | enqueue {ctx prio job} :
      FiberStep opts s f tls (.enqueue ctx .body prio job) (.enqueue prio job) (.body ctx)
  | enqueueSingle {ctx n prio job} :
      FiberStep opts s f tls (.enqueue ctx (.single n) prio job) (.enqueue prio job)
        (.waitForCounter ctx (.single n) (.tiny n) 0 .getValue)
  | enqueueQueue {ctx q prio job} :
      FiberStep opts s f tls (.enqueue ctx (.queue q) prio job) (.enqueue prio job)
        (.waitForCounter ctx (.queue q) (.queue q) 0 .getValue)
  | threw {ctx caller} :
      FiberStep opts s f tls (.threw ctx caller) (.throwThrough caller) (.body ctx)
  -- `WaitForCounter`
  | waitReached {ctx caller c v} (hv : (s.counters c).ctr.counter = v) :
      FiberStep opts s f tls (.waitForCounter ctx caller c v .getValue) .none (.waited ctx caller)
  | waitNotReached {ctx caller c v} (hv : (s.counters c).ctr.counter ≠ v) :
      FiberStep opts s f tls (.waitForCounter ctx caller c v .getValue) .none
        (.waitForCounter ctx caller c v .newStored)
  | newStored {ctx caller c v p} (h0 : p ≠ 0) (hp : s.flags p = none) :
      FiberStep opts s f tls (.waitForCounter ctx caller c v .newStored) (.newStored p)
        (.begin (.waitForCounter ctx caller v p) c)
  | deleteStored {ctx caller c v p} :
      FiberStep opts s f tls (.waitForCounter ctx caller c v (.deleteStored p)) (.deleteStored p)
        (.waited ctx caller)
  | waitSetPrevious {ctx caller c v p} :
      FiberStep opts s f tls (.waitForCounter ctx caller c v (.setPrevious p))
        (.writeTls tls (.previousFiberIndex (s.tls tls).currentFiberIndex))
        (.waitForCounter ctx caller c v (.setDestination p))
  | waitSetDestination {ctx caller c v p} :
      FiberStep opts s f tls (.waitForCounter ctx caller c v (.setDestination p))
        (.writeTls tls (.previousFiberDestination .waiting))
        (.waitForCounter ctx caller c v (.setStored p))
  | waitSetStored {ctx caller c v p} :
      FiberStep opts s f tls (.waitForCounter ctx caller c v (.setStored p))
        (.writeTls tls (.previousFiberStored p))
        (.waitForCounter ctx caller c v (.findFree p (.loadRelaxed 0)))
  | waitSearch {ctx caller c v p pc pc'} :
      FiberStep opts s f tls (.waitForCounter ctx caller c v (.findFree p pc)) .none
        (.waitForCounter ctx caller c v (.findFree p pc'))
  | waitFound {ctx caller c v p pc g} (hg : s.idleFibers g = true) :
      FiberStep opts s f tls (.waitForCounter ctx caller c v (.findFree p pc)) (.takeIdle g)
        (.waitForCounter ctx caller c v (.setCurrent p g))
  | waitSetCurrent {ctx caller c v p g} :
      FiberStep opts s f tls (.waitForCounter ctx caller c v (.setCurrent p g))
        (.writeTls tls (.currentFiberIndex g)) (.waitForCounter ctx caller c v (.switchTo p g))
  | waitSwitchTo {ctx caller c v p g} :
      FiberStep opts s f tls (.waitForCounter ctx caller c v (.switchTo p g)) (.switchTo tls g)
        (.waitForCounter ctx caller c v (.parked p))
  | waitResumed {ctx caller c v p} :
      FiberStep opts s f tls (.waitForCounter ctx caller c v (.parked p)) .none
        (.cleanup .destination (.waitForCounter ctx caller))
  | waited {ctx} : FiberStep opts s f tls (.waited ctx .body) (.endWait .body) (.body ctx)
  | waitedSingle {ctx n} :
      FiberStep opts s f tls (.waited ctx (.single n)) (.endWait (.single n)) (.body ctx)
  | waitedQueue {ctx q} :
      FiberStep opts s f tls (.waited ctx (.queue q)) (.endWait (.queue q)) (.queueStep ctx q)
  -- `Queue::Step`
  | queueEmpty {ctx q} (hq : s.queues q = []) :
      FiberStep opts s f tls (.queueStep ctx q) (.leaveExecute q) (.body ctx)
  | queueFrontPlain {ctx q prio rest} {job : JobInfo} (hq : s.queues q = (prio, job) :: rest)
      (hc : job.counter = none) :
      FiberStep opts s f tls (.queueStep ctx q) .none (.enqueue ctx (.queue q) prio job)
  | queueFront {ctx q prio rest c} {job : JobInfo} (hq : s.queues q = (prio, job) :: rest)
      (hc : job.counter = some c) :
      FiberStep opts s f tls (.queueStep ctx q) .none
        (.begin (.scheduleJob ctx (.queue q) prio job) c)
  -- `FiberCallback_Main`
  | mainShutdown (ho : opts.shutdownAfterMainCallback = true) :
      FiberStep opts s f tls .mainReturned .shutdown .switchBack
  | mainStay (ho : opts.shutdownAfterMainCallback = false) :
      FiberStep opts s f tls .mainReturned .none (.mainFindFree (.loadRelaxed 0))
  | mainSearch {pc pc'} : FiberStep opts s f tls (.mainFindFree pc) .none (.mainFindFree pc')
  | mainFound {pc g} (hg : s.idleFibers g = true) :
      FiberStep opts s f tls (.mainFindFree pc) (.takeIdle g) (.mainSetCurrent g)
  | mainSetCurrent {g} :
      FiberStep opts s f tls (.mainSetCurrent g) (.writeTls tls (.currentFiberIndex g))
        (.mainSwitchTo g)
  | mainSwitchTo {g} : FiberStep opts s f tls (.mainSwitchTo g) (.switchTo tls g) .mainParked
  | mainResumed : FiberStep opts s f tls .mainParked .none .switchBack

/-- `FindFreeFiber` takes idle fibers only. -/
theorem FindPc.next_inr {numFibers g : ℕ} {idleFibers : ℕ → Bool} {exchanged : Bool} {pc : FindPc}
    (h : pc.next numFibers idleFibers exchanged = .inr g) : idleFibers g = true := by
  revert h
  fun_cases FindPc.next numFibers idleFibers exchanged pc <;> rintro ⟨⟩
  simp_all

section OfNext

variable {opts : ManagerOptions} {s : ManagerState} {f tls : ℕ} {choice : Choice} {act : Act}
  {pc' : FiberPc}

/-- A `dequeue` takes the first job, or fails. -/
private theorem dequeue_cases {prio : JobPriority} {failed : FiberPc}
    (h : s.dequeue prio choice failed = (act, pc')) :
    (∃ job rest, s.jobs prio = job :: rest ∧ act = .dequeue prio ∧ pc' = .execute job) ∨
      (act = .none ∧ pc' = failed) := by
  revert h
  fun_cases ManagerState.dequeue s prio choice failed <;> simp_all

private theorem cleanup_of_next {pc : CleanupPc} {k : CleanupCaller}
    (h : pc.next s tls k = (act, pc')) : FiberStep opts s f tls (.cleanup pc k) act pc' := by
  revert h
  fun_cases CleanupPc.next s tls k pc <;> rintro ⟨⟩
  case case1 hd =>
    cases k with
    | worker => exact .nothingWorker hd
    | getNextJob => exact .nothingNext hd
    | waitForCounter => exact .nothingWait hd
  case case2 hd => exact .previousPool hd
  case case3 hd => exact .previousWaiting hd
  case case4 => exact .storeIdle
  case case5 => exact .storeStored
  case case6 =>
    cases k with
    | worker => exact .cleanupWorker
    | getNextJob => exact .cleanupNext
    | waitForCounter => exact .cleanupWait

private theorem getNextJob_of_next {pc : NextJobPc} (h : pc.next opts s tls choice = (act, pc')) :
    FiberStep opts s f tls (.getNextJob pc) act pc' := by
  revert h
  fun_cases NextJobPc.next opts s tls choice pc <;> intro h
  case case1 =>
    cases hio : opts.isIo tls <;> simp only [hio] at h <;> cases h
    · exact .isNotIo hio
    · exact .isIo hio
  case case2 =>
    rcases dequeue_cases h with ⟨job, rest, hj, rfl, rfl⟩ | ⟨rfl, rfl⟩
    · exact .dequeueIo hj
    · exact .noIo
  case case3 =>
    rcases dequeue_cases h with ⟨job, rest, hj, rfl, rfl⟩ | ⟨rfl, rfl⟩
    · exact .dequeueHigh hj
    · exact .noHigh
  case case4 hk => cases h; exact .readyEnd hk
  case case5 k g p hk hload =>
    cases h
    exact .readyTake hk fun hp => by simp [ManagerState.loadStored, hp] at hload
  case case6 k g p hk hload =>
    cases h
    exact .readySkip hk fun hp => by simp [ManagerState.loadStored, hp] at hload
  case case7 => cases h; exact .erase
  case case8 => cases h; exact .nextSetPrevious
  case case9 => cases h; exact .nextSetDestination
  case case10 => cases h; exact .nextSetCurrent
  case case11 => cases h; exact .nextSwitchTo
  case case12 => cases h; exact .nextResumed
  case case13 =>
    rcases dequeue_cases h with ⟨job, rest, hj, rfl, rfl⟩ | ⟨rfl, rfl⟩
    · exact .dequeueNormal hj
    · exact .noNormal
  case case14 =>
    rcases dequeue_cases h with ⟨job, rest, hj, rfl, rfl⟩ | ⟨rfl, rfl⟩
    · exact .dequeueLow hj
    · exact .noLow

private theorem wait_of_next {pc : WaitPc} {ctx : Ctx} {caller : Caller} {c : CtrId}
    {v : CounterUnit} (h : pc.next opts s tls choice ctx caller c v = some (act, pc')) :
    FiberStep opts s f tls (.waitForCounter ctx caller c v pc) act pc' := by
  revert h
  fun_cases WaitPc.next opts s tls choice ctx caller c v pc <;> rintro ⟨⟩
  case case1 hv => exact .waitReached hv
  case case2 hv => exact .waitNotReached hv
  case case3 hp => exact .newStored hp.1 hp.2
  case case6 => exact .deleteStored
  case case7 => exact .waitSetPrevious
  case case8 => exact .waitSetDestination
  case case9 => exact .waitSetStored
  case case10 => exact .waitSearch
  case case11 hn => exact .waitFound (FindPc.next_inr hn)
  case case12 => exact .waitSetCurrent
  case case13 => exact .waitSwitchTo
  case case14 => exact .waitResumed

private theorem body_of_next {ctx : Ctx} {op : BodyOp} (h : op.next s ctx = some (act, pc')) :
    FiberStep opts s f tls (.body ctx) act pc' := by
  revert h
  fun_cases BodyOp.next s ctx op <;> rintro ⟨⟩
  case case1 ctr =>
    cases ctr with
    | none => exact .opSchedule
    | some n => exact .opScheduleCounter
  case case2 => exact .opWaitNull
  case case3 => exact .opWait
  case case4 hn => exact .opSingle hn
  case case6 => exact .opModify
  case case8 hq => exact .opAddJob (by simpa using hq)
  case case10 hq => exact .opExecute (by simpa using hq)
  case case11 => exact .opShutdown
  case case12 => exact .opFinishMain
  case case13 job =>
    unfold JobInfo.afterDelegate
    cases hc : job.counter with
    | none => exact .opFinishJob hc
    | some c => exact .opFinishDecrement hc

/-- What follows a call on a counter that has ended. -/
private theorem after_of_next {use : CounterUse} {c : CtrId} {x : ℕ}
    (hx : ((s.counters c).calls x).inProgress = false) :
    FiberStep opts s f tls (.call use c x) .none (use.after c ((s.counters c).calls x)) := by
  cases use with
  | scheduleJob => exact .incremented hx
  | modify => exact .modified hx
  | execute => exact .decremented hx
  | waitForCounter ctx caller v p =>
    simp only [CounterUse.after]
    split
    case h_1 hr => exact .addReached hr
    case h_2 hr => exact .addWaits hr
    case h_3 htrue hfalse =>
      refine .addThrew hx fun reg r hr => ?_
      cases r with
      | true => exact htrue reg hr
      | false => exact hfalse reg hr

/-- Every step of a fiber is one of the list. -/
theorem fiberStep_of_next {pc : FiberPc} (h : pc.next opts s f tls choice = some (act, pc')) :
    FiberStep opts s f tls pc act pc' := by
  revert h
  fun_cases FiberPc.next opts s f tls choice pc <;> intro h
  case case3 => exact cleanup_of_next (Option.some.inj h)
  case case5 => exact getNextJob_of_next (Option.some.inj h)
  case case9 => exact body_of_next h
  case case19 => exact wait_of_next h
  case case4 =>
    cases hs : s.shuttingDown <;> simp only [hs] at h <;> cases h
    · exact .loopGo hs
    · exact .loopStop hs
  all_goals cases h
  case case1 hcb => exact .startMain hcb
  case case2 hcb => exact .startWorker (by simpa using hcb)
  case case6 => exact .sleepFor
  case case7 job hd =>
    unfold JobInfo.afterDelegate
    cases hc : job.counter with
    | none => exact .executeNull hd hc
    | some c => exact .executeNullDecrement hd hc
  case case8 hd => exact .execute hd
  case case11 hx => exact .begin hx
  case case14 hx => exact .call hx
  case case15 hx => exact after_of_next (by simpa using hx)
  case case16 => exact .enqueueFail
  case case17 caller _ _ _ =>
    cases caller with
    | body => exact .enqueue
    | single => exact .enqueueSingle
    | queue => exact .enqueueQueue
  case case18 => exact .threw
  case case20 caller =>
    cases caller with
    | body => exact .waited
    | single => exact .waitedSingle
    | queue => exact .waitedQueue
  case case21 hq => exact .queueEmpty hq
  case case22 job _ hq =>
    unfold FiberPc.scheduleJob
    cases hc : job.counter with
    | none => exact .queueFrontPlain hq hc
    | some c => exact .queueFront hq hc
  case case23 ho => exact .mainShutdown ho
  case case24 ho => exact .mainStay (by simpa using ho)
  case case25 => exact .mainSearch
  case case26 hn => exact .mainFound (FindPc.next_inr hn)
  case case27 => exact .mainSetCurrent
  case case28 => exact .mainSwitchTo
  case case29 => exact .mainResumed
  case case30 => exact .switchBack

end OfNext

/-- `ThreadStep opts s t pc act pc'`: the own code of thread `t` takes a step from `pc` to `pc'` in
the state `s`, and does `act`. -/
inductive ThreadStep (s : ManagerState) (t : ℕ) : ThreadPc → Act → ThreadPc → Prop
  | search {pc pc'} : ThreadStep s t (.findFree pc) .none (.findFree pc')
  | found {pc g} (hg : s.idleFibers g = true) :
      ThreadStep s t (.findFree pc) (.takeIdle g) (.setCurrent g)
  | setCurrentMain {g} (ht : t = 0) :
      ThreadStep s t (.setCurrent g) (.writeTls t (.currentFiberIndex g)) (.setCallback g)
  | setCurrentWorker {g} (ht : t ≠ 0) :
      ThreadStep s t (.setCurrent g) (.writeTls t (.currentFiberIndex g)) (.switchTo g)
  | setCallback {g} : ThreadStep s t (.setCallback g) (.setCallback g) (.switchTo g)
  | switchTo {g} : ThreadStep s t (.switchTo g) (.switchTo t g) .inFiber

/-- Every step of a thread's own code is one of the list. -/
theorem threadStep_of_next {opts : ManagerOptions} {s : ManagerState} {t : ℕ} {choice : Choice}
    {act : Act} {pc pc' : ThreadPc} (h : pc.next opts s t choice = some (act, pc')) :
    ThreadStep s t pc act pc' := by
  revert h
  fun_cases ThreadPc.next opts s t choice pc <;> intro h
  case case3 =>
    by_cases ht : t = 0
    · rw [if_pos ht] at h
      cases h
      exact .setCurrentMain ht
    · rw [if_neg ht] at h
      cases h
      exact .setCurrentWorker ht
  all_goals cases h
  case case1 => exact .search
  case case2 hn => exact .found (FindPc.next_inr hn)
  case case4 => exact .setCallback
  case case5 => exact .switchTo

/-- What a step of the manager is, by the lists of the steps. -/
theorem managerStep_inv {opts : ManagerOptions} {s s' : ManagerState} {a : ManagerAction}
    (h : managerStep opts s a = some s') :
    (∃ f pc act pc', s.running a.thread = some f ∧ (s.fibers f).pc = pc ∧
      FiberStep opts s f ((s.fibers f).currentTLS a.thread) pc act pc' ∧
      s' = (s.apply a.thread f act).setFiber f ⟨(s.fibers f).currentTLS a.thread, pc'⟩) ∨
    ∃ pc act pc', s.running a.thread = none ∧ s.threads a.thread = pc ∧
      ThreadStep s a.thread pc act pc' ∧
      s' = (s.apply a.thread noFiber act).setThread a.thread pc' := by
  rcases managerStep_cases h with ⟨f, act, pc', hrun, hn, rfl⟩ | ⟨act, pc', hrun, hn, rfl⟩
  · exact .inl ⟨f, _, act, pc', hrun, rfl, fiberStep_of_next hn, rfl⟩
  · exact .inr ⟨_, act, pc', hrun, rfl, threadStep_of_next hn, rfl⟩

end NomadTasks
