import Mathlib.Data.BitVec
import Mathlib.Logic.Function.Basic
import Mathlib.Tactic.Common
import NomadTasks.Transition.System

/-!
# Spawning threads and finding their `TLS`

`Thread::Spawn` has the system create a thread that starts in `LaunchThread`, and `CreateThread`
stores the identifier of the new thread in `_id`. Code finds its `TLS` by comparing the identifier
of the thread that it runs on with every `_id`. The new thread may start before its identifier is
stored, so `LaunchThread` calls `WaitForReady` first. `_threadIndex` is not a member here: the
assertion of `SetupThread` is read as saying that the `TLS` found is that of `_threads[idx]`.

* `ThreadObject`: a `Thread`.
* `SpawnState`: the `Thread`s of a manager, and the threads of the system.
* `spawnSystem`: any calls of `Spawn`, `SetupThread` and `GetCurrentTLS` on any threads, under any
  interleaving.
-/

namespace NomadTasks

open Transition

/-! ## Data -/

/-- The identifier of a thread of the system, a `uint32_t`. -/
abbrev ThreadId := BitVec 32

/-- `UINT32_MAX`, which is not the identifier of a thread. -/
def noThreadId : ThreadId := BitVec.allOnes 32

/-- What a `_handle` denotes. -/
inductive OsHandle
  /-- A thread that `CreateThread` has made. -/
  | thread (k : ℕ)
  /-- What `GetCurrentThread()` returns: the thread that uses it. -/
  | current
  deriving DecidableEq

/-- A `Thread`; what it stores besides is in its `TLS`. Callbacks and user data are known by names.
-/
structure ThreadObject where
  handle : Option OsHandle := none
  id : ThreadId := noThreadId
  callback : Option ℕ := none
  userdata : ℕ := 0
  /-- The thread that has locked `_startupIdMutex`. -/
  startupIdMutex : Option ℕ := none

/-- `HasSpawned()`. -/
def ThreadObject.hasSpawned (t : ThreadObject) : Bool := t.id != noThreadId

/-- The program points of `Spawn`. -/
inductive SpawnPc
  | setHandle
  | setId
  | setCallback
  | setUserdata
  | lock
  | createThread
  /-- `CreateThread` has made thread `k`, and has yet to store its identifier in `_id`. -/
  | storeId (k : ℕ)
  /-- `_handle = CreateThread(…)`. -/
  | storeHandle (k : Option ℕ)
  | unlock
  | notifyAll
  /-- `return HasSpawned()`. -/
  | hasSpawned
  deriving DecidableEq

/-- The program points of `LaunchThread`; `callback` is what `GetCallback` has returned. -/
inductive LaunchPc
  | getCallback
  /-- `WaitForReady` locks `_startupIdMutex`. -/
  | lock (callback : ℕ)
  | readId (callback : ℕ)
  | unlock (callback : ℕ) (ready : Bool)
  /-- `_cvReceivedId.wait(lock)`, with a mutex of its own. -/
  | beginWait (callback : ℕ)
  /-- Inside `wait`. -/
  | wait (callback : ℕ)
  /-- `callback(thread)`. -/
  | call (callback : ℕ)
  deriving DecidableEq

/-- The program points of `FromCurrentThread`, and the check before it in `SetupThread`. -/
inductive SetupPc
  | hasSpawned
  | setHandle
  | setId
  deriving DecidableEq

/-- Who has called `GetCurrentTLS`. -/
inductive FindCaller
  | code
  /-- `SetupThread(i)`, before `FromCurrentThread`. -/
  | setup (i : ℕ)
  /-- `SetupThread(i)`, after `FromCurrentThread`. -/
  | setupAgain (i : ℕ)
  deriving DecidableEq

/-- The program points of a thread of the system. -/
inductive OsPc
  /-- There is no such thread yet. -/
  | absent
  /-- In the code of the program, or in a callback. -/
  | code
  /-- `GetCurrentTLS` is at `_threads[j]`. -/
  | find (caller : FindCaller) (j : ℕ)
  /-- `GetCurrentTLS` has returned the `TLS` of a `Thread`, or `nullptr`. -/
  | found (i : Option ℕ)
  | spawn (i : ℕ) (callback : Option ℕ) (userdata : ℕ) (pc : SpawnPc)
  | launch (i : ℕ) (pc : LaunchPc)
  /-- `SetupThread(i)`, or `FromCurrentThread` in `Run`, which does not check anything. -/
  | setup (i : ℕ) (checks : Bool) (pc : SetupPc)
  /-- `LaunchThread` has thrown an exception. -/
  | threw
  /-- `SetupThread` has gone on with the wrong `TLS`, or with `nullptr`. -/
  | failed
  | ended
  deriving DecidableEq

/-- The thread is there. -/
def OsPc.live : OsPc → Bool
  | .absent | .ended => false
  | _ => true

/-- Who has to do with a `Thread`. -/
inductive ThreadUse
  | unused
  /-- Thread `u` has called `Spawn` or `SetupThread`. -/
  | claimed (u : ℕ)
  /-- Thread `u` has called `Spawn`, which has created thread `k`. -/
  | created (u k : ℕ)
  /-- It is the `Thread` of thread `k`. -/
  | taken (k : ℕ)
  deriving DecidableEq

namespace ThreadUse

/-- After thread `u` has called `Spawn` or `SetupThread`. -/
def claim (u : ℕ) : ThreadUse → ThreadUse
  | unused => claimed u
  | use => use

/-- After the call has done its work. -/
def release : ThreadUse → ThreadUse
  | claimed _ => unused
  | created _ k => taken k
  | use => use

end ThreadUse

/-- The `Thread`s of a manager, and the threads of the system. -/
structure SpawnState where
  thread : ℕ → ThreadObject
  pc : ℕ → OsPc
  /-- The threads that are there, by their identifiers. -/
  owner : ThreadId → Option ℕ
  /-- Auxiliary: the `Thread` that each thread is created for, or has been set up as. -/
  home : ℕ → Option ℕ
  /-- Auxiliary: the callback and the user data that `Spawn` has been called with for it. -/
  given : ℕ → Option (Option ℕ × ℕ)
  /-- Auxiliary. -/
  use : ℕ → ThreadUse

/-- What a step leaves open. -/
inductive SpawnChoice
  | step
  /-- The code calls `Spawn` on `_threads[i]`. -/
  | spawn (i : ℕ) (callback : Option ℕ) (userdata : ℕ)
  | setupThread (i : ℕ)
  /-- `Run` calls `FromCurrentThread` on `_threads[i]`. -/
  | fromCurrentThread (i : ℕ)
  | getCurrentTls
  /-- The code starts a thread that is none of the manager's. -/
  | startThread (k : ℕ)
  /-- `CreateThread` makes thread `k`. -/
  | created (k : ℕ)
  /-- `CreateThread` fails. -/
  | failed
  /-- `wait` returns without a notification. -/
  | spurious
  | exit
  deriving DecidableEq

/-- A step of a thread of the system. -/
structure SpawnAction where
  thread : ℕ
  choice : SpawnChoice
  deriving DecidableEq

/-! ## Steps -/

namespace SpawnState

/-- Move thread `u` to another program point. -/
@[simps]
def setPc (s : SpawnState) (u : ℕ) (pc : OsPc) : SpawnState :=
  { s with pc := Function.update s.pc u pc }

/-- Change `_threads[i]`. -/
@[simps]
def setThread (s : SpawnState) (i : ℕ) (t : ThreadObject) : SpawnState :=
  { s with thread := Function.update s.thread i t }

@[simps]
def setUse (s : SpawnState) (i : ℕ) (use : ThreadUse) : SpawnState :=
  { s with use := Function.update s.use i use }

/-- The system can make thread `k`: its identifier is that of no other thread that is there. -/
def CanCreate (osId : ℕ → ThreadId) (s : SpawnState) (k : ℕ) : Prop :=
  s.pc k = .absent ∧ osId k ≠ noThreadId ∧ s.owner (osId k) = none

instance (osId : ℕ → ThreadId) (s : SpawnState) (k : ℕ) : Decidable (s.CanCreate osId k) :=
  inferInstanceAs (Decidable (_ ∧ _ ∧ _))

/-- Thread `k` starts at `pc`. -/
@[simps]
def create (osId : ℕ → ThreadId) (s : SpawnState) (k : ℕ) (pc : OsPc) (home : Option ℕ)
    (given : Option (Option ℕ × ℕ)) : SpawnState :=
  { s with
    pc := Function.update s.pc k pc
    owner := Function.update s.owner (osId k) (some k)
    home := Function.update s.home k home
    given := Function.update s.given k given }

/-- `_cvReceivedId.notify_all()` of `_threads[i]`. -/
def notifyAll (s : SpawnState) (i : ℕ) : SpawnState :=
  { s with
    pc := fun k =>
      match s.pc k with
      | .launch j (.wait callback) => if j = i then .launch j (.call callback) else s.pc k
      | pc => pc }

/-- A step of `Spawn` on `_threads[i]`, by thread `u`. -/
def spawnStep (osId : ℕ → ThreadId) (s : SpawnState) (u i : ℕ) (callback : Option ℕ)
    (userdata : ℕ) (choice : SpawnChoice) : SpawnPc → Option SpawnState
  | .setHandle =>
      some ((s.setThread i { s.thread i with handle := none }).setPc u
        (.spawn i callback userdata .setId))
  | .setId =>
      some ((s.setThread i { s.thread i with id := noThreadId }).setPc u
        (.spawn i callback userdata .setCallback))
  | .setCallback =>
      some ((s.setThread i { s.thread i with callback := callback }).setPc u
        (.spawn i callback userdata .setUserdata))
  | .setUserdata =>
      some ((s.setThread i { s.thread i with userdata := userdata }).setPc u
        (.spawn i callback userdata .lock))
  | .lock =>
      if (s.thread i).startupIdMutex = none then
        some ((s.setThread i { s.thread i with startupIdMutex := some u }).setPc u
          (.spawn i callback userdata .createThread))
      else none
  | .createThread =>
      match choice with
      | .created k =>
          if s.CanCreate osId k then
            some (((s.create osId k (.launch i .getCallback) (some i)
              (some (callback, userdata))).setUse i (.created u k)).setPc u
                (.spawn i callback userdata (.storeId k)))
          else none
      | .failed => some (s.setPc u (.spawn i callback userdata (.storeHandle none)))
      | _ => none
  | .storeId k =>
      some ((s.setThread i { s.thread i with id := osId k }).setPc u
        (.spawn i callback userdata (.storeHandle (some k))))
  | .storeHandle k =>
      some ((s.setThread i { s.thread i with handle := k.map .thread }).setPc u
        (.spawn i callback userdata .unlock))
  | .unlock =>
      some (((s.setThread i { s.thread i with startupIdMutex := none }).setUse i
        (s.use i).release).setPc u (.spawn i callback userdata .notifyAll))
  | .notifyAll => some ((s.notifyAll i).setPc u (.spawn i callback userdata .hasSpawned))
  | .hasSpawned => some (s.setPc u .code)

/-- A step of `LaunchThread` for `_threads[i]`, by thread `u`. -/
def launchStep (s : SpawnState) (u i : ℕ) (choice : SpawnChoice) : LaunchPc → Option SpawnState
  | .getCallback =>
      match (s.thread i).callback with
      | none => some (s.setPc u .threw)
      | some callback => some (s.setPc u (.launch i (.lock callback)))
  | .lock callback =>
      if (s.thread i).startupIdMutex = none then
        some ((s.setThread i { s.thread i with startupIdMutex := some u }).setPc u
          (.launch i (.readId callback)))
      else none
  | .readId callback =>
      some (s.setPc u (.launch i (.unlock callback (s.thread i).hasSpawned)))
  | .unlock callback ready =>
      some ((s.setThread i { s.thread i with startupIdMutex := none }).setPc u
        (.launch i (if ready then .call callback else .beginWait callback)))
  | .beginWait callback => some (s.setPc u (.launch i (.wait callback)))
  | .wait callback =>
      if choice = .spurious then some (s.setPc u (.launch i (.call callback))) else none
  | .call _ => some (s.setPc u .code)

/-- A step of `SetupThread(i)` or `FromCurrentThread`, by thread `u`. -/
def setupStep (osId : ℕ → ThreadId) (s : SpawnState) (u i : ℕ) (checks : Bool) :
    SetupPc → SpawnState
  | .hasSpawned =>
      if (s.thread i).hasSpawned then s.setPc u .code else s.setPc u (.find (.setup i) 0)
  | .setHandle =>
      (s.setThread i { s.thread i with handle := some .current }).setPc u
        (.setup i checks .setId)
  | .setId =>
      { ((s.setThread i { s.thread i with id := osId u }).setUse i (.taken u)).setPc u
          (if checks then .find (.setupAgain i) 0 else .code) with
        home := Function.update s.home u (some i) }

/-- `GetCurrentTLS` returns to its caller. -/
def findReturns (s : SpawnState) (u : ℕ) (result : Option ℕ) : FindCaller → SpawnState
  | .code => s.setPc u (.found result)
  | .setup i =>
      match result with
      | none => s.setPc u (.setup i true .setHandle)
      | some _ => (s.setUse i (s.use i).release).setPc u .code
  | .setupAgain i => s.setPc u (if result = some i then .code else .failed)

/-- A call that the code makes. -/
def codeStep (n : ℕ) (osId : ℕ → ThreadId) (s : SpawnState) (u : ℕ) :
    SpawnChoice → Option SpawnState
  | .spawn i callback userdata =>
      if i < n then
        some ((s.setUse i ((s.use i).claim u)).setPc u (.spawn i callback userdata .setHandle))
      else none
  | .setupThread i =>
      if i < n then some ((s.setUse i ((s.use i).claim u)).setPc u (.setup i true .hasSpawned))
      else none
  | .fromCurrentThread i =>
      if i < n then some ((s.setUse i ((s.use i).claim u)).setPc u (.setup i false .setHandle))
      else none
  | .getCurrentTls => some (s.setPc u (.find .code 0))
  | .startThread k =>
      if s.CanCreate osId k then some (s.create osId k .code none none) else none
  | .exit =>
      some ({ s with owner := Function.update s.owner (osId u) none }.setPc u .ended)
  | _ => none

/-- A step of thread `u`. -/
def osStep (n : ℕ) (osId : ℕ → ThreadId) (s : SpawnState) (u : ℕ) (choice : SpawnChoice) :
    OsPc → Option SpawnState
  | .code => s.codeStep n osId u choice
  | .find caller j =>
      if j < n then
        if (s.thread j).id = osId u then some (s.findReturns u (some j) caller)
        else some (s.setPc u (.find caller (j + 1)))
      else some (s.findReturns u none caller)
  | .found _ => some (s.setPc u .code)
  | .spawn i callback userdata pc => s.spawnStep osId u i callback userdata choice pc
  | .launch i pc => s.launchStep u i choice pc
  | .setup i checks pc => some (s.setupStep osId u i checks pc)
  | .absent | .threw | .failed | .ended => none

/-- Before `Run`: the main thread is there, and no `Thread` has been used. -/
def start (osId : ℕ → ThreadId) : SpawnState where
  thread _ := {}
  pc k := if k = 0 then .code else .absent
  owner id := if id = osId 0 then some 0 else none
  home _ := none
  given _ := none
  use _ := .unused

end SpawnState

/-- The `n` `Thread`s of a manager, in a program with any number of threads; `osId` gives their
identifiers, which a thread may have after another has ended. -/
def spawnSystem (n : ℕ) (osId : ℕ → ThreadId) : System SpawnState SpawnAction where
  init s := osId 0 ≠ noThreadId ∧ s = .start osId
  step s a := s.osStep n osId a.thread a.choice (s.pc a.thread)

end NomadTasks
