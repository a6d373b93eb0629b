import NomadTasks.Manager.CurrentFiber
import NomadTasks.Manager.Startup

/-!
# Waiting for the threads to end

`Run` and `Shutdown(true)` call `Join` on every thread but the first. The handle of a spawned thread
denotes that thread, but `FromCurrentThread` stores what `GetCurrentThread()` returns, which denotes
whichever thread uses it; and a fiber calls `Shutdown(true)` on the thread that it has come to.

* `joinSystem`: the threads of the manager, and their calls of `Join`.
* `joins_others`: if `Shutdown(true)` is called on the main thread, no thread that has called
  `SetupThread` is joined, and the switches do not meet, every `Join` waits for another thread.
* `joins_itself`: else a thread can wait for its own end.
-/

namespace NomadTasks

open Transition

/-! ## Data -/

/-- The thread that a handle denotes when thread `t` uses it. -/
def ThreadHandle.denotes (t : ℕ) : ThreadHandle → ℕ
  | .created i => i
  | .current => t

/-- The manager, and what `Join` depends on. -/
structure JoinState where
  hosted : HostedState
  /-- The thread has called `FromCurrentThread` in `SetupThread`. -/
  isSetUp : ℕ → Bool
  /-- The position of a thread in the loop of `Run` or `Shutdown(true)`, while it is there. -/
  joining : ℕ → Option ℕ
  /-- The thread has ended. -/
  ended : ℕ → Bool

/-- A step of a thread. -/
inductive JoinAction
  /-- Any step apart from those that follow. -/
  | step (a : ManagerAction)
  /-- `FromCurrentThread` in `SetupThread`. -/
  | setupThread (t : ℕ)
  /-- The main callback or a delegate calls `Shutdown(true)`. -/
  | shutdown (t : ℕ)
  /-- A step of the loop over the threads: `Join`, or the end of the loop. -/
  | join (t : ℕ)
  deriving DecidableEq

/-- The fiber is in the main callback or a delegate, between two calls. -/
def FiberPc.inBody : FiberPc → Bool
  | .body _ => true
  | _ => false

namespace HostedState

/-- Thread `t` is in the main callback, a delegate or code of its own, between two calls. -/
def inBody (s : HostedState) (t : ℕ) : Bool :=
  match s.mgr.running t, s.host t with
  | some f, _ => (s.mgr.fibers f).pc.inBody
  | none, .code fiber => fiber.pc.inBody
  | none, _ => false

/-- The thread whose own code goes on when the fiber on thread `t` switches back in the next step.
-/
def switchesBackTo (s : HostedState) (t : ℕ) : Option ℕ :=
  match s.mgr.running t with
  | some f => if (s.mgr.fibers f).pc = .switchBack then some (s.mgr.returnFiber f) else none
  | none => none

end HostedState

namespace JoinState

/-- The handle of `_threads[i]`; `none` when `HasSpawned()` is `false`. -/
def handle (setUp : ℕ → Bool) (s : JoinState) (i : ℕ) : Option ThreadHandle :=
  if i = 0 then some .current
  else if setUp i then (if s.isSetUp i then some .current else none)
  else some (.created i)

/-- Before any thread has taken a step. -/
def start (opts : ManagerOptions) (setUp : ℕ → Bool) : JoinState where
  hosted := .start opts setUp
  isSetUp _ := false
  joining _ := none
  ended _ := false

/-- Thread `t` begins the loop. -/
def beginJoins (s : JoinState) (t : ℕ) : JoinState :=
  { s with joining := Function.update s.joining t (some 1) }

/-- Thread `t` goes on with the own code of thread `u`: `Run` joins the threads then, if it has been
called with a main callback, and `ThreadCallback_Worker` returns. -/
def switchedBack (setUp : ℕ → Bool) (s : JoinState) (t u : ℕ) : JoinState :=
  if setUp u then s
  else if u = 0 then s.beginJoins t
  else { s with ended := Function.update s.ended t true }

/-- Thread `t` can take a step of its program: it is not in a `Join`, has not ended, and has been
set up if it has to be. -/
def active (setUp : ℕ → Bool) (s : JoinState) (t : ℕ) : Bool :=
  (s.joining t).isNone && !s.ended t && (t == 0 || !setUp t || s.isSetUp t)

end JoinState

/-! ## Steps -/

/-- A step of the program of thread `a.thread`. -/
def programStep (opts : ManagerOptions) (setUp : ℕ → Bool) (s : JoinState) (a : ManagerAction) :
    Option JoinState :=
  if s.active setUp a.thread then
    (hostedStep opts setUp s.hosted a).map fun hosted =>
      match s.hosted.switchesBackTo a.thread with
      | some u => { s with hosted }.switchedBack setUp a.thread u
      | none => { s with hosted }
  else none

/-- One step of the manager with its calls of `Join`. `Join` returns when the thread that the handle
denotes has ended, and at once if the thread has not been spawned. -/
def joinStep (opts : ManagerOptions) (setUp : ℕ → Bool) (s : JoinState) :
    JoinAction → Option JoinState
  | .step a => programStep opts setUp s a
  | .setupThread t =>
      if t ≠ 0 ∧ setUp t = true ∧ s.isSetUp t = false then
        some { s with isSetUp := Function.update s.isSetUp t true }
      else none
  | .shutdown t =>
      if s.hosted.inBody t then
        (programStep opts setUp s ⟨t, .op .shutdown⟩).map fun s' => s'.beginJoins t
      else none
  | .join t =>
      match s.joining t with
      | none => none
      | some i =>
          if i < opts.threadCount then
            match s.handle setUp i with
            | none => some { s with joining := Function.update s.joining t (some (i + 1)) }
            | some handle =>
                if s.ended (handle.denotes t) then
                  some { s with joining := Function.update s.joining t (some (i + 1)) }
                else none
          else some { s with joining := Function.update s.joining t none }

/-- The manager whose threads `t` with `setUp t` may call `SetupThread`, and whose other threads are
spawned. -/
def joinSystem (opts : ManagerOptions) (setUp : ℕ → Bool) : System JoinState JoinAction where
  init s := s = .start opts setUp
  step := joinStep opts setUp

/-- No thread is in a `Join` that waits for itself. -/
def JoinsOthers (opts : ManagerOptions) (setUp : ℕ → Bool) (s : JoinState) : Prop :=
  ∀ t i handle, s.joining t = some i → i < opts.threadCount → s.handle setUp i = some handle →
    handle.denotes t ≠ t

/-! ## The condition -/

/-- No thread of the manager has called `SetupThread`. -/
def NoneSetUp (opts : ManagerOptions) (setUp : ℕ → Bool) (s : JoinState) : Prop :=
  ∀ i < opts.threadCount, setUp i = true → s.isSetUp i = false

instance (opts : ManagerOptions) (setUp : ℕ → Bool) (s : JoinState) :
    Decidable (NoneSetUp opts setUp s) :=
  inferInstanceAs (Decidable (∀ i < opts.threadCount, _))

/-- The next step of thread `t` does not switch to a fiber that a thread executes, or that another
thread is about to switch to, so that its `SwitchTo` can be taken as one step. -/
def HostedState.SwitchesApart (opts : ManagerOptions) (s : HostedState) (t : ℕ) : Prop :=
  ∀ g ∈ s.switchTarget t, ∀ u < opts.threadCount,
    s.mgr.running u ≠ some g ∧ (s.switchTarget u = some g → u = t)

instance (opts : ManagerOptions) (s : HostedState) (t : ℕ) : Decidable (s.SwitchesApart opts t) :=
  inferInstanceAs (Decidable (∀ g ∈ s.switchTarget t, _))

/-- Such a step switches to no fiber that a thread executes. -/
theorem HostedState.SwitchesApart.noSharedFiber {opts : ManagerOptions} {s : HostedState}
    {a : ManagerAction} (hok : s.SwitchesApart opts a.thread)
    (h : History HostedState ManagerAction) : NoSharedFiber opts h s a :=
  fun g hg u hu => (hok g hg u hu).1

/-- `Shutdown(true)` is called on the main thread; when the joins begin, no thread has called
`SetupThread`, and none does so while they last; and no step switches to a fiber that a thread
executes or that another thread is about to switch to. -/
def JoinsFromMain (opts : ManagerOptions) (setUp : ℕ → Bool) (_ : History JoinState JoinAction)
    (s : JoinState) : JoinAction → Prop
  | .step a => s.hosted.SwitchesApart opts a.thread ∧
      (s.hosted.switchesBackTo a.thread = some 0 → setUp 0 = false → NoneSetUp opts setUp s)
  | .shutdown t => s.hosted.SwitchesApart opts t ∧ t = 0 ∧ NoneSetUp opts setUp s
  | .setupThread _ => s.joining 0 = none
  | .join _ => True

instance (opts : ManagerOptions) (setUp : ℕ → Bool) (h : History JoinState JoinAction)
    (s : JoinState) : ∀ a, Decidable (JoinsFromMain opts setUp h s a)
  | .step a => inferInstanceAs (Decidable (s.hosted.SwitchesApart opts a.thread ∧ _))
  | .shutdown t => inferInstanceAs (Decidable (s.hosted.SwitchesApart opts t ∧ _))
  | .setupThread _ => inferInstanceAs (Decidable (s.joining 0 = none))
  | .join _ => .isTrue trivial

/-! ## Where a fiber switches back to -/

section Returns

variable {opts : ManagerOptions} {setUp : ℕ → Bool} {s : ManagerState} {t f : ℕ} {act : Act}

/-- If the act of thread `t` is a switch, it is one with the `TLS` of the thread, to a fiber that no
thread executes. -/
def Act.SwitchesFree (s : ManagerState) (t : ℕ) (act : Act) : Prop :=
  ∀ tls g, act = .switchTo tls g → tls = t ∧ ∀ u, s.running u ≠ some g

/-- The fiber that a thread executes switches back to that thread. -/
def ManagerState.ReturnsHere (s : ManagerState) : Prop :=
  ∀ t f, s.running t = some f → s.returnFiber f = t

/-- Such an act keeps that. -/
theorem ManagerState.ReturnsHere.apply (hr : s.ReturnsHere) (hact : act.SwitchesFree s t) :
    (s.apply t f act).ReturnsHere := by
  intro u k hu
  rcases ManagerState.apply_returnFiber hu with ⟨hold, hsame⟩ | ⟨tls, rfl, hret, hut⟩
  · exact hsame.trans (hr u k hold)
  · obtain ⟨rfl, hfree⟩ := hact tls k rfl
    rw [hret]
    exact (hut.resolve_right (hfree u)).symm

/-- Code on thread `t` switches with the `TLS` of that thread. -/
theorem CodeOn.switchesFree {fiber : FiberState} {pc' : FiberPc} (hc : CodeOn s t fiber)
    (h : FiberStep opts s f (fiber.currentTLS t) fiber.pc act pc')
    (hfree : ∀ g ∈ fiber.pc.switchTarget, ∀ u, s.running u ≠ some g) : act.SwitchesFree s t := by
  rintro tls g rfl
  rcases h.moves_cases with hstay | ⟨k, hk, hg, -⟩ | ⟨hback, -⟩
  · cases hstay
  · cases hk
    exact ⟨hc.currentTLS (FiberPc.ownTls_of_switchTarget hg), hfree g hg⟩
  · cases hback

theorem HostStep.switchesFree {pc pc' : HostPc} (h : HostStep opts s t pc act pc')
    (hcode : ∀ fiber, pc = .code fiber → CodeOn s t fiber)
    (hfree : ∀ g ∈ pc.switchTarget, ∀ u, s.running u ≠ some g) : act.SwitchesFree s t := by
  cases h with
  | code h => exact (hcode _ rfl).switchesFree h hfree
  | _ => exact nofun

theorem ThreadStep.switchesFree {pc pc' : ThreadPc} (h : ThreadStep s t pc act pc')
    (hfree : ∀ g ∈ pc.switchTarget, ∀ u, s.running u ≠ some g) : act.SwitchesFree s t := by
  rintro tls g rfl
  rcases h.moves_cases with hstay | ⟨k, hk, hg⟩
  · cases hstay
  · cases hk
    exact ⟨rfl, hfree g hg⟩

/-- Every step keeps that, unless it switches to a fiber that another thread executes. -/
theorem ManagerState.ReturnsHere.step {s s' : HostedState} {a : ManagerAction}
    (hr : s.mgr.ReturnsHere) (hi : CurrentInv opts s) {h : History HostedState ManagerAction}
    (hok : NoSharedFiber opts h s a) (hs : hostedStep opts setUp s a = some s') :
    s'.mgr.ReturnsHere := by
  have hfree := hi.target_free hok
  rcases hostedStep_cases hs with ⟨hmgr, mgr, hstep, rfl⟩ | ⟨f, hrun, hpc, rfl⟩ |
      ⟨act, pc', hrun, hhost, h, rfl⟩
  -- a fiber of the pool, the callback of a thread, and code of the user on a thread of its own
  · rcases managerStep_act hstep with ⟨f, act, pc', hrun, -, h, rfl⟩ | ⟨act, pc', hrun, -, h, rfl⟩
    · rw [HostedState.switchTarget, if_neg (fun hne => by simp [hne.1] at hrun),
        ManagerState.switchTarget, hrun] at hfree
      have hact := (hi.code _ f hrun).switchesFree h hfree
      exact hr.apply hact
    · have hhost := hmgr.resolve_left fun hne => hne hrun
      rw [HostedState.switchTarget, if_neg (fun hne => hne.2 hhost),
        ManagerState.switchTarget, hrun] at hfree
      have hact := h.switchesFree hfree
      exact hr.apply hact
  -- a main fiber without a main callback stays on its thread
  · exact hr
  · rw [HostedState.switchTarget, if_pos ⟨hrun, hhost⟩] at hfree
    have hact := h.switchesFree (fun fiber hfiber => (hi.host _ fiber hfiber).1) hfree
    exact hr.apply hact

end Returns

/-! ## Every join is for another thread -/

/-- The fibers switch back to their own threads, and only the main thread joins, while no handle
denotes the thread that uses it. -/
structure JoinInv (opts : ManagerOptions) (setUp : ℕ → Bool) (s : JoinState) : Prop where
  hosted : CurrentInv opts s.hosted
  returns : s.hosted.mgr.ReturnsHere
  joins : ∀ t i, s.joining t = some i → t = 0 ∧ 1 ≤ i ∧ NoneSetUp opts setUp s

section Joins

variable {opts : ManagerOptions} {setUp : ℕ → Bool} {s s' : JoinState}

/-- A handle of a thread that has not called `SetupThread` denotes that thread. -/
theorem NoneSetUp.handle_eq (h : NoneSetUp opts setUp s) {i : ℕ} {handle : ThreadHandle}
    (hpos : 1 ≤ i) (hlt : i < opts.threadCount) (hh : s.handle setUp i = some handle) :
    handle = .created i := by
  rw [JoinState.handle, if_neg (by omega)] at hh
  split at hh
  · next hset =>
    simp [h i hlt hset] at hh
  · exact (Option.some.inj hh).symm

/-- The invariant says what is to be shown. -/
theorem JoinInv.joinsOthers (hi : JoinInv opts setUp s) : JoinsOthers opts setUp s := by
  intro t i handle hjoin hlt hh
  obtain ⟨rfl, hpos, hnone⟩ := hi.joins t i hjoin
  obtain rfl := hnone.handle_eq hpos hlt hh
  show i ≠ 0
  omega

/-- A thread that begins the loop is the main thread. -/
theorem JoinInv.beginJoins (hi : JoinInv opts setUp s) (hnone : NoneSetUp opts setUp s) :
    JoinInv opts setUp (s.beginJoins 0) := by
  refine ⟨hi.hosted, hi.returns, fun t i hjoin => ?_⟩
  by_cases ht : t = 0
  · subst ht
    obtain rfl : 1 = i := Option.some.inj ((Function.update_self 0 _ s.joining).symm.trans hjoin)
    exact ⟨rfl, le_rfl, hnone⟩
  · exact absurd (hi.joins t i ((Function.update_of_ne ht ..).symm.trans hjoin)).1 ht

/-- A thread goes on in the loop, or leaves it. -/
theorem JoinInv.next (hi : JoinInv opts setUp s) {t i : ℕ} (hjoin : s.joining t = some i)
    {next : Option ℕ} (hnext : ∀ j ∈ next, i ≤ j) :
    JoinInv opts setUp { s with joining := Function.update s.joining t next } := by
  obtain ⟨rfl, hpos, hnone⟩ := hi.joins t i hjoin
  refine ⟨hi.hosted, hi.returns, fun u j hu => ?_⟩
  by_cases hu0 : u = 0
  · subst hu0
    have hj := hnext j ((Function.update_self 0 next s.joining).symm.trans hu)
    exact ⟨rfl, hpos.trans hj, hnone⟩
  · exact absurd (hi.joins u j ((Function.update_of_ne hu0 ..).symm.trans hu)).1 hu0

/-- A thread goes on with its own code, or with that of another thread by a fiber that has switched
back. -/
theorem JoinInv.switchedBack (hi : JoinInv opts setUp s) {t u : ℕ} (hut : u = t)
    (hnone : u = 0 → setUp u = false → NoneSetUp opts setUp s) :
    JoinInv opts setUp (s.switchedBack setUp t u) := by
  rw [JoinState.switchedBack]
  split
  · exact hi
  · next hset =>
    split
    -- `Run` begins to join, on the thread that has called it
    · next hzero =>
      obtain rfl : t = 0 := hut.symm.trans hzero
      -- no thread has called `SetupThread` by then
      exact hi.beginJoins (hnone hzero (by simpa using hset))
    -- the callback of a worker returns
    · exact ⟨hi.hosted, hi.returns, hi.joins⟩

/-- The thread that a fiber switches back to is the one that has executed it. -/
theorem ManagerState.ReturnsHere.switchesBackTo {s : HostedState} (hr : s.mgr.ReturnsHere)
    {t u : ℕ} (h : s.switchesBackTo t = some u) : u = t := by
  rw [HostedState.switchesBackTo] at h
  cases hrun : s.mgr.running t with
  | none =>
    rw [hrun] at h
    cases h
  | some f =>
    simp only [hrun] at h
    split at h
    · exact (Option.some.inj h).symm.trans (hr t f hrun)
    · cases h

/-- A step of a program calls no `SetupThread`. -/
theorem programStep_isSetUp {a : ManagerAction} (hs : programStep opts setUp s a = some s') :
    s'.isSetUp = s.isSetUp := by
  rw [programStep] at hs
  split at hs
  · obtain ⟨hosted, -, rfl⟩ := Option.map_eq_some_iff.mp hs
    cases s.hosted.switchesBackTo a.thread with
    | none => rfl
    | some u =>
      simp only [JoinState.switchedBack, JoinState.beginJoins]
      split_ifs <;> rfl
  · cases hs

/-- A step of a program keeps the invariant. -/
theorem JoinInv.programStep (hi : JoinInv opts setUp s) {a : ManagerAction}
    (hok : NoSharedFiber opts [] s.hosted a)
    (hnone : s.hosted.switchesBackTo a.thread = some 0 → setUp 0 = false → NoneSetUp opts setUp s)
    (hs : programStep opts setUp s a = some s') : JoinInv opts setUp s' := by
  rw [NomadTasks.programStep] at hs
  split at hs
  · obtain ⟨hosted, hstep, rfl⟩ := Option.map_eq_some_iff.mp hs
    have hi' : JoinInv opts setUp { s with hosted } :=
      ⟨hi.hosted.step hok hstep, hi.returns.step hi.hosted hok hstep, hi.joins⟩
    cases hback : s.hosted.switchesBackTo a.thread with
    | none => exact hi'
    | some u =>
      refine hi'.switchedBack (hi.returns.switchesBackTo hback) fun hzero hset => ?_
      subst hzero
      exact hnone hback hset
  · cases hs

/-- `SetupThread` keeps the invariant, if the main thread is not in the loop. -/
theorem JoinInv.setupThread (hi : JoinInv opts setUp s) (hjoin : s.joining 0 = none) (t : ℕ) :
    JoinInv opts setUp { s with isSetUp := Function.update s.isSetUp t true } := by
  refine ⟨hi.hosted, hi.returns, fun u i hu => ?_⟩
  -- no other thread is in it either
  obtain ⟨rfl, -⟩ := hi.joins u i hu
  cases hjoin.symm.trans hu

/-- Every step that meets the condition keeps the invariant. -/
theorem JoinInv.step (hi : JoinInv opts setUp s) {h : History JoinState JoinAction}
    {a : JoinAction} (hok : JoinsFromMain opts setUp h s a)
    (hs : joinStep opts setUp s a = some s') : JoinInv opts setUp s' := by
  cases a with
  | step a => exact hi.programStep (hok.1.noSharedFiber []) hok.2 hs
  | setupThread t =>
    rw [joinStep] at hs
    split at hs
    · cases hs
      exact hi.setupThread hok t
    · cases hs
  | shutdown t =>
    -- the condition: this is the main thread
    obtain ⟨hfree, rfl, hnone⟩ := hok
    rw [joinStep] at hs
    split at hs
    · obtain ⟨s₁, hs₁, rfl⟩ := Option.map_eq_some_iff.mp hs
      have hi₁ := hi.programStep (hfree.noSharedFiber []) (fun _ _ => hnone) hs₁
      refine hi₁.beginJoins fun i hlt hset => ?_
      rw [programStep_isSetUp hs₁]
      exact hnone i hlt hset
    · cases hs
  | join t =>
    rw [joinStep] at hs
    cases hjoin : s.joining t with
    | none =>
      rw [hjoin] at hs
      cases hs
    | some i =>
      have hnext : JoinInv opts setUp
          { s with joining := Function.update s.joining t (some (i + 1)) } :=
        hi.next hjoin (by simp)
      simp only [hjoin] at hs
      split at hs
      -- a thread that has not been spawned, or has ended, is passed over
      · split at hs
        · cases hs
          exact hnext
        · split at hs
          · cases hs
            exact hnext
          · cases hs
      · cases hs
        exact hi.next hjoin (by simp)

theorem JoinInv.start (opts : ManagerOptions) (setUp : ℕ → Bool) :
    JoinInv opts setUp (.start opts setUp) :=
  ⟨.start opts setUp, nofun, nofun⟩

end Joins

/-- In every run that meets the condition, every `Join` of `Run` and `Shutdown(true)` waits for a
thread other than the one that calls it. -/
theorem joins_others {opts : ManagerOptions} {setUp : ℕ → Bool}
    {h : History JoinState JoinAction} {s : JoinState}
    (hr : (joinSystem opts setUp).Run (JoinsFromMain opts setUp) h s) :
    JoinsOthers opts setUp s := by
  have hi : JoinInv opts setUp s := by
    refine hr.invariant (P := fun _ s => JoinInv opts setUp s) (fun s hs => ?_)
      fun _ _ _ _ _ hi hok hs => hi.step hok hs
    obtain rfl : s = .start opts setUp := hs
    exact .start opts setUp
  exact hi.joinsOthers

/-- All threads of the manager are spawned. -/
def setsUpNone (_ : ℕ) : Bool := false

/-- Two workers, one of them the main thread, and the IO thread; the manager shuts down after the
main callback. -/
def shutsAfterMain : ManagerOptions := ⟨2, 3, true⟩

/-- The main callback returns without a call. -/
def mainReturns : List JoinAction :=
  (threadSteps 0 7 ++ ⟨0, .op .finish⟩ :: threadSteps 0 2).map .step

theorem joins_others_main :
    ∃ h s, (joinSystem shutsAfterMain setsUpNone).Run
        (JoinsFromMain shutsAfterMain setsUpNone) h s ∧
      s.joining 0 = some 1 ∧ JoinsOthers shutsAfterMain setsUpNone s := by
  have hrun : ∃ h s,
      (joinSystem shutsAfterMain setsUpNone).Run (JoinsFromMain shutsAfterMain setsUpNone) h s ∧
        s.joining 0 = some 1 :=
    System.exists_run_of_trace rfl mainReturns (by decide +kernel)
  obtain ⟨h, s, hr, hjoin⟩ := hrun
  exact ⟨h, s, hr, hjoin, joins_others hr⟩

/-- A thread in the loop at a handle that denotes the thread itself. -/
theorem not_joinsOthers {opts : ManagerOptions} {setUp : ℕ → Bool} {s : JoinState} {t i : ℕ}
    {handle : ThreadHandle} (hlt : i < opts.threadCount) (hjoin : s.joining t = some i)
    (hh : s.handle setUp i = some handle) (hself : handle.denotes t = t) :
    ¬ JoinsOthers opts setUp s :=
  fun hothers => hothers t i handle hjoin hlt hh hself

/-- The main callback waits for a job, which thread 1 executes; its fiber goes on there, and calls
`Shutdown(true)`. -/
def shutsDownOnWorker : List JoinAction :=
  (mainWaitsFor .normal ++ threadSteps 1 13 ++ executeJob 1 ++ threadSteps 1 14).map .step ++
    [.shutdown 1]

/-- Thread 1 waits for the handle of thread 1 then. And if thread 1 has called `SetupThread`, the
main thread waits at the end of `Run` for a handle that denotes the main thread. -/
theorem joins_itself :
    (∃ s, (joinSystem twoWorkers setsUpNone).Reachable s ∧ s.hosted.mgr.running 1 = some 0 ∧
      s.joining 1 = some 1 ∧ s.handle setsUpNone 1 = some (.created 1) ∧
      ¬ JoinsOthers twoWorkers setsUpNone s) ∧
    ∃ s, (joinSystem shutsAfterMain setsUpOne).Reachable s ∧ s.joining 0 = some 1 ∧
      s.handle setsUpOne 1 = some .current ∧ ¬ JoinsOthers shutsAfterMain setsUpOne s := by
  have hworker : ∃ (h : History JoinState JoinAction) (s : JoinState),
      (joinSystem twoWorkers setsUpNone).Run (fun _ _ _ => True) h s ∧
        s.hosted.mgr.running 1 = some 0 ∧ s.joining 1 = some 1 ∧
        s.handle setsUpNone 1 = some (.created 1) :=
    System.exists_run_of_trace rfl shutsDownOnWorker (by decide +kernel)
  have hsetUp : ∃ (h : History JoinState JoinAction) (s : JoinState),
      (joinSystem shutsAfterMain setsUpOne).Run (fun _ _ _ => True) h s ∧
        s.joining 0 = some 1 ∧ s.handle setsUpOne 1 = some .current :=
    System.exists_run_of_trace rfl (.setupThread 1 :: mainReturns) (by decide +kernel)
  obtain ⟨h₁, s₁, hr₁, hmain, hjoin₁, hh₁⟩ := hworker
  obtain ⟨h₂, s₂, hr₂, hjoin₂, hh₂⟩ := hsetUp
  refine ⟨⟨s₁, hr₁.reachable, hmain, hjoin₁, hh₁, ?_⟩, s₂, hr₂.reachable, hjoin₂, hh₂, ?_⟩
  · exact not_joinsOthers (by decide) hjoin₁ hh₁ rfl
  · exact not_joinsOthers (by decide) hjoin₂ hh₂ rfl

end NomadTasks
