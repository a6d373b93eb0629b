import NomadTasks.Counter.EarlyReturn

/-!
# The blocking `WaitForCounter`

A blocking `WaitForCounter` schedules `WaitForCounter_Proxy`, a job that waits for the counter like
a fiber and then calls `notify_all` on a condition variable of the caller, and calls `wait` on this
variable. The mutex is the caller's own, and there is no predicate: a notification is for those that
are inside `wait`, and whoever comes out of `wait` returns.

One blocking call, its proxy, and any other calls on the counter, in any order.

* `blockingSystem`: the caller and its proxy over the waits on the counter.
* `BlockingOk`: the caller does not sleep through its notification and does not return early.
* `blocking_wait_ok`: that holds if the notification does not come between `ScheduleJob` and `wait`,
  and nothing else ends this `wait`.
-/

namespace NomadTasks

open Transition

variable {ι : Type}

/-- The program points of a blocking `WaitForCounter`. -/
inductive BlockingCall
  | notStarted
  /-- `counter->GetValue() == targetValue`. -/
  | getValue (targetValue : CounterUnit)
  /-- The same test once more, after `if (blocking)`. -/
  | getValueAgain (targetValue : CounterUnit)
  /-- `ScheduleJob(JobPriority::High, WaitForCounter_Proxy, …)`. -/
  | schedule (targetValue : CounterUnit)
  /-- The job is in the queue, and `cv.wait(lock)` has not begun. -/
  | lock (targetValue : CounterUnit)
  /-- Inside `cv.wait(lock)`. -/
  | waiting (targetValue : CounterUnit)
  /-- `cv.wait(lock)` has returned. -/
  | woken (targetValue : CounterUnit)
  /-- The call has returned, and `cv` is destroyed. -/
  | returned (targetValue : CounterUnit)
  /-- `ScheduleJob` threw `EX_JOB_QUEUE_FULL`. -/
  | threw (targetValue : CounterUnit)
  deriving DecidableEq

namespace BlockingCall

/-- The call has begun and not yet ended. -/
def inProgress : BlockingCall → Bool
  | .notStarted | .returned _ | .threw _ => false
  | _ => true

/-- The call is inside `cv.wait`. -/
def isWaiting : BlockingCall → Bool
  | .waiting _ => true
  | _ => false

/-- The call has scheduled its proxy, and enters `cv.wait` next. -/
def entersWait : BlockingCall → Bool
  | .lock _ => true
  | _ => false

/-- The call is inside `cv.wait`, or will enter it next. -/
def sleeps : BlockingCall → Bool
  | .lock _ | .waiting _ => true
  | _ => false

/-- The call after a notification of `cv`. -/
def notified : BlockingCall → BlockingCall
  | .waiting targetValue => .woken targetValue
  | c => c

end BlockingCall

/-- The job `WaitForCounter_Proxy` that the caller schedules. -/
inductive ProxyJob
  | notScheduled
  | queued (targetValue : CounterUnit)
  /-- A worker executes it, and it is inside `mgr->WaitForCounter`, or has just come out of it. -/
  | waiting (targetValue : CounterUnit)
  /-- It has called `cv->notify_all()`. -/
  | notified (targetValue : CounterUnit)
  deriving DecidableEq

/-- A counter with the waits on it, and a blocking caller with its proxy. -/
structure BlockingState (ι : Type) where
  waits : WaitState ι
  caller : BlockingCall
  proxy : ProxyJob

/-- What can happen next. -/
inductive BlockingAction (ι : Type)
  /-- `WaitForCounter(counter, targetValue, true)` is called. -/
  | call (targetValue : CounterUnit)
  /-- The caller takes its next step; `full` says whether `ScheduleJob` finds the queue full. -/
  | caller (full : Bool)
  /-- `cv.wait` returns without a notification. -/
  | spurious
  /-- A worker dequeues the proxy and calls it on the fiber. -/
  | runProxy (fiberIndex : ℕ)
  /-- The proxy calls `cv->notify_all()`. -/
  | notify
  /-- A step of the waits and of the other calls on the counter. -/
  | waits (a : WaitAction ι)

/-- The action touches `cv` on behalf of the proxy. -/
def BlockingAction.notifies : BlockingAction ι → Bool
  | .notify => true
  | _ => false

/-- The call on the counter that an action begins. -/
def WaitAction.begins : WaitAction ι → Option ι
  | .beginWait x _ _ | .beginModify x _ => some x
  | _ => none

section System

variable [DecidableEq ι]

/-- The next step of the caller. -/
def BlockingState.callerStep (s : BlockingState ι) (full : Bool) : Option (BlockingState ι) :=
  match s.caller with
  | .getValue targetValue =>
      if s.waits.counter.ctr.counter = targetValue then
        some { s with caller := .returned targetValue }
      else some { s with caller := .getValueAgain targetValue }
  | .getValueAgain targetValue =>
      if s.waits.counter.ctr.counter = targetValue then
        some { s with caller := .returned targetValue }
      else some { s with caller := .schedule targetValue }
  | .schedule targetValue =>
      if full then some { s with caller := .threw targetValue }
      else some { s with caller := .lock targetValue, proxy := .queued targetValue }
  | .lock targetValue => some { s with caller := .waiting targetValue }
  | .woken targetValue => some { s with caller := .returned targetValue }
  | _ => none

/-- One step of the interleaving. The wait of the proxy is wait `p` on the counter. -/
def blockingStep (p : ι) (s : BlockingState ι) : BlockingAction ι → Option (BlockingState ι)
  | .call targetValue =>
      if s.caller = .notStarted then some { s with caller := .getValue targetValue } else none
  | .caller full => s.callerStep full
  | .spurious => if s.caller.isWaiting then some { s with caller := s.caller.notified } else none
  | .runProxy fiberIndex =>
      match s.proxy with
      | .queued targetValue =>
          (waitStep s.waits (.beginWait p fiberIndex targetValue)).map fun waits =>
            { s with waits, proxy := .waiting targetValue }
      | _ => none
  | .notify =>
      match s.proxy, s.waits.waits p with
      | .waiting targetValue, .returned _ =>
          some { s with caller := s.caller.notified, proxy := .notified targetValue }
      | _, _ => none
  | .waits a =>
      if a.begins = some p then none else (waitStep s.waits a).map fun waits => { s with waits }

/-- A counter with `n` slots from construction on, under any interleaving of a blocking wait, its
proxy and any other calls. -/
def blockingSystem (n : ℕ) (p : ι) : System (BlockingState ι) (BlockingAction ι) where
  init s := s = {
    waits := { counter := .idle (.construct n), waits := fun _ => .notStarted, nextFlag := 1 }
    caller := .notStarted
    proxy := .notScheduled }
  step := blockingStep p

/-- What a step of the interleaving is, case by case. -/
inductive BlockingStep (p : ι) (s : BlockingState ι) :
    BlockingAction ι → BlockingState ι → Prop
  | call {t} (hc : s.caller = .notStarted) :
      BlockingStep p s (.call t) { s with caller := .getValue t }
  | already {full t} (hc : s.caller = .getValue t ∨ s.caller = .getValueAgain t)
      (hv : s.waits.counter.ctr.counter = t) :
      BlockingStep p s (.caller full) { s with caller := .returned t }
  | different {full t c} (hc : s.caller = .getValue t ∧ c = .getValueAgain t ∨
      s.caller = .getValueAgain t ∧ c = .schedule t) :
      BlockingStep p s (.caller full) { s with caller := c }
  | queueFull {t} (hc : s.caller = .schedule t) :
      BlockingStep p s (.caller true) { s with caller := .threw t }
  | schedule {t} (hc : s.caller = .schedule t) :
      BlockingStep p s (.caller false) { s with caller := .lock t, proxy := .queued t }
  | wait {full t} (hc : s.caller = .lock t) :
      BlockingStep p s (.caller full) { s with caller := .waiting t }
  | leave {full t} (hc : s.caller = .woken t) :
      BlockingStep p s (.caller full) { s with caller := .returned t }
  | spurious (hc : s.caller.isWaiting = true) :
      BlockingStep p s .spurious { s with caller := s.caller.notified }
  | runProxy {fiberIndex t waits} (hp : s.proxy = .queued t)
      (hs : waitStep s.waits (.beginWait p fiberIndex t) = some waits) :
      BlockingStep p s (.runProxy fiberIndex) { s with waits, proxy := .waiting t }
  | notify {t t'} (hp : s.proxy = .waiting t) (hw : s.waits.waits p = .returned t') :
      BlockingStep p s .notify { s with caller := s.caller.notified, proxy := .notified t }
  | waits {a waits} (ha : a.begins ≠ some p) (hs : waitStep s.waits a = some waits) :
      BlockingStep p s (.waits a) { s with waits }

/-- The step function takes no other steps. -/
theorem BlockingStep.of_blockingStep {p : ι} {s s' : BlockingState ι} {a : BlockingAction ι}
    (h : blockingStep p s a = some s') : BlockingStep p s a s' := by
  cases a with
  | call t =>
    simp only [blockingStep, Option.ite_none_right_eq_some, Option.some.injEq] at h
    obtain ⟨hc, rfl⟩ := h
    exact .call hc
  | caller full =>
    simp only [blockingStep, BlockingState.callerStep] at h
    split at h
    · next t hc =>
      split at h <;> cases h
      · next hv => exact .already (.inl hc) hv
      · exact .different (.inl ⟨hc, rfl⟩)
    · next t hc =>
      split at h <;> cases h
      · next hv => exact .already (.inr hc) hv
      · exact .different (.inr ⟨hc, rfl⟩)
    · next t hc =>
      cases full <;> cases h
      · exact .schedule hc
      · exact .queueFull hc
    · next t hc =>
      cases h
      exact .wait hc
    · next t hc =>
      cases h
      exact .leave hc
    · cases h
  | spurious =>
    simp only [blockingStep, Option.ite_none_right_eq_some, Option.some.injEq] at h
    obtain ⟨hc, rfl⟩ := h
    exact .spurious hc
  | runProxy fiberIndex =>
    simp only [blockingStep] at h
    split at h
    · next t hp =>
      obtain ⟨waits, hs, rfl⟩ := Option.map_eq_some_iff.mp h
      exact .runProxy hp hs
    · cases h
  | notify =>
    simp only [blockingStep] at h
    split at h
    · next hp hw =>
      cases h
      exact .notify hp hw
    · cases h
  | waits a =>
    simp only [blockingStep, Option.ite_none_left_eq_some] at h
    obtain ⟨ha, h⟩ := h
    obtain ⟨waits, hs, rfl⟩ := Option.map_eq_some_iff.mp h
    exact .waits ha hs

/-- The step that an action makes on the waits, if any. -/
def BlockingAction.onWaits (p : ι) (s : BlockingState ι) : BlockingAction ι → Option (WaitAction ι)
  | .waits a => some a
  | .runProxy fiberIndex =>
      match s.proxy with
      | .queued targetValue => some (.beginWait p fiberIndex targetValue)
      | _ => none
  | _ => none

/-- The run of the waits inside a run. -/
def BlockingState.waitHistory (p : ι) (h : History (BlockingState ι) (BlockingAction ι)) :
    History (WaitState ι) (WaitAction ι) :=
  h.image BlockingState.waits (BlockingAction.onWaits p)

/-- The counter has the value while the blocking call is in progress. -/
def AtCaller (value : CounterUnit) (s : BlockingState ι) : Prop :=
  s.caller.inProgress = true ∧ s.waits.counter.ctr.counter = value

instance (value : CounterUnit) : DecidablePred (AtCaller (ι := ι) value) :=
  fun _ => inferInstanceAs (Decidable (_ ∧ _))

/-- The caller does not sleep when its notification is over, it returns only after the counter has
had the target value during the call, and the proxy finds `cv` alive. -/
structure BlockingOk (h : History (BlockingState ι) (BlockingAction ι)) (s : BlockingState ι) :
    Prop where
  woken : ∀ targetValue, s.proxy = .notified targetValue → s.caller.sleeps = false
  reached : ∀ targetValue, s.caller = .returned targetValue → h.Once (AtCaller targetValue)
  untouched : ∀ e ∈ h, e.2.notifies = true → ∀ targetValue, e.1.caller ≠ .returned targetValue

/-- The condition of a run: the claims on the counter are in order, `notify_all` is not called while
the caller is between `ScheduleJob` and `cv.wait`, and `cv.wait` does not return without it. -/
def NotifiedInWait (p : ι) (h : History (BlockingState ι) (BlockingAction ι))
    (s : BlockingState ι) (a : BlockingAction ι) : Prop :=
  (∀ b ∈ a.onWaits p s, ClaimsInOrder (BlockingState.waitHistory p h) s.waits b) ∧
    match a with
    | .notify => s.caller.entersWait = false
    | .spurious => False
    | _ => True

end System

/-! ## The caller and its proxy -/

/-- Where the caller and the wait of the proxy are, at each point of the life of the job. -/
def ProxyJob.Agrees (c : BlockingCall) (w : WaitCall) : ProxyJob → Prop
  | .notScheduled => w = .notStarted ∧ c.sleeps = false ∧ ∀ t, c ≠ .woken t
  | .queued t => w = .notStarted ∧ (c = .lock t ∨ c = .waiting t)
  | .waiting t => w.target = some t ∧ (c = .lock t ∨ c = .waiting t)
  | .notified t => w = .returned t ∧ (c = .woken t ∨ c = .returned t)

section Run

variable [DecidableEq ι] {n : ℕ} {p : ι} {h : History (BlockingState ι) (BlockingAction ι)}
  {s s' : BlockingState ι} {a : BlockingAction ι}

/-- A step that does not begin wait `p` keeps its target, and leaves it as it is if it has not begun
or has returned. -/
theorem wait_of_other {w w' : WaitState ι} {b : WaitAction ι} (hb : b.begins ≠ some p)
    (hs : waitStep w b = some w') : (w'.waits p).target = (w.waits p).target ∧
      (w.waits p = .notStarted → w'.waits p = .notStarted) ∧
      ∀ t, w.waits p = .returned t → w'.waits p = .returned t := by
  -- a wait that moves is in progress, and goes on with the same target
  have hupdate : ∀ {x : ι} {c : WaitCall}, (x = p → c.target = (w.waits p).target ∧
      (w.waits p).inProgress = true) → (Function.update w.waits x c p).target = (w.waits p).target ∧
      (w.waits p = .notStarted → Function.update w.waits x c p = .notStarted) ∧
      ∀ t, w.waits p = .returned t → Function.update w.waits x c p = .returned t := by
    intro x c hx
    by_cases hxp : p = x
    · obtain ⟨htarget, hin⟩ := hx hxp.symm
      subst hxp
      rw [Function.update_self]
      exact ⟨htarget, fun heq => by simp [heq, WaitCall.inProgress] at hin,
        fun t heq => by simp [heq, WaitCall.inProgress] at hin⟩
    · rw [Function.update_of_ne hxp]
      exact ⟨rfl, id, fun _ => id⟩
  cases WaitStep.of_waitStep hs with
  | beginWait hw _ => exact hupdate fun hx => absurd (congrArg some hx) hb
  | already hw _ => exact hupdate (by rintro rfl; rw [hw]; exact ⟨rfl, rfl⟩)
  | register hw _ hreg _ => exact hupdate (by rintro rfl; rw [hw, hreg]; exact ⟨rfl, rfl⟩)
  | beginModify _ _ => exact ⟨rfl, id, fun _ => id⟩
  | step _ => exact ⟨rfl, id, fun _ => id⟩
  | resolved hw _ => exact hupdate (by rintro rfl; rw [hw]; exact ⟨rfl, rfl⟩)
  | sleep hw _ => exact hupdate (by rintro rfl; rw [hw]; exact ⟨rfl, rfl⟩)
  | resume hw _ => exact hupdate (by rintro rfl; rw [hw]; exact ⟨rfl, rfl⟩)

/-- Every step that meets the condition keeps the caller and the proxy in line. -/
theorem agrees_step (hi : s.proxy.Agrees s.caller (s.waits.waits p))
    (hok : NotifiedInWait p h s a) (hs : BlockingStep p s a s') :
    s'.proxy.Agrees s'.caller (s'.waits.waits p) := by
  -- what the steps of the caller before it schedules the job need to say
  have hbefore : ∀ {c : BlockingCall}, s.caller.sleeps = false → (∀ t, s.caller ≠ .woken t) →
      (∀ t, s.caller ≠ .returned t) → c.sleeps = false → (∀ t, c ≠ .woken t) →
      s.proxy.Agrees c (s.waits.waits p) := by
    intro c hsleeps hwoken hreturned hc hc'
    cases hp : s.proxy with
    | notScheduled =>
      rw [hp] at hi
      exact ⟨hi.1, hc, hc'⟩
    | queued t | waiting t =>
      rw [hp] at hi
      rcases hi.2 with heq | heq <;> simp [heq, BlockingCall.sleeps] at hsleeps
    | notified t =>
      rw [hp] at hi
      exact hi.2.elim (fun heq => absurd heq (hwoken t)) fun heq => absurd heq (hreturned t)
  cases hs with
  | call hc => exact hbefore (by rw [hc]; rfl) (by simp [hc]) (by simp [hc]) rfl nofun
  | already hc _ =>
    rcases hc with hc | hc <;>
      exact hbefore (by rw [hc]; rfl) (by simp [hc]) (by simp [hc]) rfl nofun
  | different hc =>
    rcases hc with ⟨hc, rfl⟩ | ⟨hc, rfl⟩ <;>
      exact hbefore (by rw [hc]; rfl) (by simp [hc]) (by simp [hc]) rfl nofun
  | queueFull hc => exact hbefore (by rw [hc]; rfl) (by simp [hc]) (by simp [hc]) rfl nofun
  -- the job is scheduled once: the caller is somewhere else as soon as there is a proxy
  | schedule hc =>
    cases hp : s.proxy with
    | notScheduled =>
      rw [hp] at hi
      exact ⟨hi.1, .inl rfl⟩
    | _ =>
      rw [hp, hc] at hi
      rcases hi.2 with heq | heq <;> cases heq
  | @wait _ t hc =>
    cases hp : s.proxy with
    | notScheduled =>
      rw [hp, hc] at hi
      cases hi.2.1
    | queued t' | waiting t' =>
      rw [hp, hc] at hi
      rcases hi.2 with heq | heq <;> cases heq
      exact ⟨hi.1, .inr rfl⟩
    | notified t' =>
      rw [hp, hc] at hi
      rcases hi.2 with heq | heq <;> cases heq
  -- only a notification wakes the caller, so that the proxy has come to its end
  | @leave _ t hc =>
    cases hp : s.proxy with
    | notScheduled =>
      rw [hp, hc] at hi
      exact absurd rfl (hi.2.2 t)
    | queued t' | waiting t' =>
      rw [hp, hc] at hi
      rcases hi.2 with heq | heq <;> cases heq
    | notified t' =>
      rw [hp, hc] at hi
      rcases hi.2 with heq | heq <;> cases heq
      exact ⟨hi.1, .inr rfl⟩
  | spurious hc => exact hok.2.elim
  | @runProxy fiberIndex t waits hp hstep =>
    rw [hp] at hi
    cases WaitStep.of_waitStep hstep with
    | beginWait _ _ => exact ⟨by simp [WaitState.setWait, WaitCall.target], hi.2⟩
  | @notify t t' hp hw =>
    rw [hp, hw] at hi
    obtain ⟨htarget, hc⟩ := hi
    obtain rfl : t' = t := Option.some.inj htarget
    refine ⟨hw, .inl ?_⟩
    -- the caller is not on its way to `cv.wait`, by the condition
    have hwait : s.caller.entersWait = false := hok.2
    rcases hc with hc | hc
    · simp [hc, BlockingCall.entersWait] at hwait
    · rw [hc]
      rfl
  | waits hb hstep =>
    obtain ⟨htarget, hnot, hret⟩ := wait_of_other hb hstep
    cases hp : s.proxy with
    | notScheduled | queued t =>
      rw [hp] at hi
      exact ⟨hnot hi.1, hi.2⟩
    | waiting t =>
      rw [hp] at hi
      exact ⟨htarget.trans hi.1, hi.2⟩
    | notified t =>
      rw [hp] at hi
      exact ⟨hret t hi.1, hi.2⟩

/-- The caller and the proxy are in line at the end of every run. -/
theorem agrees_of_run (hr : (blockingSystem n p).Run (NotifiedInWait p) h s) :
    s.proxy.Agrees s.caller (s.waits.waits p) := by
  refine hr.invariant (P := fun _ s => s.proxy.Agrees s.caller (s.waits.waits p)) ?_ ?_
  · rintro s rfl
    exact ⟨rfl, rfl, nofun⟩
  · intro h s a s' _ hi hok hs
    exact agrees_step hi hok (.of_blockingStep hs)

/-- The waits of a run make a run of their own. -/
theorem waits_of_blockingRun (hr : (blockingSystem n p).Run (NotifiedInWait p) h s) :
    (waitSystem n ι).Run ClaimsInOrder (BlockingState.waitHistory p h) s.waits := by
  refine hr.map (M := waitSystem n ι) BlockingState.waits (BlockingAction.onWaits p)
    (by rintro s rfl; rfl) ?_
  intro h s a s' hok hs
  cases BlockingStep.of_blockingStep hs with
  | @runProxy fiberIndex t waits hp hstep =>
    have hon : BlockingAction.onWaits p s (.runProxy fiberIndex) =
        some (.beginWait p fiberIndex t) := by
      simp [BlockingAction.onWaits, hp]
    exact .inr ⟨_, hon, hstep, hok.1 _ hon⟩
  | waits _ hstep => exact .inr ⟨_, rfl, hstep, hok.1 _ rfl⟩
  | _ => exact .inl ⟨rfl, rfl⟩

omit [DecidableEq ι] in
/-- A wait of the proxy that is in progress is part of the call. -/
theorem inProgress_of_proxy (hi : s.proxy.Agrees s.caller (s.waits.waits p))
    (hin : (s.waits.waits p).inProgress = true) : s.caller.inProgress = true := by
  cases hp : s.proxy with
  | notScheduled | queued t =>
    rw [hp] at hi
    simp [hi.1, WaitCall.inProgress] at hin
  | waiting t =>
    rw [hp] at hi
    rcases hi.2 with hc | hc <;> rw [hc] <;> rfl
  | notified t =>
    rw [hp] at hi
    simp [hi.1, WaitCall.inProgress] at hin

/-- A value that the wait of the proxy has seen, the counter has had during the call. -/
theorem atCaller_of_seen (hr : (blockingSystem n p).Run (NotifiedInWait p) h s)
    {t : CounterUnit} (hseen : (BlockingState.waitHistory p h).Once (At p t)) :
    h.Once (AtCaller t) := by
  obtain ⟨e, he, hin, hvalue⟩ := hseen.of_image
  obtain ⟨_, hr'⟩ := hr.before he
  exact ⟨e, he, inProgress_of_proxy (agrees_of_run hr') hin, hvalue⟩

/-- The caller has seen the target when it is woken, and when it has returned. -/
theorem reached_of_run (hr : (blockingSystem n p).Run (NotifiedInWait p) h s) :
    ∀ t, s.caller = .woken t ∨ s.caller = .returned t → h.Once (AtCaller t) := by
  refine hr.invariant (P := fun h s => ∀ t, s.caller = .woken t ∨ s.caller = .returned t →
    h.Once (AtCaller t)) ?_ ?_
  · rintro s rfl t (⟨⟨⟩⟩ | ⟨⟨⟩⟩)
  · intro h s a s' hr hi hok hs t hend
    have hagree := agrees_of_run hr
    cases BlockingStep.of_blockingStep hs with
    | call _ => rcases hend with hend | hend <;> cases hend
    | @already _ t' hc hv =>
      obtain rfl : t' = t := by simpa using hend
      refine .now ⟨?_, hv⟩ _ h
      rcases hc with hc | hc <;> rw [hc] <;> rfl
    | different hc =>
      rcases hc with ⟨-, rfl⟩ | ⟨-, rfl⟩ <;> rcases hend with hend | hend <;> cases hend
    | queueFull _ => rcases hend with hend | hend <;> cases hend
    | schedule _ => rcases hend with hend | hend <;> cases hend
    | wait _ => rcases hend with hend | hend <;> cases hend
    | @leave _ t' hc =>
      obtain rfl : t' = t := by simpa using hend
      exact (hi t' (.inl hc)).cons s _
    | spurious _ => exact hok.2.elim
    | runProxy _ _ => exact (hi t hend).cons s _
    | @notify t' t'' hp hw =>
      -- the wait of the proxy has returned, and so has seen its target
      have hwait : s.caller.entersWait = false := hok.2
      rw [hp, hw] at hagree
      obtain ⟨htarget, hc⟩ := hagree
      obtain rfl : t'' = t' := Option.some.inj htarget
      have hc' : s.caller = .waiting t'' := by
        rcases hc with hc | hc
        · simp [hc, BlockingCall.entersWait] at hwait
        · exact hc
      obtain rfl : t'' = t := by simpa [hc', BlockingCall.notified] using hend
      have hseen := (waitInv_of_run (waits_of_blockingRun hr)).seen.returned p t'' hw
      exact (atCaller_of_seen hr hseen).cons s _
    | waits _ _ => exact (hi t hend).cons s _

/-- In every run in which the claims on the counter are in order, `notify_all` does not come between
`ScheduleJob` and `cv.wait`, and nothing else ends this `wait`: the caller does not sleep through
its notification, does not return early, and is still there when the proxy notifies it. -/
theorem blocking_wait_ok (hr : (blockingSystem n p).Run (NotifiedInWait p) h s) :
    BlockingOk h s := by
  refine ⟨fun t hp => ?_, fun t hc => reached_of_run hr t (.inr hc), fun e he hnotify t hc => ?_⟩
  · have hagree := agrees_of_run hr
    rw [hp] at hagree
    rcases hagree.2 with hc | hc <;> rw [hc] <;> rfl
  -- at the step of the proxy the caller waits for it, and so has not returned
  · obtain ⟨_, hr'⟩ := hr.before he
    obtain ⟨after, before, rfl⟩ := List.append_of_mem he
    obtain ⟨s₁, hs, -⟩ := hr.after (R := fun _ _ => True) (fun _ => trivial)
      (fun _ _ _ _ _ => trivial) fun _ _ _ _ _ _ => trivial
    have hagree := agrees_of_run hr'
    obtain ⟨s₀, a⟩ := e
    obtain rfl : a = .notify := by cases a <;> first | rfl | cases hnotify
    have hc' : s₀.caller = .returned t := hc
    have hstep : BlockingStep p s₀ .notify s₁ := .of_blockingStep hs
    cases hstep with
    | notify hp hw =>
      rw [hp, hc'] at hagree
      rcases hagree.2 with heq | heq <;> cases heq

end Run

instance [DecidableEq ι] (p : ι) (h : History (BlockingState ι) (BlockingAction ι))
    (s : BlockingState ι) (a : BlockingAction ι) : Decidable (NotifiedInWait p h s a) :=
  have : Decidable (match a with
      | .notify => s.caller.entersWait = false
      | .spurious => False
      | _ => True) := by
    cases a <;> infer_instance
  inferInstanceAs (Decidable (_ ∧ _))

/-- A blocking wait for one, which is called when the counter is zero. -/
def callForOne : List (BlockingAction (Fin 2)) :=
  .call 1 :: List.replicate 3 (.caller false)

/-- The proxy finds the counter at one, and notifies the caller. -/
def proxyNotifies : List (BlockingAction (Fin 2)) :=
  [.runProxy 10, .waits (.beginModify 1 (.increment 1)), .waits (.step 1), .waits (.getValue 0),
    .notify]

theorem blocking_wait_ok_notified :
    ∃ h s, (blockingSystem 1 (0 : Fin 2)).Run (NotifiedInWait 0) h s ∧ s.caller = .returned 1 ∧
      s.proxy = .notified 1 ∧ BlockingOk h s := by
  have hrun : ∃ (h : History (BlockingState (Fin 2)) (BlockingAction (Fin 2)))
      (s : BlockingState (Fin 2)), (blockingSystem 1 (0 : Fin 2)).Run (NotifiedInWait 0) h s ∧
        s.caller = .returned 1 ∧ s.proxy = .notified 1 :=
    System.exists_run_of_trace rfl
      (callForOne ++ [.caller false] ++ proxyNotifies ++ [.caller false]) (by decide)
  obtain ⟨h, s, hr, hfacts⟩ := hrun
  exact ⟨h, s, hr, hfacts.1, hfacts.2, blocking_wait_ok hr⟩

/-- The proxy notifies before the caller is inside `cv.wait`, and the caller then sleeps; and after
a spurious wake-up the caller returns although the counter has not been one, and the proxy notifies
a `cv` that is gone. -/
theorem blocking_wait_fails :
    (∃ h s, (blockingSystem 1 (0 : Fin 2)).Run (fun _ _ _ => True) h s ∧
      s.caller = .waiting 1 ∧ s.proxy = .notified 1 ∧ ¬ BlockingOk h s) ∧
    (∃ h s, (blockingSystem 1 (0 : Fin 2)).Run (fun _ _ _ => True) h s ∧
      s.caller = .returned 1 ∧ ¬ h.Once (AtCaller 1) ∧ ¬ BlockingOk h s) ∧
    ∃ h s, (blockingSystem 1 (0 : Fin 2)).Run (fun _ _ _ => True) h s ∧
      (∃ e ∈ h, e.2.notifies = true ∧ e.1.caller = .returned 1) ∧ ¬ BlockingOk h s := by
  have hmissed : ∃ (h : History (BlockingState (Fin 2)) (BlockingAction (Fin 2)))
      (s : BlockingState (Fin 2)), (blockingSystem 1 (0 : Fin 2)).Run (fun _ _ _ => True) h s ∧
        s.caller = .waiting 1 ∧ s.proxy = .notified 1 :=
    System.exists_run_of_trace rfl (callForOne ++ proxyNotifies ++ [.caller false]) (by decide)
  have hearly : ∃ (h : History (BlockingState (Fin 2)) (BlockingAction (Fin 2)))
      (s : BlockingState (Fin 2)), (blockingSystem 1 (0 : Fin 2)).Run (fun _ _ _ => True) h s ∧
        s.caller = .returned 1 ∧ ¬ h.Once (AtCaller 1) :=
    System.exists_run_of_trace rfl (callForOne ++ [.caller false, .spurious, .caller false])
      (by decide)
  have hgone : ∃ (h : History (BlockingState (Fin 2)) (BlockingAction (Fin 2)))
      (s : BlockingState (Fin 2)), (blockingSystem 1 (0 : Fin 2)).Run (fun _ _ _ => True) h s ∧
        ∃ e ∈ h, e.2.notifies = true ∧ e.1.caller = .returned 1 :=
    System.exists_run_of_trace rfl
      (callForOne ++ [.caller false, .spurious, .caller false] ++ proxyNotifies) (by decide)
  refine ⟨?_, ?_, ?_⟩
  · obtain ⟨h, s, hr, hc, hp⟩ := hmissed
    refine ⟨h, s, hr, hc, hp, fun hok => ?_⟩
    have hsleeps := hok.woken 1 hp
    simp [hc, BlockingCall.sleeps] at hsleeps
  · obtain ⟨h, s, hr, hc, hnever⟩ := hearly
    exact ⟨h, s, hr, hc, hnever, fun hok => hnever (hok.reached 1 hc)⟩
  · obtain ⟨h, s, hr, e, he, hnotify, hc⟩ := hgone
    exact ⟨h, s, hr, ⟨e, he, hnotify, hc⟩, fun hok => hok.untouched e he hnotify 1 hc⟩

end NomadTasks
