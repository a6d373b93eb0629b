import NomadTasks.Manager.CounterCalls

/-!
# Rounds: a job with a counter of its own, and the wait for it

`WaitForSingle` and `Queue::Step` schedule one job with a counter that nobody else schedules with,
and wait until this counter is zero. While a fiber does so, it is in a round of that counter.

* `FiberPc.round`: the counter of whose round a fiber is.
* `ManagerState.todo`, `ManagerState.asked`: the jobs that are left for the rounds of a counter, and
  all that there have been.
* `RoundInv`: at most one fiber is in a round of a counter, and only this one schedules jobs with it
  and waits for it.
-/

namespace NomadTasks

open Transition Ownership

/-! ## Rounds -/

/-- Who schedules jobs with counter `c` and waits for it. -/
def CtrId.owner : CtrId → Caller
  | .user _ => .body
  | .tiny n => .single n
  | .queue q => .queue q

/-- The counter that a caller has for itself. -/
def Caller.ctr : Caller → Option CtrId
  | .body => none
  | .single n => some (.tiny n)
  | .queue q => some (.queue q)

theorem CtrId.eq_of_owner_ctr {c d : CtrId} (h : c.owner.ctr = some d) : d = c := by
  cases c <;> cases h <;> rfl

/-- A counter that some caller has for itself. -/
theorem CtrId.owner_ctr {c : CtrId} (h : c.owner ≠ .body) : c.owner.ctr = some c := by
  cases c with
  | user => exact absurd rfl h
  | tiny | queue => rfl

/-- The counter of whose round a fiber is. -/
def FiberPc.round : FiberPc → Option CtrId
  | .begin (.scheduleJob _ caller _ _) _ | .call (.scheduleJob _ caller _ _) _ _
  | .begin (.waitForCounter _ caller _ _) _ | .call (.waitForCounter _ caller _ _) _ _
  | .enqueue _ caller _ _ | .threw _ caller | .waitForCounter _ caller _ _ _
  | .cleanup _ (.waitForCounter _ caller) | .waited _ caller => caller.ctr
  | .queueStep _ q => some (.queue q)
  | _ => none

/-- The job that a fiber is scheduling. -/
def FiberPc.scheduled : FiberPc → Option JobInfo
  | .begin (.scheduleJob _ _ _ job) _ | .call (.scheduleJob _ _ _ job) _ _
  | .enqueue _ _ _ job => some job
  | _ => none

/-- The fiber is in `Queue::Step`, and has not looked at the jobs of the queue yet. -/
def FiberPc.atQueue : FiberPc → Bool
  | .queueStep .. => true
  | _ => false

/-- A job that a fiber schedules has the counter of the caller, or one of the user's if the caller
is the main callback or a delegate; and so has a wait. A caller waits for zero. -/
def FiberPc.OwnCounters : FiberPc → Prop
  | .begin (.scheduleJob _ caller _ _) c | .call (.scheduleJob _ caller _ _) c _ =>
      caller = c.owner
  | .enqueue _ caller _ job =>
      (∀ c, job.counter = some c → caller = c.owner) ∧ ∀ c, caller.ctr = some c →
        job.counter = some c
  | .begin (.waitForCounter _ caller v _) c | .call (.waitForCounter _ caller v _) c _
  | .waitForCounter _ caller c v _ => caller = c.owner ∧ (caller ≠ .body → v = 0)
  | .begin (.modify _ _) c | .call (.modify _ _) c _ => c.owner = .body
  | _ => True

namespace ManagerState

/-- A round of the counter may be in progress. -/
def busy (s : ManagerState) : CtrId → Bool
  | .user _ => false
  | .tiny n =>
      match s.singles n with
      | .waiting _ => true
      | _ => false
  | .queue q => s.executing q

/-- The jobs that are left for the rounds of counter `c`, the one of the round in progress first. -/
def todo (s : ManagerState) : CtrId → List JobInfo
  | .user _ => []
  | .tiny n =>
      match s.singles n with
      | .waiting job => [job]
      | _ => []
  | .queue q => (s.queues q).map Prod.snd

/-- The jobs that there have been for the rounds of counter `c`. -/
def asked (s : ManagerState) : CtrId → List JobInfo
  | .user _ => []
  | .tiny n =>
      match s.singles n with
      | .waiting job | .returned job => [job]
      | _ => []
  | .queue q => s.added q

end ManagerState

/-! ## What a step does -/

/-- The counter whose rounds the act begins or ends, or whose jobs it changes. -/
def Act.roundOf : Act → Option CtrId
  | .beginSingle n _ | .endWait (.single n) | .throwThrough (.single n) => some (.tiny n)
  | .addJob q _ _ | .enterExecute q | .leaveExecute q | .endWait (.queue q)
  | .throwThrough (.queue q) => some (.queue q)
  | _ => Option.none

/-- What a step does to the round that the fiber is in. -/
inductive RoundStep (s : ManagerState) : Option CtrId → Act → Option CtrId → Prop
  | same {r act} (hact : act.roundOf = none) : RoundStep s r act r
  | addJob {q prio job} (hq : s.executing q = false) (hjob : job.counter = some (.queue q)) :
      RoundStep s none (.addJob q prio job) none
  | beginSingle {n job} (hn : s.singles n = .notStarted) (hjob : job.counter = some (.tiny n)) :
      RoundStep s none (.beginSingle n job) (some (.tiny n))
  | enterExecute {q} (hq : s.executing q = false) :
      RoundStep s none (.enterExecute q) (some (.queue q))
  | endSingle {n} : RoundStep s (some (.tiny n)) (.endWait (.single n)) none
  | endQueue {q} : RoundStep s (some (.queue q)) (.endWait (.queue q)) (some (.queue q))
  | leaveExecute {q} : RoundStep s (some (.queue q)) (.leaveExecute q) none
  | throwSingle {n} : RoundStep s (some (.tiny n)) (.throwThrough (.single n)) none
  | throwQueue {q} : RoundStep s (some (.queue q)) (.throwThrough (.queue q)) none

section Step

variable {opts : ManagerOptions} {s : ManagerState} {t f tls : ℕ} {act : Act} {pc pc' : FiberPc}
  {c : CtrId}

/-- Every step of a fiber is one of these. -/
theorem FiberStep.roundStep (h : FiberStep opts s f tls pc act pc') :
    RoundStep s pc.round act pc'.round := by
  cases h with
  | opAddJob hq => exact .addJob hq rfl
  | opSingle hn => exact .beginSingle hn rfl
  | opExecute hq => exact .enterExecute hq
  | waitedSingle => exact .endSingle
  | waitedQueue => exact .endQueue
  | queueEmpty => exact .leaveExecute
  | @threw ctx caller =>
    cases caller with
    | body => exact .same rfl
    | single => exact .throwSingle
    | queue => exact .throwQueue
  | @previousPool k | @previousWaiting k | @storeIdle k | @storeStored k =>
    cases k <;> exact .same rfl
  | @«begin» use | @call use => cases use <;> exact .same rfl
  | _ => exact .same rfl

/-- An act leaves the rounds of other counters alone. -/
theorem ManagerState.apply_round (hne : act.roundOf ≠ some c) (s : ManagerState) (t f : ℕ) :
    (s.apply t f act).busy c = s.busy c ∧ (s.apply t f act).todo c = s.todo c ∧
      (s.apply t f act).asked c = s.asked c := by
  cases act with
  | beginSingle n job =>
    cases c with
    | tiny m =>
      have hmn : m ≠ n := by rintro rfl; exact hne rfl
      simp [ManagerState.busy, ManagerState.todo, ManagerState.asked, ManagerState.apply, hmn]
    | user | queue => exact ⟨rfl, rfl, rfl⟩
  | addJob q prio job =>
    cases c with
    | queue q' =>
      have hqq : q' ≠ q := by rintro rfl; exact hne rfl
      simp [ManagerState.busy, ManagerState.todo, ManagerState.asked, ManagerState.apply, hqq]
    | user | tiny => exact ⟨rfl, rfl, rfl⟩
  | enterExecute q | leaveExecute q =>
    cases c with
    | queue q' =>
      have hqq : q' ≠ q := by rintro rfl; exact hne rfl
      simp [ManagerState.busy, ManagerState.todo, ManagerState.asked, ManagerState.apply, hqq]
    | user | tiny => exact ⟨rfl, rfl, rfl⟩
  | endWait caller | throwThrough caller =>
    cases caller with
    | body => exact ⟨rfl, rfl, rfl⟩
    | single n =>
      cases c with
      | tiny m =>
        have hmn : m ≠ n := by rintro rfl; exact hne rfl
        simp [ManagerState.busy, ManagerState.todo, ManagerState.asked, ManagerState.apply, hmn]
      | user | queue => exact ⟨rfl, rfl, rfl⟩
    | queue q =>
      cases c with
      | queue q' =>
        have hqq : q' ≠ q := by rintro rfl; exact hne rfl
        simp [ManagerState.busy, ManagerState.todo, ManagerState.asked, ManagerState.apply, hqq]
      | user | tiny => exact ⟨rfl, rfl, rfl⟩
  | _ => cases c <;> exact ⟨rfl, rfl, rfl⟩

/-- The counters stay with their callers. -/
theorem FiberStep.ownCounters (h : FiberStep opts s f tls pc act pc') (hits : pc.OfItsCounter)
    (hqueues : ∀ q, ∀ e ∈ s.queues q, e.2.counter = some (.queue q)) (hpc : pc.OwnCounters) :
    pc'.OwnCounters := by
  cases h with
  | opSchedule => exact ⟨by simp, by simp [Caller.ctr]⟩
  | opScheduleCounter | opSingle | opModify => rfl
  | opWait => exact ⟨rfl, by simp⟩
  | @«begin» use | @call use => cases use <;> exact hpc
  | @incremented ctx caller prio job c x hx =>
    have hjob : job.counter = some c := hits
    have hcaller : caller = c.owner := hpc
    refine ⟨fun d hd => ?_, fun d hd => ?_⟩
    · rw [hjob] at hd
      cases hd
      exact hcaller
    · rw [hcaller] at hd
      rw [hjob, CtrId.eq_of_owner_ctr hd]
  | enqueueSingle | enqueueQueue => exact ⟨rfl, by simp⟩
  | newStored | addReached | addWaits | waitNotReached | waitSetPrevious | waitSetDestination
  | waitSetStored | waitSearch | waitFound | waitSetCurrent | waitSwitchTo => exact hpc
  | @queueFrontPlain ctx q prio rest job hq hc =>
    have hjob := hqueues q (prio, job) (by simp [hq])
    rw [hc] at hjob
    cases hjob
  | @queueFront ctx q prio rest d job hq hc =>
    have hjob := hqueues q (prio, job) (by simp [hq])
    rw [hc] at hjob
    cases hjob
    rfl
  | _ => trivial

/-- A fiber in a round has taken the first of the jobs that are left. -/
theorem FiberStep.front (h : FiberStep opts s f tls pc act pc') (hround : pc'.round = some c)
    (hat : pc'.atQueue = false) :
    (pc.round = some c ∧ pc.atQueue = false ∧ act.roundOf = none ∧
        ∀ j, pc'.scheduled = some j → pc.scheduled = some j) ∨
      (∃ ctx q prio job rest, pc = .queueStep ctx q ∧ c = .queue q ∧
        s.queues q = (prio, job) :: rest ∧ act = .none ∧ pc'.scheduled = some job) ∨
      ∃ n job, c = .tiny n ∧ act = .beginSingle n job ∧ pc'.scheduled = some job := by
  cases h with
  | opSingle =>
    cases hround
    exact .inr (.inr ⟨_, _, rfl, rfl, rfl⟩)
  | queueFrontPlain hq | queueFront hq =>
    cases hround
    exact .inr (.inl ⟨_, _, _, _, _, rfl, rfl, hq, rfl, rfl⟩)
  | @«begin» use | @call use => cases use <;> exact .inl ⟨hround, rfl, rfl, fun _ hj => hj⟩
  | @previousPool k | @previousWaiting k | @storeIdle k | @storeStored k =>
    cases k <;> exact .inl ⟨hround, rfl, rfl, fun _ hj => by cases hj⟩
  | incremented => exact .inl ⟨hround, rfl, rfl, fun _ hj => hj⟩
  | enqueueSingle | enqueueQueue | enqueueFail | addReached | addWaits | addThrew | waitReached
  | waitNotReached | newStored | deleteStored | waitSetPrevious | waitSetDestination | waitSetStored
  | waitSearch | waitFound | waitSetCurrent | waitSwitchTo | waitResumed | nothingWait
  | cleanupWait =>
    exact .inl ⟨hround, rfl, rfl, fun _ hj => by cases hj⟩
  | opExecute | waitedQueue => cases hat
  | _ => cases hround

end Step

/-! ## The jobs of the rounds -/

namespace RoundStep

variable {s : ManagerState} {t f : ℕ} {act : Act} {r r' : Option CtrId} {c : CtrId}

/-- A step of another fiber leaves a round in progress alone. -/
theorem frame (h : RoundStep s r act r') (hr : r ≠ some c) (hr' : r' ≠ some c)
    (hbusy : s.busy c = true) : (s.apply t f act).busy c = s.busy c ∧
      (s.apply t f act).todo c = s.todo c ∧ (s.apply t f act).asked c = s.asked c := by
  apply ManagerState.apply_round
  cases h with
  | same hact => simp [hact]
  | addJob hq =>
    rintro ⟨⟩
    simp [ManagerState.busy, hq] at hbusy
  | beginSingle | enterExecute => exact hr'
  | endSingle | endQueue | leaveExecute | throwSingle | throwQueue => exact hr

/-- Jobs that are new have the counter of the rounds that they are for. -/
theorem mem_todo (h : RoundStep s r act r') {job : JobInfo}
    (hjob : job ∈ (s.apply t f act).todo c) : job ∈ s.todo c ∨ job.counter = some c := by
  by_cases hact : act.roundOf = some c
  · cases h with
    | same hnone =>
      rw [hnone] at hact
      cases hact
    | addJob hq hctr =>
      cases hact
      simp only [ManagerState.todo, ManagerState.apply, Function.update_self, List.map_append,
        List.mem_append, List.map_cons, List.map_nil, List.mem_singleton] at hjob
      refine hjob.imp_right ?_
      rintro rfl
      exact hctr
    | beginSingle hn hctr =>
      cases hact
      simp only [ManagerState.todo, ManagerState.apply, Function.update_self,
        List.mem_singleton] at hjob
      exact .inr (hjob ▸ hctr)
    | enterExecute | leaveExecute | throwQueue =>
      cases hact
      exact .inl hjob
    | @endSingle n =>
      cases hact
      cases hn : s.singles n <;>
        simp [ManagerState.todo, ManagerState.apply, SingleCall.return, hn] at hjob
    | throwSingle =>
      cases hact
      simp [ManagerState.todo, ManagerState.apply] at hjob
    | endQueue =>
      cases hact
      simp only [ManagerState.todo, ManagerState.apply, Function.update_self,
        List.map_tail] at hjob
      exact .inl (List.mem_of_mem_tail hjob)
  · rw [(ManagerState.apply_round hact s t f).2.1] at hjob
    exact .inl hjob

end RoundStep

/-! ## The invariant -/

/-- At most one fiber is in a round of a counter. It schedules the first of the jobs that are left,
and a job is scheduled and waited for with the counter of its caller. -/
structure RoundInv (s : ManagerState) : Prop where
  own : ∀ f, (s.fibers f).pc.OwnCounters
  exclusive : Exclusive fun f => (s.fibers f).pc.round
  busy : ∀ f c, (s.fibers f).pc.round = some c → s.busy c = true
  front : ∀ f c, (s.fibers f).pc.round = some c → (s.fibers f).pc.atQueue = false →
    ∃ job rest, s.todo c = job :: rest ∧ ∀ j, (s.fibers f).pc.scheduled = some j → j = job
  counter : ∀ c, ∀ job ∈ s.todo c, job.counter = some c

namespace RoundInv

variable {opts : ManagerOptions} {s s' : ManagerState} {t f tls : ℕ} {act : Act} {pc' : FiberPc}
  {c : CtrId}

/-- Nobody is in a round of a counter that is not busy. -/
theorem round_ne (hi : RoundInv s) (hbusy : s.busy c = false) (g : ℕ) :
    (s.fibers g).pc.round ≠ some c := by
  intro hg
  rw [hi.busy g c hg] at hbusy
  cases hbusy

/-- After a step of fiber `f`, at most one fiber is in a round of a counter. -/
private theorem exclusive_step (hi : RoundInv s)
    (h : RoundStep s (s.fibers f).pc.round act pc'.round) :
    Exclusive (Function.update (fun g => (s.fibers g).pc.round) f pc'.round) := by
  generalize hr : (s.fibers f).pc.round = r at h
  generalize pc'.round = r' at h
  cases h with
  | same | endQueue => exact hi.exclusive.keep hr.symm
  | addJob => exact hi.exclusive.drop f
  | endSingle | leaveExecute | throwSingle | throwQueue => exact hi.exclusive.drop f
  | beginSingle hn =>
    exact hi.exclusive.acquire (hi.round_ne (by simp [ManagerState.busy, hn]))
  | enterExecute hq =>
    exact hi.exclusive.acquire (hi.round_ne (by simp [ManagerState.busy, hq]))

/-- After a step of fiber `f`, the counter of its round is busy. -/
private theorem busy_self (hi : RoundInv s)
    (h : RoundStep s (s.fibers f).pc.round act pc'.round) (hc : pc'.round = some c) :
    (s.apply t f act).busy c = true := by
  have hbusy := hi.busy f c
  generalize (s.fibers f).pc.round = r at h hbusy
  rw [hc] at h
  cases h with
  | same hact =>
    rw [(ManagerState.apply_round (by simp [hact]) s t f).1]
    exact hbusy rfl
  | endQueue => exact hbusy rfl
  | beginSingle | enterExecute => simp [ManagerState.busy, ManagerState.apply]

/-- A step of another fiber `f` leaves the round of `g` alone. -/
theorem frame (hi : RoundInv s) (h : FiberStep opts s f tls (s.fibers f).pc act pc') {g : ℕ}
    (hgf : g ≠ f) (hg : (s.fibers g).pc.round = some c) :
    (s.apply t f act).busy c = s.busy c ∧ (s.apply t f act).todo c = s.todo c ∧
      (s.apply t f act).asked c = s.asked c := by
  have hnew : pc'.round ≠ some c := by
    intro hc
    have hex := hi.exclusive_step h.roundStep
    exact hgf (hex g f c (by simpa [hgf] using hg) (by simpa using hc))
  exact h.roundStep.frame (fun hf => hgf (hi.exclusive g f c hg hf)) hnew (hi.busy g c hg)

/-- Every step of a fiber keeps the invariant. -/
theorem fiber_step (hi : RoundInv s) (hcalls : CallsInv s)
    (h : FiberStep opts s f tls (s.fibers f).pc act pc') (fiber : FiberState)
    (hfiber : fiber.pc = pc') : RoundInv ((s.apply t f act).setFiber f fiber) := by
  have hround := h.roundStep
  have hself : (((s.apply t f act).setFiber f fiber).fibers f).pc = pc' := by simp [hfiber]
  have hother : ∀ g, g ≠ f → ((s.apply t f act).setFiber f fiber).fibers g = s.fibers g :=
    fun g hg => by simp [hg]
  have hqueues : ∀ q, ∀ e ∈ s.queues q, e.2.counter = some (.queue q) := fun q e he =>
    hi.counter (.queue q) e.2 (List.mem_map_of_mem he)
  -- the step is in the round of its own fiber, and leaves those of the others
  refine ⟨fun g => ?_, ?_, fun g c hg => ?_, fun g c hg hat => ?_, fun c job hjob => ?_⟩
  · by_cases hgf : g = f
    · subst hgf
      rw [hself]
      exact h.ownCounters (hcalls.itsCounter g) hqueues (hi.own g)
    · rw [hother g hgf]
      exact hi.own g
  · have heq : (fun g => (((s.apply t f act).setFiber f fiber).fibers g).pc.round) =
        Function.update (fun g => (s.fibers g).pc.round) f pc'.round := by
      funext g
      by_cases hgf : g = f
      · subst hgf
        rw [hself, Function.update_self]
      · rw [hother g hgf, Function.update_of_ne hgf]
    rw [heq]
    exact hi.exclusive_step hround
  · show (s.apply t f act).busy c = true
    by_cases hgf : g = f
    · subst hgf
      rw [hself] at hg
      exact hi.busy_self hround hg
    · rw [hother g hgf] at hg
      rw [(hi.frame h hgf hg).1]
      exact hi.busy g c hg
  · show ∃ job rest, (s.apply t f act).todo c = job :: rest ∧ _
    by_cases hgf : g = f
    · subst hgf
      rw [hself] at hg hat ⊢
      rcases h.front hg hat with ⟨hold, holdAt, hact, hsched⟩ |
        ⟨ctx, q, prio, job, rest, -, rfl, hq, rfl, hsched⟩ | ⟨n, job, rfl, rfl, hsched⟩
      · obtain ⟨job, rest, htodo, hjob⟩ := hi.front g c hold holdAt
        refine ⟨job, rest, ?_, fun j hj => hjob j (hsched j hj)⟩
        rw [(ManagerState.apply_round (by simp [hact]) s t g).2.1, htodo]
      · refine ⟨job, rest.map Prod.snd, by simp [ManagerState.todo, ManagerState.apply, hq],
          fun j hj => ?_⟩
        rw [hsched] at hj
        exact (Option.some.inj hj).symm
      · refine ⟨job, [], by simp [ManagerState.todo, ManagerState.apply], fun j hj => ?_⟩
        rw [hsched] at hj
        exact (Option.some.inj hj).symm
    · rw [hother g hgf] at hg hat ⊢
      rw [(hi.frame h hgf hg).2.1]
      exact hi.front g c hg hat
  · exact (hround.mem_todo hjob).elim (hi.counter c job) id

/-- Every step keeps the invariant. -/
theorem step {a : ManagerAction} (hi : RoundInv s) (hcalls : CallsInv s)
    (hs : managerStep opts s a = some s') : RoundInv s' := by
  rcases managerStep_inv hs with
    ⟨f, pc, act, pc', hrun, rfl, h, rfl⟩ | ⟨pc, act, pc', hrun, rfl, h, rfl⟩
  · exact hi.fiber_step hcalls h ⟨_, pc'⟩ rfl
  -- the own code of a thread has nothing to do with rounds
  · have hact : act.roundOf = none := by
      generalize s.threads a.thread = pc₀ at h
      cases h <;> rfl
    have hkept : ∀ c, _ := fun c =>
      ManagerState.apply_round (show act.roundOf ≠ some c by simp [hact]) s a.thread noFiber
    have hfibers : ((s.apply a.thread noFiber act).setThread a.thread pc').fibers = s.fibers :=
      ManagerState.apply_fibers ..
    refine ⟨fun f => ?_, ?_, fun f c hf => ?_, fun f c hf hat => ?_, fun c job hjob => ?_⟩
    · rw [hfibers]
      exact hi.own f
    · rw [hfibers]
      exact hi.exclusive
    · rw [hfibers] at hf
      exact (hkept c).1.trans (hi.busy f c hf)
    · rw [hfibers] at hf hat ⊢
      obtain ⟨job, rest, htodo, hjob⟩ := hi.front f c hf hat
      exact ⟨job, rest, (hkept c).2.1.trans htodo, hjob⟩
    · have htodo : job ∈ s.todo c := by rwa [← (hkept c).2.1]
      exact hi.counter c job htodo

theorem start (opts : ManagerOptions) : RoundInv (.start opts) where
  own _ := trivial
  exclusive := .none
  busy _ _ h := by cases h
  front _ _ h := by cases h
  counter c job hjob := by cases c <;> cases hjob

end RoundInv

/-- In every run, at most one fiber is in a round of a counter. -/
theorem roundInv_of_run {opts : ManagerOptions}
    {ok : History ManagerState ManagerAction → ManagerState → ManagerAction → Prop}
    {h : History ManagerState ManagerAction} {s : ManagerState}
    (hr : (managerSystem opts).Run ok h s) : RoundInv s := by
  induction hr with
  | init hs =>
    obtain rfl := hs
    exact .start opts
  | step hr _ hs ih => exact ih.step (callsInv_of_run hr) hs

end NomadTasks
