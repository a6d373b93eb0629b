import NomadTasks.Manager.RoundEnd

/-!
# One job after the other

`Queue::Execute` executes the jobs of a queue one after the other, on whatever threads: each in a
round of the queue's counter.

* `ManagerState.delegatesOf`: the calls of the delegates of the jobs bound to a counter.
* `DelegatesInv`: what has been called, what is left of the outstanding job, and the jobs of later
  rounds make up the jobs that there have been, in their order.
* `queue_in_turn`: the jobs of a `Queue` are executed once each, in the order in which they have
  been added, and each one after the one before has finished.
* `queue_consecutive`: when `Execute` returns, all of them have finished.
* `queue_two_at_once`: a scan that is late lets `Execute` go on while a job is running.
-/

namespace NomadTasks

open Transition Ownership

/-! ## The calls of the delegates -/

/-- What happens to the delegate of a job that is executed. -/
def JobInfo.events (job : JobInfo) : List DelegateEvent :=
  match job.delegate with
  | none => []
  | some _ => [.called job, .finished job]

/-- The calls of the delegates of the jobs that are bound to counter `c`. -/
def ManagerState.delegatesOf (s : ManagerState) (c : CtrId) : List DelegateEvent :=
  s.delegates.filter fun e => e.job.counter = some c

/-- What an act adds to them. -/
def Act.delegateEvents (c : CtrId) : Act → List DelegateEvent
  | .callDelegate job => if job.counter = some c then [.called job] else []
  | .finishDelegate job => if job.counter = some c then [.finished job] else []
  | _ => []

theorem ManagerState.delegatesOf_apply (s : ManagerState) (t f : ℕ) (act : Act) (c : CtrId) :
    (s.apply t f act).delegatesOf c = s.delegatesOf c ++ act.delegateEvents c := by
  cases act with
  | callDelegate job | finishDelegate job =>
    by_cases hjob : job.counter = some c <;>
      simp [ManagerState.delegatesOf, ManagerState.apply, Act.delegateEvents, DelegateEvent.job,
        hjob]
  | endWait caller | throwThrough caller => cases caller <;> exact (List.append_nil _).symm
  | _ => exact (List.append_nil _).symm

/-- What is left of a job that has been taken from a queue, if it is bound to counter `c`. -/
def JobInfo.rest (c : CtrId) (job : JobInfo) : List DelegateEvent :=
  if job.counter = some c then job.events else []

/-- What is left of the job whose delegate runs, if it is bound to counter `c`. -/
def Ctx.rest (c : CtrId) : Ctx → List DelegateEvent
  | .main => []
  | .job info => if info.counter = some c then [.finished info] else []

/-- What is left of a job bound to counter `c` that a fiber has at a program point: the one that it
executes, or the one that it schedules, from the `fetch_add` on. -/
def ManagerState.rest (s : ManagerState) (c : CtrId) : FiberPc → List DelegateEvent
  | .execute job => job.rest c
  | .cleanup _ (.waitForCounter ctx _) | .body ctx | .begin (.scheduleJob ctx _ _ _) _
  | .begin (.waitForCounter ctx _ _ _) _ | .begin (.modify ctx _) _
  | .call (.waitForCounter ctx _ _ _) _ _ | .call (.modify ctx _) _ _ | .threw ctx _
  | .waitForCounter ctx _ _ _ _ | .waited ctx _ | .queueStep ctx _ => ctx.rest c
  | .call (.scheduleJob ctx _ _ job) d x =>
      ctx.rest c ++ if d = c ∧ ((s.counters d).calls x).modified = true then job.events else []
  | .enqueue ctx _ _ job => ctx.rest c ++ job.rest c
  | _ => []

section Rest

variable {opts : ManagerOptions} {s s' : ManagerState} {t f tls : ℕ} {act : Act} {c d : CtrId}
  {use : CounterUse} {x : ℕ} {pc pc' : FiberPc}

/-- A job that is not bound to the counter leaves nothing. -/
theorem Ctx.rest_of_owes {ctx : Ctx} (h : ctx.owes c = 0) : ctx.rest c = [] := by
  cases ctx with
  | main => rfl
  | job info =>
    have hne : info.counter ≠ some c := by simpa [Ctx.owes, JobInfo.owes] using h
    simp [Ctx.rest, hne]

/-- What is left depends on whether a call on the counter has changed the value. -/
theorem ManagerState.rest_congr (h : ∀ use x, pc = .call use c x →
    ((s'.counters c).calls x).modified = ((s.counters c).calls x).modified) :
    s'.rest c pc = s.rest c pc := by
  cases pc with
  | call use d x =>
    by_cases hd : d = c
    · subst hd
      cases use <;> simp only [ManagerState.rest, h _ x rfl]
    · cases use <;> simp [ManagerState.rest, hd]
  | cleanup pc caller => cases caller <;> rfl
  | «begin» use d => cases use <;> rfl
  | _ => rfl

/-- A fiber without a job that is bound to the counter has nothing left to do for it. -/
theorem ManagerState.rest_of_owes (h : s.owes c pc = 0) : s.rest c pc = [] := by
  have hjob : ∀ job : JobInfo, job.owes c = 0 → job.rest c = [] := by
    intro job hjob
    have hne : job.counter ≠ some c := by simpa [JobInfo.owes] using hjob
    simp [JobInfo.rest, hne]
  cases pc with
  | execute job => exact hjob job h
  | enqueue ctx caller prio job =>
    obtain ⟨hctx, hj⟩ := Nat.add_eq_zero_iff.mp h
    simp [ManagerState.rest, Ctx.rest_of_owes hctx, hjob job hj]
  | «begin» use d =>
    cases use with
    | execute => rfl
    | _ => exact Ctx.rest_of_owes h
  | call use d x =>
    cases use with
    | execute => rfl
    | scheduleJob ctx =>
      obtain ⟨hctx, hcall⟩ := Nat.add_eq_zero_iff.mp h
      have hnot : ¬ (d = c ∧ ((s.counters d).calls x).modified = true) := by simpa using hcall
      simp only [ManagerState.rest, Ctx.rest_of_owes hctx, hnot, if_false, List.append_nil]
    | _ => exact Ctx.rest_of_owes h
  | cleanup pc caller =>
    cases caller with
    | waitForCounter => exact Ctx.rest_of_owes h
    | _ => rfl
  | body | threw | waitForCounter | waited | queueStep => exact Ctx.rest_of_owes h
  | _ => rfl

/-- A call that begins has not changed the value yet. -/
theorem ManagerState.rest_begin (h : d = c → ((s'.counters d).calls x).modified = false) :
    s'.rest c (.call use d x) = s.rest c (.begin use d) := by
  by_cases hd : d = c
  · cases use <;> simp [ManagerState.rest, h hd]
  · cases use <;> simp [ManagerState.rest, hd]

/-- A step that neither takes a job from a queue nor puts one there nor does anything to a counter
goes on with the job that the fiber has. -/
theorem FiberStep.rest (h : FiberStep opts s f tls pc act pc') (hact : ∀ d a, act ≠ .counter d a)
    (henq : ∀ prio job, act ≠ .enqueue prio job) (hdeq : ∀ prio, act ≠ .dequeue prio)
    (hits : pc.OfItsCounter)
    (hmakes : ∀ use d x, pc = .call use d x → use.Makes ((s.counters d).calls x))
    (hclean : ∀ ctx caller prio job, pc = .enqueue ctx caller prio job →
      pc' = .threw ctx caller → job.counter ≠ some c) :
    s.rest c pc = act.delegateEvents c ++ s'.rest c pc' := by
  cases h with
  | enqueue | enqueueSingle | enqueueQueue => exact absurd rfl (henq _ _)
  | dequeueIo | dequeueHigh | dequeueNormal | dequeueLow => exact absurd rfl (hdeq _)
  | «begin» | call => exact absurd rfl (hact _ _)
  | execute hd =>
    simp only [ManagerState.rest, JobInfo.rest, Ctx.rest, Act.delegateEvents, JobInfo.events, hd]
    split <;> rfl
  | executeNull hd hc | executeNullDecrement hd hc =>
    simp [ManagerState.rest, JobInfo.rest, JobInfo.events, hd, Act.delegateEvents]
  | opFinishJob hc =>
    simp [ManagerState.rest, Ctx.rest, hc, Act.delegateEvents]
  | opFinishDecrement hc =>
    simp only [ManagerState.rest, Ctx.rest, Act.delegateEvents]
    split <;> rfl
  | opSchedule | opScheduleCounter | opSingle | queueFrontPlain hq hc =>
    simp [ManagerState.rest, JobInfo.rest, Act.delegateEvents, *]
  | @incremented ctx caller prio job d x hx =>
    have hd : job.counter = some d := hits
    simp [ManagerState.rest, JobInfo.rest, hd, (hmakes _ d x rfl).modified_of_ended hx (by simp),
      Act.delegateEvents]
  | enqueueFail =>
    simp [ManagerState.rest, JobInfo.rest, hclean _ _ _ _ rfl rfl, Act.delegateEvents]
  | @previousPool k | @previousWaiting k | @storeIdle k | @storeStored k => cases k <;> rfl
  | _ => rfl

end Rest

/-! ## What a step moves -/

/-- What a step of a fiber does with the job bound to counter `c` that is outstanding: the fiber
goes on with what it has, or puts the job into a queue, or takes it from one. -/
inductive JobMove (c : CtrId) (s s' : ManagerState) : FiberPc → Act → FiberPc → Prop
  | goesOn {pc act pc'} (howes : s'.owes c pc' = s.owes c pc)
      (hrest : s.rest c pc = act.delegateEvents c ++ s'.rest c pc')
      (hjobs : ∀ prio job, job.counter = some c → job ∈ s'.jobs prio → job ∈ s.jobs prio) :
      JobMove c s s' pc act pc'
  | enqueues {ctx caller prio job pc'} (hjob : job.counter = some c)
      (hjobs : s'.jobs = Function.update s.jobs prio (s.jobs prio ++ [job])) :
      JobMove c s s' (.enqueue ctx caller prio job) (.enqueue prio job) pc'
  | dequeues {pc prio job rest} (hjob : job.counter = some c) (hj : s.jobs prio = job :: rest) :
      JobMove c s s' pc (.dequeue prio) (.execute job)

/-- The job of the round that a fiber is in has been counted. -/
def ManagerState.counted (s : ManagerState) : FiberPc → Bool
  | .call (.scheduleJob ..) c x => ((s.counters c).calls x).modified
  | .enqueue .. | .threw .. | .begin (.waitForCounter ..) _ | .call (.waitForCounter ..) _ _
  | .waitForCounter .. | .cleanup _ (.waitForCounter ..) | .waited .. => true
  | _ => false

section Moves

variable {opts : ManagerOptions} {s s' : ManagerState} {t f tls : ℕ} {act : Act} {c : CtrId}
  {pc pc' : FiberPc}

/-- A step that takes a job from a queue. -/
private theorem JobMove.dequeue {pc : NextJobPc} {prio : JobPriority} {job : JobInfo}
    {rest : List JobInfo} (hj : s.jobs prio = job :: rest)
    (hjobs : s'.jobs = Function.update s.jobs prio (s.jobs prio).tail) :
    JobMove c s s' (.getNextJob pc) (.dequeue prio) (.execute job) := by
  by_cases hjob : job.counter = some c
  · exact .dequeues hjob hj
  refine .goesOn ?_ ?_ fun prio' job' _ hmem => ?_
  · simp [ManagerState.owes, JobInfo.owes, hjob]
  · simp [ManagerState.rest, JobInfo.rest, hjob, Act.delegateEvents]
  · rw [hjobs] at hmem
    by_cases hprio : prio' = prio
    · subst hprio
      rw [Function.update_self] at hmem
      exact List.mem_of_mem_tail hmem
    · rwa [Function.update_of_ne hprio] at hmem

/-- A step that puts a job into a queue. -/
private theorem JobMove.enqueue {ctx : Ctx} {caller : Caller} {prio : JobPriority} {job : JobInfo}
    (howes : s'.owes c pc' = ctx.owes c) (hrest : s'.rest c pc' = ctx.rest c)
    (hjobs : s'.jobs = Function.update s.jobs prio (s.jobs prio ++ [job])) :
    JobMove c s s' (.enqueue ctx caller prio job) (.enqueue prio job) pc' := by
  by_cases hjob : job.counter = some c
  · exact .enqueues hjob hjobs
  -- a job that is not bound to the counter changes nothing for it
  refine .goesOn ?_ ?_ fun prio' job' hjob' hmem => ?_
  · rw [howes]
    simp [ManagerState.owes, JobInfo.owes, hjob]
  · rw [hrest]
    simp [ManagerState.rest, JobInfo.rest, hjob, Act.delegateEvents]
  · rw [hjobs] at hmem
    by_cases hprio : prio' = prio
    · subst hprio
      rw [Function.update_self, List.mem_append, List.mem_singleton] at hmem
      rcases hmem with hmem | rfl
      · exact hmem
      · exact absurd hjob' hjob
    · rwa [Function.update_of_ne hprio] at hmem

/-- Every step of a fiber that does nothing to a counter is such a move. -/
theorem FiberStep.jobMove_plain (h : FiberStep opts s f tls pc act pc')
    (hact : ∀ d a, act ≠ .counter d a) (hits : pc.OfItsCounter)
    (hmakes : ∀ use d x, pc = .call use d x → use.Makes ((s.counters d).calls x))
    (hclean : ∀ ctx caller prio job, pc = .enqueue ctx caller prio job →
      pc' = .threw ctx caller → job.counter ≠ some c) (fiber : FiberState) :
    JobMove c s ((s.apply t f act).setFiber f fiber) pc act pc' := by
  -- the job in hand goes into a queue
  by_cases henq : ∃ prio job, act = .enqueue prio job
  · obtain ⟨prio, job, rfl⟩ := henq
    generalize hb : Act.enqueue prio job = act at h
    cases h with
    | enqueue | enqueueSingle | enqueueQueue =>
      cases hb
      exact .enqueue rfl rfl rfl
    | @«begin» use => cases use <;> cases hb
    | _ => cases hb
  -- a job comes out of a queue
  by_cases hdeq : ∃ prio, act = .dequeue prio
  · obtain ⟨prio, rfl⟩ := hdeq
    generalize hb : Act.dequeue prio = act at h
    cases h with
    | dequeueIo hj | dequeueHigh hj | dequeueNormal hj | dequeueLow hj =>
      cases hb
      exact .dequeue hj rfl
    | @«begin» use => cases use <;> cases hb
    | _ => cases hb
  have henq' : ∀ prio job, act ≠ .enqueue prio job := fun prio job h => henq ⟨prio, job, h⟩
  have hdeq' : ∀ prio, act ≠ .dequeue prio := fun prio h => hdeq ⟨prio, h⟩
  -- the fiber goes on with what it has
  refine .goesOn ?_ (h.rest hact henq' hdeq' hits hmakes hclean) fun prio job _ hmem => ?_
  · have hplain := h.owes_plain (t := t) hact hits hmakes hclean
    rw [ManagerState.queued_other henq' hdeq'] at hplain
    refine Eq.trans (ManagerState.owes_congr fun use x hpc => ?_) (Nat.add_left_cancel hplain)
    rcases h.counter_cases with ⟨_, _, _, -, -, -, ha⟩ | ⟨_, _, _, -, -, -, ha⟩ | ⟨-, hno⟩
    · exact absurd ha (hact _ _)
    · exact absurd ha (hact _ _)
    · exact absurd hpc (hno use c x)
  · simpa only [ManagerState.setFiber_jobs, ManagerState.apply_jobs (henq' prio) (hdeq' prio)]
      using hmem

/-- Every step of a fiber that does not change the value of the counter is such a move. -/
theorem FiberStep.jobMove (h : FiberStep opts s f tls (s.fibers f).pc act pc') (hi : CallsInv s)
    (hclean : ∀ ctx caller prio job, (s.fibers f).pc = .enqueue ctx caller prio job →
      pc' = .threw ctx caller → job.counter ≠ some c) {fiber : FiberState}
    (hs' : s' = (s.apply t f act).setFiber f fiber)
    (hkeep : ModifiedKept c s s' (s.fibers f).pc pc') : JobMove c s s' (s.fibers f).pc act pc' := by
  have hjobs : ∀ d a, act = .counter d a → s'.jobs = s.jobs := by
    rintro d a rfl
    rw [hs']
    rfl
  rcases h.counter_cases with ⟨use, d, x, hpc, rfl, -, hact⟩ | ⟨use, d, x, hpc, rfl, -, hact⟩ |
    ⟨hact, -⟩
  · have hbegun : d = c → ((s'.counters d).calls x).modified = false := by
      rintro rfl
      rcases hkeep use x rfl with ⟨-, hmod⟩ | ⟨hcall, -⟩
      · exact hmod
      · cases hpc.symm.trans hcall
    rw [hpc]
    refine .goesOn (ManagerState.owes_begin hbegun) ?_ fun prio job _ hmem => ?_
    · rw [ManagerState.rest_begin hbegun, hact]
      rfl
    · rwa [hjobs _ _ hact] at hmem
  · have hsame : ∀ use' y, FiberPc.call use d x = .call use' c y →
        ((s'.counters c).calls y).modified = ((s.counters c).calls y).modified := by
      rintro use' y ⟨⟩
      rcases hkeep use x rfl with ⟨hbegin, -⟩ | ⟨-, hmod⟩
      · cases hpc.symm.trans hbegin
      · exact hmod
    rw [hpc]
    refine .goesOn (ManagerState.owes_congr hsame) ?_ fun prio job _ hmem => ?_
    · rw [ManagerState.rest_congr hsame, hact]
      rfl
    · rwa [hjobs _ _ hact] at hmem
  · rw [hs']
    exact h.jobMove_plain hact (hi.itsCounter f) (fun use d x => hi.makes f use d x) hclean fiber

/-- Whether the job of the round is counted depends on whether a call has changed the value. -/
theorem ManagerState.counted_congr (h : ∀ use d x, pc = .call use d x →
    ((s'.counters d).calls x).modified = ((s.counters d).calls x).modified) :
    s'.counted pc = s.counted pc := by
  cases pc with
  | call use d x => cases use <;> simp only [ManagerState.counted, h _ d x rfl]
  | «begin» use d => cases use <;> rfl
  | cleanup pc caller => cases caller <;> rfl
  | _ => rfl

/-- A step within a round counts its job only by changing the value. -/
theorem FiberStep.counted_kept (h : FiberStep opts s f tls pc act pc') (hround : pc.round = some c)
    (hact : act.roundOf = none) (hown : pc.OwnCounters)
    (hmakes : ∀ use d x, pc = .call use d x → use.Makes ((s.counters d).calls x))
    (hqueues : ∀ q, ∀ e ∈ s.queues q, e.2.counter = some (.queue q))
    (hkeep : ModifiedKept c s s' pc pc') : s'.counted pc' = s.counted pc := by
  -- a job that is scheduled in a round of `c` is scheduled with `c`
  have hsame : ∀ {d : CtrId} {caller : Caller}, caller = d.owner → caller.ctr = some c → d = c := by
    rintro d caller rfl hd
    exact (CtrId.eq_of_owner_ctr hd).symm
  cases h with
  | @«begin» use d x hx =>
    cases use with
    | scheduleJob =>
      obtain rfl := hsame hown hround
      rcases hkeep _ x rfl with ⟨-, hmod⟩ | ⟨hcall, -⟩
      · exact hmod
      · cases hcall
    | waitForCounter => rfl
    | _ => cases hround
  | @call use d x hx =>
    cases use with
    | scheduleJob =>
      obtain rfl := hsame hown hround
      rcases hkeep _ x rfl with ⟨hbegin, -⟩ | ⟨-, hmod⟩
      · cases hbegin
      · exact hmod
    | waitForCounter => rfl
    | _ => cases hround
  | @incremented ctx caller prio job d x hx =>
    exact ((hmakes _ d x rfl).modified_of_ended hx (by simp)).symm
  | @queueFrontPlain ctx q prio rest job hq hc =>
    have hjob := hqueues q (prio, job) (by simp [hq])
    rw [hc] at hjob
    cases hjob
  | @threw ctx caller =>
    cases caller with
    | body => cases hround
    | single | queue => cases hact
  | waitedSingle | waitedQueue => cases hact
  | @previousPool k | @previousWaiting k | @storeIdle k | @storeStored k =>
    cases k <;> rfl
  | _ => first | rfl | cases hround

end Moves

/-! ## The invariant -/

/-- `l` is what is left of the outstanding job. -/
structure Rests (c : CtrId) (s : ManagerState) (l : List DelegateEvent) : Prop where
  queued : ∀ prio, ∀ job ∈ s.jobs prio, job.counter = some c → l = job.events
  owed : ∀ f, 0 < s.owed c f → l = s.rest c (s.fibers f).pc
  zero : s.value c = 0 → l = []

/-- `r` are the jobs of the rounds that have not been counted yet. -/
structure Uncounted (c : CtrId) (s : ManagerState) (r : List JobInfo) : Prop where
  counted : ∀ f, (s.fibers f).pc.round = some c → s.counted (s.fibers f).pc = true →
    ∃ job, s.todo c = job :: r
  other : (∀ f, (s.fibers f).pc.round = some c → s.counted (s.fibers f).pc = false) →
    r = s.todo c

/-- The calls of the delegates so far, what is left of the outstanding job, and the jobs that have
not been counted yet make up the jobs that there have been for the rounds of the counter. -/
def DelegatesInv (c : CtrId) (s : ManagerState) : Prop :=
  ∃ l r, Rests c s l ∧ Uncounted c s r ∧
    s.delegatesOf c ++ l ++ r.flatMap JobInfo.events = (s.asked c).flatMap JobInfo.events

/-- A queued job that is bound to the counter counts. -/
theorem ManagerState.queued_pos {s : ManagerState} {c : CtrId} {prio : JobPriority} {job : JobInfo}
    (hmem : job ∈ s.jobs prio) (hjob : job.counter = some c) : 0 < s.queued c := by
  refine List.countP_pos_iff.mpr ⟨job, ?_, by simpa using hjob⟩
  cases prio <;> simp [hmem]

namespace Rests

variable {opts : ManagerOptions} {s s' : ManagerState} {t f : ℕ} {act : Act} {pc' : FiberPc}
  {c : CtrId} {l : List DelegateEvent}

/-- Nothing is left at zero. -/
theorem of_zero (hout : OutstandingInv c s) (he : RoundEndInv c s) (hz : s.value c = 0) :
    Rests c s [] where
  queued prio job hmem hjob := by
    have hqueued := ManagerState.queued_pos hmem hjob
    rw [(he.of_zero hout hz).1] at hqueued
    cases hqueued
  owed f hf := by
    rw [(he.of_zero hout hz).2 f] at hf
    cases hf
  zero _ := rfl

/-- What is left of a job that has just been counted. -/
theorem of_counted (hout : OutstandingInv c s) (he : RoundEndInv c s) (hf : 0 < s.owed c f)
    (hl : l = s.rest c (s.fibers f).pc) : Rests c s l := by
  obtain ⟨hvalue, hqueued, -, hothers⟩ := he.of_owed hout hf
  refine ⟨fun prio job hmem hjob => ?_, fun g hg => ?_, fun hz => ?_⟩
  · have hpos := ManagerState.queued_pos hmem hjob
    rw [hqueued] at hpos
    cases hpos
  · by_cases hgf : g = f
    · rw [hgf, hl]
    · rw [hothers g hgf] at hg
      cases hg
  · rw [hvalue] at hz
    cases hz

/-- A step that does not change the value of the counter takes what it does to the delegates from
what is left. -/
theorem move (hl : Rests c s l) (hout : OutstandingInv c s) (he : RoundEndInv c s)
    (hout' : OutstandingInv c s') (he' : RoundEndInv c s')
    (hm : CounterMove s s' f (s.fibers f).pc pc') (hself : (s'.fibers f).pc = pc')
    (hother : ∀ g, g ≠ f → s'.fibers g = s.fibers g) (hv : s'.value c = s.value c)
    (hmove : JobMove c s s' (s.fibers f).pc act pc') :
    ∃ l', Rests c s' l' ∧ l = act.delegateEvents c ++ l' := by
  generalize hpc : (s.fibers f).pc = pc at hmove
  by_cases hz : s.value c = 0
  · refine ⟨[], .of_zero hout' he' (hv.trans hz), ?_⟩
    rw [hl.zero hz]
    cases hmove with
    | goesOn howes hrest hjobs =>
      have hnone : s.owes c pc = 0 := by
        rw [← hpc]
        exact (he.of_zero hout hz).2 f
      rw [ManagerState.rest_of_owes hnone] at hrest
      rw [List.append_nil, (List.append_eq_nil_iff.mp hrest.symm).1]
    | enqueues | dequeues => rfl
  have hsame : ∀ g, g ≠ f → s'.owed c g = s.owed c g ∧
      s'.rest c (s'.fibers g).pc = s.rest c (s.fibers g).pc := by
    intro g hgf
    have hcalls : ∀ use x, (s.fibers g).pc = .call use c x →
        ((s'.counters c).calls x).modified = ((s.counters c).calls x).modified :=
      fun use x hpc => by rw [hout.calls.calls_other hm hgf hpc]
    rw [ManagerState.owed, hother g hgf]
    exact ⟨ManagerState.owes_congr hcalls, ManagerState.rest_congr hcalls⟩
  have howed : s'.owed c f = s'.owes c pc' := by rw [ManagerState.owed, hself]
  cases hmove with
  | goesOn howes hrest hjobs =>
    by_cases hf : 0 < s.owed c f
    -- the job is with the fiber
    · refine ⟨s'.rest c pc', .of_counted (f := f) hout' he' ?_ (by rw [hself]), ?_⟩
      · rw [howed, howes, ← hpc]
        exact hf
      · rw [hl.owed f hf, hpc, hrest]
    -- the job is elsewhere, and the fiber goes on without one
    · have hnone : s.owes c pc = 0 := by
        rw [← hpc]
        exact Nat.eq_zero_of_not_pos hf
      rw [ManagerState.rest_of_owes hnone] at hrest
      refine ⟨l, ⟨fun prio job hmem hjob => hl.queued prio job (hjobs prio job hjob hmem) hjob,
        fun g hg => ?_, fun hz' => absurd (hv ▸ hz') hz⟩, ?_⟩
      · have hgf : g ≠ f := by
          rintro rfl
          rw [howed, howes, hnone] at hg
          cases hg
        rw [(hsame g hgf).2]
        exact hl.owed g ((hsame g hgf).1 ▸ hg)
      · rw [(List.append_eq_nil_iff.mp hrest.symm).1, List.nil_append]
  | @enqueues ctx caller prio job _ hjob hjobs =>
    have hcount : job.owes c = 1 := by simp [JobInfo.owes, hjob]
    have hf : s.owed c f = ctx.owes c + 1 := by rw [ManagerState.owed, hpc, ← hcount]; rfl
    obtain ⟨-, hqueued, hone, -⟩ := he.of_owed hout (f := f) (by omega)
    have hleft : l = job.events := by
      have hctx : ctx.owes c = 0 := by omega
      rw [hl.owed f (by omega), hpc]
      simp [ManagerState.rest, Ctx.rest_of_owes hctx, JobInfo.rest, hjob]
    have hmem : job ∈ s'.jobs prio := by simp [hjobs]
    obtain ⟨-, -, hnobody⟩ := he'.of_queued hout' (ManagerState.queued_pos hmem hjob)
    refine ⟨l, ⟨fun prio' job' hmem' hjob' => ?_, fun g hg => ?_, fun hz' => absurd (hv ▸ hz') hz⟩,
      rfl⟩
    -- no other job that is bound to the counter is queued
    · have hold : job' ∉ s.jobs prio' := fun hold => by
        have hpos := ManagerState.queued_pos hold hjob'
        omega
      by_cases hprio : prio' = prio
      · subst hprio
        rw [hjobs, Function.update_self, List.mem_append, List.mem_singleton] at hmem'
        rw [hleft, hmem'.resolve_left hold]
      · rw [hjobs, Function.update_of_ne hprio] at hmem'
        exact absurd hmem' hold
    · rw [hnobody g] at hg
      cases hg
  | @dequeues _ prio job rest hjob hj =>
    refine ⟨l, .of_counted (f := f) hout' he' ?_ ?_, rfl⟩
    · rw [howed]
      simp [ManagerState.owes, JobInfo.owes, hjob]
    · rw [hl.queued prio job (by simp [hj]) hjob, hself]
      simp [ManagerState.rest, JobInfo.rest, hjob]

end Rests

/-- The jobs of the rounds are not those of a fiber. -/
@[simp] theorem ManagerState.todo_setFiber (s : ManagerState) (f : ℕ) (fiber : FiberState)
    (c : CtrId) : (s.setFiber f fiber).todo c = s.todo c := by
  cases c <;> rfl

@[simp] theorem ManagerState.asked_setFiber (s : ManagerState) (f : ℕ) (fiber : FiberState)
    (c : CtrId) : (s.setFiber f fiber).asked c = s.asked c := by
  cases c <;> rfl

/-- A step that does not concern the rounds of counter `c` stays in them, or outside. -/
theorem RoundStep.of_ne {s : ManagerState} {r r' : Option CtrId} {act : Act} {c : CtrId}
    (h : RoundStep s r act r') (hne : act.roundOf ≠ some c) :
    (r = some c ↔ r' = some c) ∧ (r = some c → act.roundOf = none) := by
  cases h with
  | same hact => exact ⟨Iff.rfl, fun _ => hact⟩
  | addJob => exact ⟨Iff.rfl, fun hr => by cases hr⟩
  | beginSingle | enterExecute =>
    exact ⟨⟨fun hr => (by cases hr), fun hr => absurd hr hne⟩, fun hr => by cases hr⟩
  | endQueue => exact ⟨Iff.rfl, fun hr => absurd hr hne⟩
  | endSingle | leaveExecute | throwSingle | throwQueue =>
    exact ⟨⟨fun hr => absurd hr hne, fun hr => (by cases hr)⟩, fun hr => absurd hr hne⟩

namespace Uncounted

variable {opts : ManagerOptions} {s s' : ManagerState} {t f tls : ℕ} {act : Act} {pc' : FiberPc}
  {c : CtrId} {r : List JobInfo}

/-- As long as no job is counted, all jobs that are left are uncounted. -/
theorem of_todo (h : ∀ g, (s.fibers g).pc.round = some c → s.counted (s.fibers g).pc = false) :
    Uncounted c s (s.todo c) where
  counted g hg hcounted := by
    rw [h g hg] at hcounted
    cases hcounted
  other _ := rfl

/-- The fiber of the round counts the first job. -/
theorem count (hr : Uncounted c s r) (hi : RoundInv s) {ctx : Ctx} {caller : Caller}
    {prio : JobPriority} {job : JobInfo} {x : ℕ}
    (hpc : (s.fibers f).pc = .call (.scheduleJob ctx caller prio job) c x)
    (hin : (s.fibers f).pc.round = some c)
    (hbefore : ((s.counters c).calls x).modified = false)
    (hpc' : (s'.fibers f).pc = .call (.scheduleJob ctx caller prio job) c x)
    (hafter : ((s'.counters c).calls x).modified = true) (htodo : s'.todo c = s.todo c) :
    ∃ r', Uncounted c s' r' ∧ r = job :: r' := by
  obtain ⟨first, rest, hfirst, hsched⟩ := hi.front f c hin (by rw [hpc]; rfl)
  obtain rfl : job = first := hsched job (by rw [hpc]; rfl)
  have hall : r = s.todo c := hr.other fun g hg => by
    rw [hi.exclusive g f c hg hin, hpc]
    exact hbefore
  refine ⟨rest, ⟨fun _ _ _ => ⟨job, htodo.trans hfirst⟩, fun h => ?_⟩, hall.trans hfirst⟩
  have hnot := h f (by rw [hpc', ← hpc, hin])
  rw [hpc'] at hnot
  exact absurd hafter (Bool.eq_false_iff.mp hnot)

/-- Any other step of a fiber takes no job from those that are uncounted. -/
theorem move (hr : Uncounted c s r) (hi : RoundInv s)
    (h : FiberStep opts s f tls (s.fibers f).pc act pc') {fiber : FiberState}
    (hfiber : fiber.pc = pc') (hs' : s' = (s.apply t f act).setFiber f fiber)
    (hother : ∀ g, g ≠ f → s'.counted (s.fibers g).pc = s.counted (s.fibers g).pc)
    (hkept : (s.fibers f).pc.round = some c → act.roundOf = none →
      s'.counted pc' = s.counted (s.fibers f).pc)
    (hcaught : ∀ ctx caller, (s.fibers f).pc = .threw ctx caller → caller.ctr ≠ some c) :
    ∃ new, Uncounted c s' (r ++ new) ∧ s'.asked c = s.asked c ++ new := by
  have hself : (s'.fibers f).pc = pc' := by simp [hs', hfiber]
  have hfibers : ∀ g, g ≠ f → s'.fibers g = s.fibers g := fun g hg => by simp [hs', hg]
  have htodo : s'.todo c = (s.apply t f act).todo c := by rw [hs', ManagerState.todo_setFiber]
  have hasked : s'.asked c = (s.apply t f act).asked c := by rw [hs', ManagerState.asked_setFiber]
  by_cases hact : act.roundOf = some c
  swap
  -- the step does not concern the rounds of the counter
  · obtain ⟨-, htodo', hasked'⟩ := ManagerState.apply_round hact s t f
    obtain ⟨hiff, hnone⟩ := h.roundStep.of_ne hact
    refine ⟨[], ⟨fun g hg hcounted => ?_, fun hnot => ?_⟩, ?_⟩
    · rw [List.append_nil, htodo, htodo']
      by_cases hgf : g = f
      · rw [hgf, hself] at hg hcounted
        have hin := hiff.mpr hg
        exact hr.counted f hin ((hkept hin (hnone hin)).symm.trans hcounted)
      · rw [hfibers g hgf] at hg hcounted
        exact hr.counted g hg ((hother g hgf).symm.trans hcounted)
    · rw [List.append_nil, htodo, htodo']
      refine hr.other fun g hg => ?_
      by_cases hgf : g = f
      · subst hgf
        have hcounted := hnot g (by rw [hself]; exact hiff.mp hg)
        rw [hself] at hcounted
        exact (hkept hg (hnone hg)).symm.trans hcounted
      · have hcounted := hnot g (by rw [hfibers g hgf]; exact hg)
        rw [hfibers g hgf] at hcounted
        exact (hother g hgf).symm.trans hcounted
    · rw [List.append_nil, hasked, hasked']
  -- the round begins or ends, and nobody counts a job
  suffices hnew : ∃ new, (s.apply t f act).todo c = r ++ new ∧
      (s.apply t f act).asked c = s.asked c ++ new ∧ s'.counted pc' = false ∧
      ∀ g, g ≠ f → (s.fibers g).pc.round ≠ some c by
    obtain ⟨new, hleft, hall, hnot, hothers⟩ := hnew
    refine ⟨new, ?_, hasked.trans hall⟩
    rw [← hleft, ← htodo]
    refine of_todo fun g hg => ?_
    by_cases hgf : g = f
    · rwa [hgf, hself]
    · rw [hfibers g hgf] at hg
      exact absurd hg (hothers g hgf)
  have hexclusive : (s.fibers f).pc.round = some c → ∀ g, g ≠ f →
      (s.fibers g).pc.round ≠ some c := fun hin g hgf hg => hgf (hi.exclusive g f c hg hin)
  have hnobody : s.busy c = false → r = s.todo c ∧ ∀ g, g ≠ f → (s.fibers g).pc.round ≠ some c :=
    fun hbusy => ⟨hr.other fun g hg => absurd hg (hi.round_ne hbusy g),
      fun g _ => hi.round_ne hbusy g⟩
  have hcounted := hr.counted f
  have huncounted : (s.fibers f).pc.round = some c → s.counted (s.fibers f).pc = false →
      r = s.todo c := fun hin hnot => hr.other fun g hg => by rwa [hi.exclusive g f c hg hin]
  generalize (s.fibers f).pc = pc at h hexclusive hcounted huncounted hcaught
  cases h with
  | @opAddJob ctx q prio delegate hq =>
    cases hact
    obtain ⟨hall, hothers⟩ := hnobody hq
    exact ⟨[⟨delegate, some (.queue q)⟩], by simp [ManagerState.todo, ManagerState.apply, hall],
      by simp [ManagerState.asked, ManagerState.apply], rfl, hothers⟩
  | @opSingle ctx prio delegate n hn =>
    cases hact
    obtain ⟨hall, hothers⟩ := hnobody (by simp [ManagerState.busy, hn])
    exact ⟨[⟨delegate, some (.tiny n)⟩],
      by simp [ManagerState.todo, ManagerState.apply, hall, hn],
      by simp [ManagerState.asked, ManagerState.apply, hn], rfl, hothers⟩
  | @opExecute ctx q hq =>
    cases hact
    obtain ⟨hall, hothers⟩ := hnobody hq
    exact ⟨[], by rw [List.append_nil, hall]; rfl, (List.append_nil _).symm, rfl, hothers⟩
  | @waitedSingle ctx n =>
    cases hact
    obtain ⟨job, hjob⟩ := hcounted rfl rfl
    cases hn : s.singles n <;> simp [ManagerState.todo, hn] at hjob
    obtain ⟨rfl, rfl⟩ := hjob
    exact ⟨[], by simp [ManagerState.todo, ManagerState.apply, SingleCall.return, hn],
      by simp [ManagerState.asked, ManagerState.apply, SingleCall.return, hn], rfl,
      hexclusive rfl⟩
  | @waitedQueue ctx q =>
    cases hact
    obtain ⟨job, hjob⟩ := hcounted rfl rfl
    refine ⟨[], ?_, (List.append_nil _).symm, rfl, hexclusive rfl⟩
    simp only [ManagerState.todo] at hjob
    simp [ManagerState.todo, ManagerState.apply, List.map_tail, hjob]
  | @queueEmpty ctx q hq =>
    cases hact
    refine ⟨[], ?_, (List.append_nil _).symm, rfl, hexclusive rfl⟩
    rw [List.append_nil, huncounted rfl rfl]
    rfl
  | @threw ctx caller =>
    cases caller with
    | body => cases hact
    | single | queue => exact absurd hact (hcaught ctx _ rfl)
  | @«begin» use => cases use <;> cases hact
  | _ => cases hact

end Uncounted

/-! ## Every step keeps the invariant -/

/-- A call on a counter does nothing to a delegate. -/
theorem FiberStep.delegateEvents_of_call {opts : ManagerOptions} {s : ManagerState} {f tls x : ℕ}
    {act : Act} {use : CounterUse} {c d : CtrId} {pc' : FiberPc}
    (h : FiberStep opts s f tls (.call use d x) act pc') : act.delegateEvents c = [] := by
  cases h <;> rfl

namespace DelegatesInv

variable {opts : ManagerOptions} {s s' : ManagerState} {t f : ℕ} {act : Act} {pc' : FiberPc}
  {c : CtrId}

/-- Every step of a fiber keeps the invariant. -/
private theorem fiber_step (hi : DelegatesInv c s) (hf : InTurnInv c s) (he : RoundEndInv c s)
    (hout' : OutstandingInv c s') (he' : RoundEndInv c s') (hc : c.owner ≠ .body)
    (h : FiberStep opts s f t (s.fibers f).pc act pc')
    (hclean : ∀ ctx caller prio job, (s.fibers f).pc = .enqueue ctx caller prio job →
      pc' = .threw ctx caller → job.counter ≠ some c)
    (hs' : s' = (s.apply t f act).setFiber f ⟨t, pc'⟩) : DelegatesInv c s' := by
  obtain ⟨l, r, hl, hr, hall⟩ := hi
  have hm : CounterMove s s' f (s.fibers f).pc pc' := hs' ▸ h.counterMove (t := t) ⟨t, pc'⟩
  have hself : (s'.fibers f).pc = pc' := by simp [hs']
  have hother : ∀ g, g ≠ f → s'.fibers g = s.fibers g := fun g hg => by simp [hs', hg]
  have hdelegates : s'.delegatesOf c = s.delegatesOf c ++ act.delegateEvents c := by
    rw [hs']
    exact s.delegatesOf_apply t f act c
  have hmoved : ((s.fibers f).pc.round = some c → act.roundOf = none →
      s'.counted pc' = s.counted (s.fibers f).pc) →
      ∃ new, Uncounted c s' (r ++ new) ∧ s'.asked c = s.asked c ++ new := fun hkept =>
    hr.move hf.rounds h rfl hs'
      (fun g hgf => ManagerState.counted_congr fun use d x hpc => by
        rw [hf.outstanding.calls.calls_other hm hgf hpc]) hkept (he.caught f)
  rcases he.value_cases hf.outstanding hf.rounds hc hm with
    ⟨ctx, caller, prio, job, x, hpc, hpc', hin, hcall, hmod, hzero, -⟩ |
    ⟨x, hpc, hcall, -, hzero⟩ | ⟨hvalue, hkeep⟩
  -- the round counts its job
  · have hact : act.delegateEvents c = [] := by
      rw [hpc] at h
      exact h.delegateEvents_of_call
    have hround : act.roundOf = none := by
      rw [hpc] at h
      cases h <;> rfl
    obtain ⟨-, htodo, hasked⟩ :=
      ManagerState.apply_round (show act.roundOf ≠ some c by simp [hround]) s t f
    obtain ⟨r', hr', rfl⟩ := hr.count hf.rounds hpc hin (by rw [hcall]; rfl)
      (hself.trans hpc') hmod (by rw [hs', ManagerState.todo_setFiber, htodo])
    have hctx : ctx.owes c = 0 := by
      have hnone := (he.of_zero hf.outstanding hzero).2 f
      rw [ManagerState.owed, hpc] at hnone
      exact (Nat.add_eq_zero_iff.mp hnone).1
    refine ⟨job.events, r', .of_counted (f := f) hout' he' ?_ ?_, hr', ?_⟩
    · rw [ManagerState.owed, hself, hpc']
      simp [ManagerState.owes, hmod]
    · rw [hself, hpc']
      simp [ManagerState.rest, Ctx.rest_of_owes hctx, hmod]
    · rw [hl.zero hzero, List.flatMap_cons, List.append_nil, ← List.append_assoc] at hall
      rw [hdelegates, hact, List.append_nil, hall, hs', ManagerState.asked_setFiber, hasked]
  -- the round is done with its job
  · have hact : act.delegateEvents c = [] := by
      rw [hpc] at h
      exact h.delegateEvents_of_call
    have howed := hf.outstanding.owed_of_decrement hpc hcall
    obtain ⟨new, hr', hasked⟩ := hmoved fun hin => by
      rw [hpc] at hin
      cases hin
    refine ⟨[], r ++ new, .of_zero hout' he' hzero, hr', ?_⟩
    rw [hl.owed f (by omega), hpc] at hall
    rw [hdelegates, hact, hasked, List.flatMap_append, List.flatMap_append, ← hall]
    simp only [ManagerState.rest, List.append_nil, List.append_assoc]
  -- the outstanding job goes on
  · obtain ⟨l', hl', hleft⟩ := hl.move hf.outstanding he hout' he' hm hself hother hvalue
      (h.jobMove hf.outstanding.calls hclean hs' hkeep)
    obtain ⟨new, hr', hasked⟩ := hmoved fun hin hact => h.counted_kept hin hact (hf.rounds.own f)
      (fun use d x => hf.outstanding.calls.makes f use d x)
      (fun q e he => hf.rounds.counter (.queue q) e.2 (List.mem_map_of_mem he)) hkeep
    refine ⟨l', r ++ new, hl', hr', ?_⟩
    rw [hdelegates, hasked, List.flatMap_append, List.flatMap_append, ← hall, hleft]
    simp only [List.append_assoc]

/-- The invariant depends on counters, fibers, jobs and delegates. -/
private theorem congr (hi : DelegatesInv c s) (hctr : s'.counters = s.counters)
    (hfibers : s'.fibers = s.fibers) (hjobs : s'.jobs = s.jobs)
    (hdelegates : s'.delegates = s.delegates) (htodo : s'.todo c = s.todo c)
    (hasked : s'.asked c = s.asked c) : DelegatesInv c s' := by
  obtain ⟨l, r, hl, hr, hall⟩ := hi
  have howes : ∀ pc, s'.owes c pc = s.owes c pc := fun pc =>
    ManagerState.owes_congr fun _ _ _ => by rw [hctr]
  have hrest : ∀ pc, s'.rest c pc = s.rest c pc := fun pc =>
    ManagerState.rest_congr fun _ _ _ => by rw [hctr]
  have hcounted : ∀ pc, s'.counted pc = s.counted pc := fun pc =>
    ManagerState.counted_congr fun _ _ _ _ => by rw [hctr]
  refine ⟨l, r, ⟨?_, fun f => ?_, ?_⟩, ⟨?_, ?_⟩, ?_⟩
  · rw [hjobs]
    exact hl.queued
  · rw [ManagerState.owed, howes, hrest, hfibers]
    exact hl.owed f
  · rw [ManagerState.value, hctr]
    exact hl.zero
  · simp only [hfibers, hcounted, htodo]
    exact hr.counted
  · simp only [hfibers, hcounted, htodo]
    exact hr.other
  · rw [hasked, ← hall, ManagerState.delegatesOf, hdelegates]
    rfl

/-- Every step that meets the condition keeps the invariant. -/
theorem step {a : ManagerAction} {h : History ManagerState ManagerAction} (hi : DelegatesInv c s)
    (hf : InTurnInv c s) (he : RoundEndInv c s) (hout' : OutstandingInv c s')
    (he' : RoundEndInv c s') (hc : c.owner ≠ .body) (hok : ThroughJobs c h s a)
    (hs : managerStep opts s a = some s') : DelegatesInv c s' := by
  rcases managerStep_cases hs with ⟨f, act, pc', hrun, hn, hs'⟩ | ⟨act, pc', hrun, hn, rfl⟩
  · have hstep := fiberStep_of_next hn
    rw [hf.manager.own.onThread a.thread f hrun] at hstep hs'
    refine hi.fiber_step hf he hout' he' hc hstep ?_ hs'
    intro ctx caller prio job hpc hthrew
    have hthrough := hok f hrun
    rw [hpc] at hthrough hn
    rw [hthrew] at hn
    exact Choice.throughJobs_threw hthrough hn
  -- the own code of a thread has nothing to do with jobs
  · have hstep := threadStep_of_next hn
    have hround : act.roundOf ≠ some c := by
      generalize s.threads a.thread = pc at hstep
      cases hstep <;> simp [Act.roundOf]
    have hdelegates : (s.apply a.thread noFiber act).delegates = s.delegates := by
      generalize s.threads a.thread = pc at hstep
      cases hstep <;> rfl
    obtain ⟨-, htodo, hasked⟩ := ManagerState.apply_round hround s a.thread noFiber
    refine hi.congr (ManagerState.apply_counters hstep.not_counter) (ManagerState.apply_fibers ..)
      (funext fun prio => ManagerState.apply_jobs (hstep.keepsJobs.1 prio) (hstep.keepsJobs.2 prio))
      hdelegates ?_ ?_
    · rw [← htodo]
      cases c <;> rfl
    · rw [← hasked]
      cases c <;> rfl

theorem start (opts : ManagerOptions) (c : CtrId) : DelegatesInv c (.start opts) := by
  have htodo : (ManagerState.start opts).todo c = [] := by cases c <;> rfl
  have hasked : (ManagerState.start opts).asked c = [] := by cases c <;> rfl
  refine ⟨[], [], ⟨fun _ _ h => ?_, fun _ h => ?_, fun _ => rfl⟩, ⟨fun _ h => ?_, fun _ => ?_⟩, ?_⟩
  · cases h
  · cases h
  · cases h
  · rw [htodo]
  · rw [hasked]
    rfl

end DelegatesInv

section Run

variable {opts : ManagerOptions} {h : History ManagerState ManagerAction} {s : ManagerState}
  {c : CtrId}

/-- In every such run, the delegates of the rounds are called one after the other. -/
theorem delegatesInv_of_run (hc : c.owner ≠ .body) (hr : (managerSystem opts).Run (InTurn c) h s) :
    DelegatesInv c s := by
  induction hr with
  | init hs =>
    obtain rfl := hs
    exact .start opts c
  | step hr hok hs ih =>
    have hr' := hr.step hok hs
    exact ih.step (inTurnInv_of_run hr) (roundEndInv_of_run hc hr)
      (inTurnInv_of_run hr').outstanding (roundEndInv_of_run hc hr') hc hok.2.1 hs

/-- What has been called is a prefix of what all jobs call, one after the other. -/
theorem DelegatesInv.isPrefix (hi : DelegatesInv c s) :
    s.delegatesOf c <+: (s.asked c).flatMap JobInfo.events := by
  obtain ⟨l, r, -, -, hall⟩ := hi
  exact ⟨l ++ r.flatMap JobInfo.events, by rw [← List.append_assoc, hall]⟩

/-- At zero, and before a job is counted, the jobs that are left are those that have not been
called. -/
theorem DelegatesInv.at_zero (hi : DelegatesInv c s) (hz : s.value c = 0)
    (hnot : ∀ f, (s.fibers f).pc.round = some c → s.counted (s.fibers f).pc = false) :
    s.delegatesOf c ++ (s.todo c).flatMap JobInfo.events = (s.asked c).flatMap JobInfo.events := by
  obtain ⟨l, r, hl, hr, hall⟩ := hi
  rwa [hl.zero hz, hr.other hnot, List.append_nil] at hall

/-- Whenever `Step` looks at the queue, the jobs in it are those that have not been called. -/
theorem DelegatesInv.at_step {q f : ℕ} {ctx : Ctx} (hi : DelegatesInv (.queue q) s)
    (he : RoundEndInv (.queue q) s) (hrounds : RoundInv s)
    (hpc : (s.fibers f).pc = .queueStep ctx q) :
    s.delegatesOf (.queue q) ++ ((s.queues q).map Prod.snd).flatMap JobInfo.events =
      (s.added q).flatMap JobInfo.events := by
  have hin : (s.fibers f).pc.round = some (.queue q) := by rw [hpc]; rfl
  refine hi.at_zero (he.between f hin (by rw [hpc]; rfl)) fun g hg => ?_
  rw [hrounds.exclusive g f _ hg hin, hpc]
  rfl

end Run

/-! ## Queues -/

/-- In every orderly run in which no wait is refused, no `ScheduleJob` of a job of the queue throws,
and no scan takes a registration of `Queue::Step` late: the delegates of the jobs that have been
added to the queue are called in the order in which the jobs have been added, each one once, and
after the one before has finished. Outside `Execute`, and whenever `Step` looks at the queue,
exactly the jobs that are still in the queue have not been called yet. -/
theorem queue_in_turn {opts : ManagerOptions} {q : ℕ} {h : History ManagerState ManagerAction}
    {s : ManagerState} (hr : (managerSystem opts).Run (InTurn (.queue q)) h s) :
    s.delegatesOf (.queue q) <+: (s.added q).flatMap JobInfo.events ∧
      ((s.executing q = false ∨ ∃ f ctx, (s.fibers f).pc = .queueStep ctx q) →
        s.delegatesOf (.queue q) ++ ((s.queues q).map Prod.snd).flatMap JobInfo.events =
          (s.added q).flatMap JobInfo.events) := by
  have hc : (CtrId.queue q).owner ≠ .body := by simp [CtrId.owner]
  have hi := delegatesInv_of_run hc hr
  have he := roundEndInv_of_run hc hr
  have hrounds := roundInv_of_run hr
  refine ⟨hi.isPrefix, ?_⟩
  rintro (hidle | ⟨f, ctx, hpc⟩)
  · have hnobody := hrounds.round_ne (c := .queue q) hidle
    exact hi.at_zero (he.outside hnobody) fun f hf => absurd hf (hnobody f)
  · exact hi.at_step he hrounds hpc

/-- The main callback adds two jobs to a queue and executes it: thread 1 executes each of them
before `Step` looks at the counter. -/
def queueExecutes : List ManagerAction :=
  threadSteps 0 7 ++ [⟨0, .op (.addJob 0 .normal (some 7))⟩, ⟨0, .op (.addJob 0 .low (some 8))⟩,
      ⟨0, .op (.execute 0)⟩, ⟨0, .succeed⟩, ⟨0, .call 0⟩] ++
    threadSteps 0 9 ++ threadSteps 1 14 ++ [⟨1, .op .finish⟩, ⟨1, .call 1⟩] ++
    threadSteps 1 14 ++ threadSteps 0 3 ++ [⟨0, .call 2⟩] ++
    threadSteps 0 9 ++ threadSteps 1 8 ++ [⟨1, .op .finish⟩, ⟨1, .call 3⟩] ++
    threadSteps 1 14 ++ threadSteps 0 3

theorem queue_in_turn_two :
    ∃ h s, (managerSystem twoWorkers).Run (InTurn (.queue 0)) h s ∧ s.executing 0 = false ∧
      s.delegatesOf (.queue 0) = [.called ⟨some 7, some (.queue 0)⟩,
        .finished ⟨some 7, some (.queue 0)⟩, .called ⟨some 8, some (.queue 0)⟩,
        .finished ⟨some 8, some (.queue 0)⟩] := by
  have hrun : ∃ (h : History ManagerState ManagerAction) (s : ManagerState),
      (managerSystem twoWorkers).Run (InTurn (.queue 0)) h s ∧ s.executing 0 = false ∧
        s.queues 0 = [] ∧ s.added 0 = [⟨some 7, some (.queue 0)⟩, ⟨some 8, some (.queue 0)⟩] :=
    System.exists_run_of_trace_by (managerStepEval_eq _) rfl queueExecutes (by decide +kernel)
  obtain ⟨h, s, hr, hidle, hempty, hadded⟩ := hrun
  have hall := (queue_in_turn hr).2 (.inl hidle)
  rw [hempty, hadded, List.map_nil, List.flatMap_nil, List.append_nil] at hall
  exact ⟨h, s, hr, hidle, hall⟩

/-! ## The end of `Execute` -/

section Execute

variable {opts : ManagerOptions} {s s' : ManagerState} {t f tls q : ℕ} {act : Act}
  {pc pc' : FiberPc}

/-- An `Execute` ends by itself or by an exception. -/
theorem ManagerState.executing_apply (hin : s.executing q = true)
    (hout : (s.apply t f act).executing q = false) :
    act = .leaveExecute q ∨ act = .throwThrough (.queue q) := by
  have hother : ∀ (b : Bool) (k : ℕ), Function.update s.executing k b q = false → k = q := by
    intro b k hk
    by_contra hkq
    rw [Function.update_of_ne (Ne.symm hkq)] at hk
    cases hin.symm.trans hk
  cases act with
  | leaveExecute k => exact .inl (congrArg _ (hother false k hout))
  | enterExecute k =>
    obtain rfl := hother true k hout
    simp [ManagerState.apply] at hout
  | throwThrough caller =>
    cases caller with
    | queue k => exact .inr (congrArg (Act.throwThrough ∘ .queue) (hother false k hout))
    | _ => cases hin.symm.trans hout
  | endWait caller => cases caller <;> cases hin.symm.trans hout
  | _ => cases hin.symm.trans hout

/-- It ends by itself when the queue is empty. -/
theorem FiberStep.empty_of_leaveExecute (h : FiberStep opts s f tls pc (.leaveExecute q) pc') :
    ∃ ctx, pc = .queueStep ctx q ∧ s.queues q = [] := by
  generalize hb : Act.leaveExecute q = act at h
  cases h with
  | queueEmpty hq =>
    cases hb
    exact ⟨_, rfl, hq⟩
  | _ => cases hb

theorem FiberStep.threw_of_throwThrough {caller : Caller}
    (h : FiberStep opts s f tls pc (.throwThrough caller) pc') : ∃ ctx, pc = .threw ctx caller := by
  generalize hb : Act.throwThrough caller = act at h
  cases h with
  | threw =>
    cases hb
    exact ⟨_, rfl⟩
  | _ => cases hb

end Execute

/-- In every such run, `Queue` runs its jobs consecutively: the calls of their delegates start in
the order of addition, each job is called once, and not before the call of the one before has
finished; and when an `Execute` returns, all of them have finished and the queue is empty. -/
theorem queue_consecutive {opts : ManagerOptions} {q : ℕ} {h : History ManagerState ManagerAction}
    {s : ManagerState} (hr : (managerSystem opts).Run (InTurn (.queue q)) h s) :
    s.delegatesOf (.queue q) <+: (s.added q).flatMap JobInfo.events ∧
      ∀ a s', managerStep opts s a = some s' → s.executing q = true → s'.executing q = false →
        s'.queues q = [] ∧ s'.delegatesOf (.queue q) = (s'.added q).flatMap JobInfo.events := by
  have hc : (CtrId.queue q).owner ≠ .body := by simp [CtrId.owner]
  have hi := delegatesInv_of_run hc hr
  have he := roundEndInv_of_run hc hr
  refine ⟨hi.isPrefix, fun a s' hs hin hout => ?_⟩
  rcases managerStep_inv hs with
    ⟨f, pc, act, pc', hrun, rfl, h, rfl⟩ | ⟨pc, act, pc', hrun, rfl, h, rfl⟩
  · rcases ManagerState.executing_apply hin hout with rfl | rfl
    · obtain ⟨ctx, hpc, hempty⟩ := h.empty_of_leaveExecute
      have hall := hi.at_step he (roundInv_of_run hr) hpc
      rw [hempty, List.map_nil, List.flatMap_nil, List.append_nil] at hall
      exact ⟨hempty, hall⟩
    -- no `ScheduleJob` of `Step` throws, and no wait is refused
    · obtain ⟨ctx, hpc⟩ := h.threw_of_throwThrough
      exact absurd rfl (he.caught f ctx _ hpc)
  -- the own code of a thread executes no queue
  · generalize s.threads a.thread = pc at h
    cases h <;> cases hin.symm.trans hout

theorem queue_consecutive_two :
    ∃ h s s', (managerSystem twoWorkers).Run (InTurn (.queue 0)) h s ∧
      managerStep twoWorkers s ⟨0, .succeed⟩ = some s' ∧ s'.queues 0 = [] ∧
      s'.delegatesOf (.queue 0) = [.called ⟨some 7, some (.queue 0)⟩,
        .finished ⟨some 7, some (.queue 0)⟩, .called ⟨some 8, some (.queue 0)⟩,
        .finished ⟨some 8, some (.queue 0)⟩] := by
  have hrun : ∃ (h : History ManagerState ManagerAction) (s : ManagerState),
      (managerSystem twoWorkers).Run (InTurn (.queue 0)) h s ∧ s.executing 0 = true ∧
        ∃ s' ∈ managerStep twoWorkers s ⟨0, .succeed⟩, s'.executing 0 = false ∧
          s'.added 0 = [⟨some 7, some (.queue 0)⟩, ⟨some 8, some (.queue 0)⟩] :=
    System.exists_run_of_trace_by (managerStepEval_eq _) rfl queueExecutes.dropLast
      (by decide +kernel)
  obtain ⟨h, s, hr, hin, s', hs, hout, hadded⟩ := hrun
  obtain ⟨hempty, hall⟩ := (queue_consecutive hr).2 _ s' hs hin hout
  rw [hadded] at hall
  exact ⟨h, s, s', hr, hs, hempty, hall⟩

/-- The main callback executes a queue of three jobs. Thread 1 executes the first one, and stops
after the `fetch_sub` of its `Decrement`. `Step` sees zero, schedules the second job and registers,
and thread 0 executes that job. The scan for zero goes on and wakes `Step`, which schedules the
third job, and thread 1 executes that one. -/
def queueOverlaps : List ManagerAction :=
  threadSteps 0 7 ++ [⟨0, .op (.addJob 0 .normal (some 7))⟩, ⟨0, .op (.addJob 0 .normal (some 8))⟩,
      ⟨0, .op (.addJob 0 .normal (some 9))⟩, ⟨0, .op (.execute 0)⟩, ⟨0, .succeed⟩, ⟨0, .call 0⟩] ++
    threadSteps 0 9 ++ threadSteps 1 14 ++ [⟨1, .op .finish⟩, ⟨1, .call 1⟩] ++
    threadSteps 1 1 ++ threadSteps 0 3 ++ [⟨0, .call 2⟩] ++
    threadSteps 0 10 ++ [⟨0, .address 1⟩, ⟨0, .call 3⟩] ++ threadSteps 0 29 ++
    threadSteps 1 28 ++ [⟨1, .call 4⟩] ++
    threadSteps 1 10 ++ [⟨1, .address 2⟩, ⟨1, .call 5⟩] ++ threadSteps 1 24

/-- The third job starts before the second one has finished. -/
theorem queue_two_at_once :
    ∃ h s, (managerSystem twoWorkers).Run
        (fun h s a => OrderlyUnrefused h s a ∧ ThroughJobs (.queue 0) h s a) h s ∧
      s.delegatesOf (.queue 0) = [.called ⟨some 7, some (.queue 0)⟩,
        .finished ⟨some 7, some (.queue 0)⟩, .called ⟨some 8, some (.queue 0)⟩,
        .called ⟨some 9, some (.queue 0)⟩] :=
  System.exists_run_of_trace_by (managerStepEval_eq _) rfl queueOverlaps (by decide +kernel)

end NomadTasks
