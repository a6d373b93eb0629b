import NomadTasks.Manager.Contexts
import NomadTasks.Manager.CounterCalls
import NomadTasks.Manager.Exclusive
import NomadTasks.Ownership.Tally

/-!
# A counter counts its outstanding jobs

`ScheduleJob` increments the counter of a job before it enqueues a copy of the job, and
`JobInfo::Execute` decrements it after the delegate. In between, the copy is in one of the queues
or with one of the fibers.

* `ManagerState.outstanding`: the copies between their `fetch_add` and their `fetch_sub`.
* `ThroughJobs`: the counter is changed through jobs only, and no `ScheduleJob` of its jobs throws.
* `counter_counts_outstanding`: then the value of the counter is the number of outstanding jobs, as
  long as the switches do not meet.
* `counter_wraps`: else a delegate can return twice, and its counter is decremented below zero.
-/

namespace NomadTasks

open Transition Ownership

/-! ## Outstanding jobs -/

/-- What the execution of the job takes from counter `c`. -/
def JobInfo.owes (c : CtrId) (job : JobInfo) : ℕ := if job.counter = some c then 1 else 0

/-- What the job whose delegate runs takes from counter `c`. -/
def Ctx.owes (c : CtrId) : Ctx → ℕ
  | .main => 0
  | .job info => info.owes c

/-- The queued jobs that are bound to counter `c`. -/
def ManagerState.queued (s : ManagerState) (c : CtrId) : ℕ :=
  (s.jobs .high ++ s.jobs .normal ++ s.jobs .low ++ s.jobs .io).countP (·.counter = some c)

/-- The jobs bound to counter `c` that a fiber has at a program point: the one that it executes,
until the `fetch_sub`, and the one that it schedules, from the `fetch_add` on. -/
def ManagerState.owes (s : ManagerState) (c : CtrId) : FiberPc → ℕ
  | .execute job => job.owes c
  | .cleanup _ (.waitForCounter ctx _) | .body ctx | .begin (.scheduleJob ctx _ _ _) _
  | .begin (.waitForCounter ctx _ _ _) _ | .begin (.modify ctx _) _
  | .call (.waitForCounter ctx _ _ _) _ _ | .call (.modify ctx _) _ _ | .threw ctx _
  | .waitForCounter ctx _ _ _ _ | .waited ctx _ | .queueStep ctx _ => ctx.owes c
  | .call (.scheduleJob ctx _ _ _) d x =>
      ctx.owes c + if d = c ∧ ((s.counters d).calls x).modified = true then 1 else 0
  | .enqueue ctx _ _ job => ctx.owes c + job.owes c
  | .begin .execute d => if d = c then 1 else 0
  | .call .execute d x => if d = c ∧ ((s.counters d).calls x).modified = false then 1 else 0
  | _ => 0

/-- The jobs bound to counter `c` that fiber `f` has. -/
def ManagerState.owed (s : ManagerState) (c : CtrId) (f : ℕ) : ℕ := s.owes c (s.fibers f).pc

/-- The jobs bound to counter `c` that are queued or with one of the fibers below `n`. -/
def ManagerState.outstanding (s : ManagerState) (c : CtrId) (n : ℕ) : ℕ :=
  s.queued c + tally n (s.owed c)

/-- The fibers from `n` on have not run yet. -/
def ManagerState.StartedBelow (s : ManagerState) (n : ℕ) : Prop :=
  ∀ f, n ≤ f → (s.fibers f).pc = .start

/-! ## The condition -/

/-- The step of a fiber is not one of the delegate that changes counter `c`, and not an enqueue of
a job bound to it that fails. -/
def Choice.throughJobs (c : CtrId) (choice : Choice) : FiberPc → Bool
  | .enqueue _ _ _ job => choice != .fail || job.counter != some c
  | .body _ =>
      match choice with
      | .op (.modify n _) => .user n != c
      | _ => true
  | _ => true

/-- Counter `c` is changed through jobs only, and no `ScheduleJob` of a job bound to it throws. -/
def ThroughJobs (c : CtrId) (_ : History ManagerState ManagerAction) (s : ManagerState)
    (a : ManagerAction) : Prop :=
  ∀ f ∈ s.running a.thread, a.choice.throughJobs c (s.fibers f).pc = true

instance (c : CtrId) (h : History ManagerState ManagerAction) (s : ManagerState)
    (a : ManagerAction) : Decidable (ThroughJobs c h s a) :=
  inferInstanceAs (Decidable (∀ f ∈ s.running a.thread, _))

section Condition

variable {opts : ManagerOptions} {s : ManagerState} {f tls : ℕ} {choice : Choice} {act : Act}
  {c : CtrId} {pc pc' : FiberPc}

/-- An enqueue that throws is one of a job that is not bound to the counter. -/
theorem Choice.throughJobs_threw {ctx : Ctx} {caller : Caller} {prio : JobPriority} {job : JobInfo}
    (hok : choice.throughJobs c (.enqueue ctx caller prio job) = true)
    (hn : (FiberPc.enqueue ctx caller prio job).next opts s f tls choice =
      some (act, .threw ctx caller)) : job.counter ≠ some c := by
  rw [FiberPc.next] at hn
  split at hn
  · next hfail => simpa [throughJobs, hfail] using hok
  · cases caller <;> cases hn

/-- Only a delegate's own call of `Increment` or `Decrement` begins one. -/
theorem BodyOp.eq_modify_of_next {ctx ctx' : Ctx} {bodyOp : BodyOp} {op : Modifier} {d : CtrId}
    (h : bodyOp.next s ctx = some (act, .begin (.modify ctx' op) d)) :
    ∃ n, bodyOp = .modify n op ∧ d = .user n := by
  revert h
  fun_cases BodyOp.next s ctx bodyOp
  case case1 ctr => cases ctr <;> rintro ⟨⟩
  case case6 =>
    rintro ⟨⟩
    exact ⟨_, rfl, rfl⟩
  case case13 job =>
    unfold JobInfo.afterDelegate
    split <;> rintro ⟨⟩
  all_goals rintro ⟨⟩

/-- A delegate does not begin to change the counter. -/
theorem Choice.throughJobs_modify {ctx : Ctx} {op : Modifier}
    (hok : choice.throughJobs c pc = true)
    (hn : pc.next opts s f tls choice = some (act, pc')) : pc' ≠ .begin (.modify ctx op) c := by
  rintro rfl
  have hstep := fiberStep_of_next hn
  generalize hpc' : FiberPc.begin (.modify ctx op) c = pc' at hstep
  cases hstep with
  | opModify =>
    cases hpc'
    cases choice with
    | op bodyOp =>
      obtain ⟨n, rfl, ⟨⟩⟩ := BodyOp.eq_modify_of_next hn
      simp [throughJobs] at hok
    | _ => cases hn
  | _ => cases hpc'

end Condition

/-! ## The queues -/

section Queued

variable {s : ManagerState} {t f : ℕ} {act : Act} {c : CtrId} {prio : JobPriority} {job : JobInfo}

/-- An enqueue adds what the job owes. -/
theorem ManagerState.queued_enqueue :
    (s.apply t f (.enqueue prio job)).queued c = s.queued c + job.owes c := by
  cases prio <;>
    simp [ManagerState.queued, ManagerState.apply, JobInfo.owes, List.countP_append,
      List.countP_cons] <;>
    omega

/-- A dequeue takes away what the job owes. -/
theorem ManagerState.queued_dequeue {rest : List JobInfo} (hj : s.jobs prio = job :: rest) :
    (s.apply t f (.dequeue prio)).queued c + job.owes c = s.queued c := by
  cases prio <;>
    simp [ManagerState.queued, ManagerState.apply, JobInfo.owes, List.countP_append,
      List.countP_cons, hj] <;>
    omega

/-- Other acts keep the queues. -/
theorem ManagerState.queued_other (henqueue : ∀ prio job, act ≠ .enqueue prio job)
    (hdequeue : ∀ prio, act ≠ .dequeue prio) : (s.apply t f act).queued c = s.queued c := by
  simp only [ManagerState.queued, ManagerState.apply_jobs (henqueue _) (hdequeue _)]

end Queued

/-! ## What a step does -/

section Owes

variable {opts : ManagerOptions} {s s' : ManagerState} {t f tls : ℕ} {act : Act} {c d : CtrId}
  {use : CounterUse} {x : ℕ} {pc pc' : FiberPc}

/-- What a fiber has depends on the rest of the state only in a call on the counter, and there on
whether the value has been changed. -/
theorem ManagerState.owes_congr (h : ∀ use x, pc = .call use c x →
    ((s'.counters c).calls x).modified = ((s.counters c).calls x).modified) :
    s'.owes c pc = s.owes c pc := by
  cases pc with
  | call use d x =>
    by_cases hd : d = c
    · subst hd
      cases use <;> simp only [ManagerState.owes, h _ x rfl]
    · cases use <;> simp [ManagerState.owes, hd]
  | cleanup pc caller => cases caller <;> rfl
  | «begin» use d => cases use <;> rfl
  | _ => rfl

/-- A call that begins has not changed the value yet. -/
theorem ManagerState.owes_begin (h : d = c → ((s'.counters d).calls x).modified = false) :
    s'.owes c (.call use d x) = s.owes c (.begin use d) := by
  by_cases hd : d = c
  · cases use <;> simp [ManagerState.owes, h hd]
  · cases use <;> simp [ManagerState.owes, hd]

/-- The `fetch_add` and the `fetch_sub` on the counter: the value changes by what the fiber owes
more, or less. -/
theorem CounterUse.Makes.owes {op : Modifier} (hmakes : use.Makes (.modify op .fetch))
    (huse : ∀ ctx op, use ≠ .modify ctx op)
    (hcall : (s.counters c).calls x = .modify op .fetch)
    (hmod : ((s'.counters c).calls x).modified = true) (value : CounterUnit) :
    op.value value + BitVec.ofNat 32 (s.owes c (.call use c x)) =
      value + BitVec.ofNat 32 (s'.owes c (.call use c x)) := by
  have hbefore : ((s.counters c).calls x).modified = false := by rw [hcall]; rfl
  cases use with
  | scheduleJob ctx caller prio job =>
    obtain rfl : op = .increment 1 := hmakes
    simp [ManagerState.owes, hbefore, hmod, Modifier.value, BitVec.ofNat_add, add_assoc, add_comm]
  | execute =>
    obtain rfl : op = .decrement 1 := hmakes
    simp [ManagerState.owes, hbefore, hmod, Modifier.value]
  | modify ctx op' => exact absurd rfl (huse ctx op')
  | waitForCounter => cases hmakes

/-- A step that does nothing to a counter moves the jobs that are outstanding. -/
theorem FiberStep.owes_plain (h : FiberStep opts s f tls pc act pc')
    (hact : ∀ d a, act ≠ .counter d a) (hits : pc.OfItsCounter)
    (hmakes : ∀ use d x, pc = .call use d x → use.Makes ((s.counters d).calls x))
    (hclean : ∀ ctx caller prio job, pc = .enqueue ctx caller prio job →
      pc' = .threw ctx caller → job.counter ≠ some c) :
    (s.apply t f act).queued c + s.owes c pc' = s.queued c + s.owes c pc := by
  cases h with
  | enqueue | enqueueSingle | enqueueQueue =>
    rw [ManagerState.queued_enqueue]
    simp only [ManagerState.owes]
    omega
  -- the job moves from the queue to the worker
  | dequeueIo hj | dequeueHigh hj | dequeueNormal hj | dequeueLow hj =>
    rw [← ManagerState.queued_dequeue (t := t) (f := f) (c := c) hj]
    rfl
  | «begin» | call => exact absurd rfl (hact _ _)
  | executeNull hd hc | executeNullDecrement hd hc | opFinishJob hc | opFinishDecrement hc
  | queueFrontPlain hq hc =>
    -- what the job owes is decided by its counter
    rw [ManagerState.queued_other (by simp) (by simp)]
    simp [ManagerState.owes, Ctx.owes, JobInfo.owes, hc]
  | @incremented ctx caller prio job d x hx =>
    have hd : job.counter = some d := hits
    rw [ManagerState.queued_other (by simp) (by simp)]
    simp [ManagerState.owes, JobInfo.owes, hd, (hmakes _ d x rfl).modified_of_ended hx (by simp)]
  | @decremented d x hx =>
    rw [ManagerState.queued_other (by simp) (by simp)]
    simp [ManagerState.owes, (hmakes _ d x rfl).modified_of_ended hx (by simp)]
  -- only a job that does not count for `c` is refused
  | enqueueFail =>
    rw [ManagerState.queued_other (by simp) (by simp)]
    simp [ManagerState.owes, JobInfo.owes, hclean _ _ _ _ rfl rfl]
  | @previousPool k | @previousWaiting k | @storeIdle k | @storeStored k =>
    rw [ManagerState.queued_other (by simp) (by simp)]
    cases k <;> rfl
  | _ => exact congrArg₂ (· + ·) (ManagerState.queued_other (by simp) (by simp)) rfl

/-- No fiber changes counter `c` by itself. -/
def FiberPc.NotModifying (c : CtrId) (pc : FiberPc) : Prop :=
  (∀ ctx op, pc ≠ .begin (.modify ctx op) c) ∧ ∀ ctx op x, pc ≠ .call (.modify ctx op) c x

/-- In every step of a fiber, the value of the counter changes by as much as the jobs that are
outstanding. -/
theorem FiberStep.owes_balanced (h : FiberStep opts s f tls (s.fibers f).pc act pc')
    (hi : CallsInv s) (hnot : (s.fibers f).pc.NotModifying c)
    (hclean : ∀ ctx caller prio job, (s.fibers f).pc = .enqueue ctx caller prio job →
      pc' = .threw ctx caller → job.counter ≠ some c)
    {fiber : FiberState} (hs' : s' = (s.apply t f act).setFiber f fiber) :
    s'.value c + BitVec.ofNat 32 (s.queued c + s.owes c (s.fibers f).pc) =
      s.value c + BitVec.ofNat 32 (s'.queued c + s'.owes c pc') := by
  have hm : CounterMove s s' f (s.fibers f).pc pc' := hs' ▸ h.counterMove (t := t) fiber
  have hqueued : s'.queued c = (s.apply t f act).queued c := by rw [hs']; rfl
  -- a step of a call moves no job
  have hcounter : ∀ d a, act = .counter d a → s'.queued c = s.queued c := by
    rintro d a rfl
    exact hqueued.trans (ManagerState.queued_other (by simp) (by simp))
  rcases h.counter_cases with ⟨use, d, x, hpc, rfl, -, hact⟩ | ⟨use, d, x, hpc, rfl, -, hact⟩ |
    ⟨hact, hnocall⟩
  · rcases hm.value_cases c with ⟨use', x', op, hcall, -⟩ | ⟨hvalue, hkeep⟩
    · cases hpc.symm.trans hcall
    · rw [hvalue, hcounter _ _ hact, hpc, ManagerState.owes_begin]
      rintro rfl
      rcases hkeep use x rfl with ⟨-, hmod⟩ | ⟨hcall, -⟩
      · exact hmod
      · cases hpc.symm.trans hcall
  · rcases hm.value_cases c with ⟨use', x', op, hold, hnew, hcall, hvalue, hmod⟩ |
      ⟨hvalue, hkeep⟩
    -- the read-modify-write changes the value by what the fiber owes
    · cases hnew
      have hmakes := hi.makes f use c x hpc
      rw [hcall] at hmakes
      have howes := hmakes.owes (fun ctx op huse => hnot.2 ctx op x (huse ▸ hpc)) hcall hmod
        (s.value c)
      rw [hcounter _ _ hact, hpc, hvalue, BitVec.ofNat_add, BitVec.ofNat_add,
        add_left_comm, howes, add_left_comm]
    · rw [hvalue, hcounter _ _ hact, hpc, ManagerState.owes_congr]
      rintro use' x' ⟨⟩
      rcases hkeep use x rfl with ⟨hbegin, -⟩ | ⟨-, hmod⟩
      · cases hpc.symm.trans hbegin
      · exact hmod.symm
  · rcases hm.value_cases c with ⟨use, x, op, -, hcall, -⟩ | ⟨hvalue, -⟩
    · exact absurd hcall (hnocall _ _ _)
    · have howes : s'.owes c pc' = s.owes c pc' :=
        ManagerState.owes_congr fun use x hcall => absurd hcall (hnocall use c x)
      rw [hvalue, hqueued, howes,
        h.owes_plain hact (hi.itsCounter f) (fun use d x => hi.makes f use d x) hclean]

end Owes

/-! ## Whole runs -/

/-- The value of the counter is the number of the outstanding jobs, up to wrap-around. -/
structure OutstandingInv (c : CtrId) (s : ManagerState) : Prop where
  calls : CallsInv s
  notModifying : ∀ f, (s.fibers f).pc.NotModifying c
  started : ∃ n, s.StartedBelow n
  counts : ∀ n, s.StartedBelow n → s.value c = BitVec.ofNat 32 (s.outstanding c n)

section Run

variable {opts : ManagerOptions} {h : History ManagerState ManagerAction} {s s' : ManagerState}
  {a : ManagerAction} {c : CtrId}

/-- A step that meets the condition does not lead to a change of the counter by a delegate. -/
theorem FiberPc.NotModifying.next {f tls : ℕ} {choice : Choice} {act : Act} {pc pc' : FiberPc}
    (hnot : pc.NotModifying c) (hok : choice.throughJobs c pc = true)
    (hn : pc.next opts s f tls choice = some (act, pc')) : pc'.NotModifying c := by
  refine ⟨fun ctx op => Choice.throughJobs_modify hok hn, fun ctx op x hpc => ?_⟩
  rcases (fiberStep_of_next hn).counter_cases with ⟨use, d, y, hold, hnew, -⟩ |
    ⟨use, d, y, hold, hnew, -⟩ | ⟨-, hnocall⟩
  · cases hnew.symm.trans hpc
    exact hnot.1 ctx op hold
  · cases hnew.symm.trans hpc
    exact hnot.2 ctx op x hold
  · exact hnocall _ _ _ hpc

/-- Every step that meets the condition keeps the count. -/
theorem OutstandingInv.step (hi : OutstandingInv c s) (hok : ThroughJobs c h s a)
    (hs : managerStep opts s a = some s') : OutstandingInv c s' := by
  rcases managerStep_cases hs with ⟨f, act, pc, hrun, hn, hs'⟩ | ⟨act, pc, hrun, hn, hs'⟩
  · have hstep := fiberStep_of_next hn
    have hself : (s'.fibers f).pc = pc := by simp [hs']
    have hother : ∀ g, g ≠ f → s'.fibers g = s.fibers g := fun g hg => by simp [hs', hg]
    refine ⟨hi.calls.step hs, fun g => ?_, ?_, fun n hstarted => ?_⟩
    · by_cases hgf : g = f
      · rw [hgf, hself]
        exact (hi.notModifying f).next (hok f hrun) hn
      · rw [hother g hgf]
        exact hi.notModifying g
    · obtain ⟨n, hstarted⟩ := hi.started
      refine ⟨max n (f + 1), fun g hg => ?_⟩
      rw [hother g (by omega)]
      exact hstarted g (by omega)
    -- the fiber that has taken the step has started
    · have hlt : f < n := by
        by_contra hge
        exact hstep.switch_cases.1 (hself.symm.trans (hstarted f (by omega)))
      have hbefore : s.StartedBelow n := fun g hg => by
        rw [← hother g (by omega)]
        exact hstarted g hg
      have hbal := hstep.owes_balanced hi.calls (hi.notModifying f)
        (fun ctx caller prio job hpc hthrew => by
          have hthrough := hok f hrun
          rw [hpc] at hthrough hn
          rw [hthrew] at hn
          exact Choice.throughJobs_threw hthrough hn) hs'
      have hm := hs' ▸ hstep.counterMove (t := a.thread) ⟨(s.fibers f).currentTLS a.thread, pc⟩
      have htally : tally n (s'.owed c) + s.owed c f = tally n (s.owed c) + s'.owed c f :=
        tally_change hlt fun g hg => by
          rw [ManagerState.owed, hother g hg]
          exact ManagerState.owes_congr fun use x hpc => by rw [hi.calls.calls_other hm hg hpc]
      -- value and outstanding jobs change by the same amount
      have hsum : s'.outstanding c n + (s.queued c + s.owes c (s.fibers f).pc) =
          s.outstanding c n + (s'.queued c + s'.owes c pc) := by
        simp only [ManagerState.outstanding, ManagerState.owed, hself] at htally ⊢
        omega
      rw [hi.counts n hbefore, ← BitVec.ofNat_add, ← hsum, BitVec.ofNat_add _ (_ + _)] at hbal
      exact add_right_cancel hbal
  · have hstep := threadStep_of_next hn
    -- the own code of a thread neither calls a counter nor moves a job
    have hcounters : s'.counters = s.counters := by
      rw [hs']
      exact ManagerState.apply_counters hstep.not_counter
    have hfibers : s'.fibers = s.fibers := by
      rw [hs']
      exact ManagerState.apply_fibers ..
    have hqueued : s'.queued c = s.queued c := by
      rw [hs']
      exact ManagerState.queued_other (fun prio job => (hstep.keepsJobs.1 prio job))
        hstep.keepsJobs.2
    have hout : ∀ n, s'.outstanding c n = s.outstanding c n := fun n => by
      have howed : s'.owed c = s.owed c := funext fun f => by
        rw [ManagerState.owed, hfibers]
        exact ManagerState.owes_congr fun use x _ => by rw [hcounters]
      rw [ManagerState.outstanding, hqueued, howed]
      rfl
    refine ⟨hi.calls.step hs, fun f => ?_, ?_, fun n hstarted => ?_⟩
    · rw [hfibers]
      exact hi.notModifying f
    · obtain ⟨n, hstarted⟩ := hi.started
      exact ⟨n, fun f hf => by rw [hfibers]; exact hstarted f hf⟩
    · rw [ManagerState.value, hcounters, hout]
      exact hi.counts n fun f hf => by rw [← hfibers]; exact hstarted f hf

/-- It holds at the end of every run that meets the condition. -/
theorem outstandingInv_of_run (hr : (managerSystem opts).Run (ThroughJobs c) h s) :
    OutstandingInv c s := by
  refine hr.invariant (P := fun _ s => OutstandingInv c s) (fun s hs => ?_)
    fun _ _ _ _ _ hi hok hs => hi.step hok hs
  obtain rfl : s = .start opts := hs
  refine ⟨.start opts, fun _ => ⟨nofun, nofun⟩, ⟨0, fun _ _ => rfl⟩, fun n _ => ?_⟩
  have hnone : tally n ((ManagerState.start opts).owed c) = 0 := tally_eq_zero.mpr fun _ _ => rfl
  rw [ManagerState.outstanding, hnone]
  rfl

/-- A fiber that is about to decrement the counter has a job bound to it. -/
theorem OutstandingInv.owed_of_decrement (hi : OutstandingInv c s) {f : ℕ} {use : CounterUse}
    {x : ℕ} (hpc : (s.fibers f).pc = .call use c x)
    (hcall : (s.counters c).calls x = .modify (.decrement 1) .fetch) : s.owed c f = 1 := by
  have hmakes := hi.calls.makes f use c x hpc
  rw [hcall] at hmakes
  cases use with
  | execute => simp [ManagerState.owed, ManagerState.owes, hpc, hcall, CounterCall.modified]
  | modify ctx op => exact absurd hpc ((hi.notModifying f).2 ctx op x)
  | scheduleJob | waitForCounter => cases hmakes

end Run

/-- The value of the counter is the number of the outstanding jobs, as long as they are fewer than
`2 ^ 32`: a decrement does not wrap around, and when the value is `0`, no job bound to the counter
is queued or with a fiber. -/
def ManagerState.CountsOutstanding (s : ManagerState) (c : CtrId) : Prop :=
  (∃ n, s.StartedBelow n) ∧ ∀ n, s.StartedBelow n → s.outstanding c n < 2 ^ 32 →
    (s.value c).toNat = s.outstanding c n ∧
    (∀ f use x, (s.fibers f).pc = .call use c x →
      (s.counters c).calls x = .modify (.decrement 1) .fetch → s.value c ≠ 0) ∧
    (s.value c = 0 → (∀ prio, ∀ job ∈ s.jobs prio, job.counter ≠ some c) ∧
      ∀ f, s.owed c f = 0)

/-- The invariant counts the jobs. -/
theorem OutstandingInv.countsOutstanding {c : CtrId} {s : ManagerState} (hi : OutstandingInv c s) :
    s.CountsOutstanding c := by
  refine ⟨hi.started, fun n hn hlt => ?_⟩
  have hvalue : (s.value c).toNat = s.outstanding c n := by
    rw [hi.counts n hn, BitVec.toNat_ofNat, Nat.mod_eq_of_lt hlt]
  have hstart : ∀ f, n ≤ f → s.owed c f = 0 := fun f hf => by
    rw [ManagerState.owed, hn f hf]
    rfl
  have hzero : s.value c = 0 → s.queued c = 0 ∧ tally n (s.owed c) = 0 := fun hz => by
    rw [hz, ManagerState.outstanding, BitVec.ofNat_eq_ofNat, BitVec.toNat_zero] at hvalue
    omega
  refine ⟨hvalue, fun f use x hpc hcall hz => ?_, fun hz => ⟨fun prio job hj hc => ?_, fun f => ?_⟩⟩
  -- the fiber that is about to decrement owes one itself
  · have howed := hi.owed_of_decrement hpc hcall
    have hf : f < n := by
      by_contra hge
      rw [hstart f (by omega)] at howed
      cases howed
    have hle := le_tally (s.owed c) hf
    have hnone := (hzero hz).2
    omega
  · have hmem : job ∈ s.jobs .high ++ s.jobs .normal ++ s.jobs .low ++ s.jobs .io := by
      cases prio <;> simp [hj]
    exact List.countP_eq_zero.mp (hzero hz).1 job hmem (by simpa using hc)
  · rcases Nat.lt_or_ge f n with hf | hf
    · exact tally_eq_zero.mp (hzero hz).2 f hf
    · exact hstart f hf

/-- Only fibers that a thread has executed have run. -/
theorem startedBelow_of_run {opts : ManagerOptions} {n : ℕ}
    {ok : History ManagerState ManagerAction → ManagerState → ManagerAction → Prop}
    {h : History ManagerState ManagerAction} {s : ManagerState}
    (hr : (managerSystem opts).Run ok h s)
    (hlt : ∀ e ∈ h, ∀ f ∈ e.1.running e.2.thread, f < n) : s.StartedBelow n := by
  induction hr with
  | init hs =>
    obtain rfl := hs
    exact fun _ _ => rfl
  | @step h s s' a hr hok hs ih =>
    have hbefore := ih fun e he => hlt e (List.mem_cons_of_mem _ he)
    intro g hg
    rcases managerStep_cases hs with ⟨f, act, pc, hrun, -, rfl⟩ | ⟨act, pc, -, -, rfl⟩
    · have hf : f < n := hlt (s, a) List.mem_cons_self f hrun
      have hgf : g ≠ f := by omega
      simpa [hgf] using hbefore g hg
    · simpa using hbefore g hg

/-! ## With saved contexts -/

namespace ContextState

/-- The step does not change counter `c` but through jobs, and no `ScheduleJob` of a job bound to it
throws. -/
def ThroughJobs (c : CtrId) (s : ContextState) (a : ManagerAction) : Prop :=
  ∀ f ∈ s.mgr.running a.thread, a.choice.throughJobs c (s.current a.thread).pc = true

instance (c : CtrId) (s : ContextState) (a : ManagerAction) : Decidable (s.ThroughJobs c a) :=
  inferInstanceAs (Decidable (∀ f ∈ s.mgr.running a.thread, _))

/-- Such a step is one of the manager. -/
theorem ThroughJobs.of_simulates {opts : ManagerOptions} {c : CtrId} {s : ContextState}
    {m : ManagerState} {a : ManagerAction} (hok : s.ThroughJobs c a) (hsim : s.Simulates opts m)
    (h : History ManagerState ManagerAction) : NomadTasks.ThroughJobs c h m a := by
  intro f hf
  have hrun : s.mgr.running a.thread = some f := by
    rw [hsim.eq_manager] at hf
    exact hf
  rw [(hsim.fiber_of_running hrun).2]
  exact hok f hrun

end ContextState

/-- Counter `c` is changed through jobs only, no `ScheduleJob` of a job bound to it throws, and the
switches do not meet. -/
def ThroughJobsApart (opts : ManagerOptions) (c : CtrId) (_ : History ContextState ManagerAction)
    (s : ContextState) (a : ManagerAction) : Prop :=
  s.ThroughJobs c a ∧ s.SwitchesApart opts a.thread

instance (opts : ManagerOptions) (c : CtrId) (h : History ContextState ManagerAction)
    (s : ContextState) (a : ManagerAction) : Decidable (ThroughJobsApart opts c h s a) :=
  inferInstanceAs (Decidable (_ ∧ _))

/-- Only fibers that a thread has switched to have run. -/
theorem ContextState.startedBelow_of_run {opts : ManagerOptions} {n : ℕ}
    {ok : History ContextState ManagerAction → ContextState → ManagerAction → Prop}
    {h : History ContextState ManagerAction} {s : ContextState}
    (hr : (contextSystem opts (managerSystem opts)).Run ok h s)
    (hlt : ∀ e ∈ h, ∀ g ∈ e.1.switchTarget e.2.thread, g < n) :
    (s.manager opts).StartedBelow n := by
  have hkept : (∀ t f, s.mgr.running t = some f → f < n) ∧
      ∀ f, n ≤ f → (s.mgr.fibers f).pc = .start := by
    induction hr with
    | init hs =>
      obtain ⟨m, hm, rfl⟩ := hs
      obtain rfl : m = .start opts := hm
      exact ⟨nofun, fun _ _ => rfl⟩
    | @step h s s' a hr hok hs ih =>
      obtain ⟨hrunning, hfibers⟩ := ih fun e he => hlt e (List.mem_cons_of_mem _ he)
      obtain ⟨hmove, hsaved⟩ := contextStep_moves hs
      refine ⟨fun t f hf => ?_, fun f hf => ?_⟩
      · rcases hmove t f hf with hold | htarget
        · exact hrunning t f hold
        · exact hlt (s, a) List.mem_cons_self f htarget
      · rw [hsaved f fun hrun => absurd (hrunning a.thread f hrun) (by omega)]
        exact hfibers f hf
  intro f hf
  have hnone : (List.range opts.threadCount).find? (fun t => s.mgr.running t = some f) = none := by
    refine List.find?_eq_none.mpr fun t _ hrun => ?_
    have hlt := hkept.1 t f (by simpa using hrun)
    omega
  simp only [manager, fiber, hnone]
  exact hkept.2 f hf

/-- The main callback schedules two jobs with one counter, and a worker dequeues the first. -/
def mainCounts : List ManagerAction :=
  threadSteps 0 8 ++ [⟨0, .op (.scheduleJob .normal (some 7) (some 0))⟩, ⟨0, .call 0⟩] ++
    threadSteps 0 9 ++ [⟨0, .op (.scheduleJob .low (some 8) (some 0))⟩, ⟨0, .call 1⟩] ++
    threadSteps 0 9 ++ threadSteps 1 14

/-- Two worker threads besides the IO thread, and four fibers. -/
def fourFibers : ManagerOptions := ⟨2, 4, false⟩

/-- The delegate that runs on thread 0 waits for a job of its own, with flag `p`. -/
def delegateWaits (n : ℕ) (p : FlagPtr) : List ManagerAction :=
  [⟨0, .op (.waitForSingle .normal (some 8) n)⟩, ⟨0, .call 0⟩] ++ threadSteps 0 7 ++
    [⟨0, .address p⟩, ⟨0, .call 1⟩]

/-- The main callback schedules a job with counter 0 and waits for it. Fiber 1 executes the job,
which waits for a job of its own; fiber 2 executes that one and switches back to fiber 1. -/
def delegateResumes : List ManagerAction :=
  threadSteps 0 8 ++ [⟨0, .op (.scheduleJob .normal (some 7) (some 0))⟩, ⟨0, .call 0⟩] ++
    threadSteps 0 9 ++ [⟨0, .op (.waitForCounter (some 0) 0)⟩, ⟨0, .succeed⟩, ⟨0, .address 1⟩,
      ⟨0, .call 1⟩] ++ threadSteps 0 29 ++ delegateWaits 0 2 ++ threadSteps 0 30 ++
    [⟨0, .op .finish⟩, ⟨0, .call 2⟩] ++ threadSteps 0 26

/-- Thread 1 takes fiber 2. The delegate waits for a second job, and thread 0 stops before it
switches to fiber 3. Fiber 2 goes on inside `GetNextJob`, and performs the hand-off of thread 0; it
executes the second job, and switches to fiber 1: thread 1 goes on after the first wait, the
delegate returns, and the main callback goes on. -/
def delegateReturns : List ManagerAction :=
  threadSteps 1 8 ++ delegateWaits 1 3 ++ threadSteps 0 19 ++ threadSteps 1 6 ++
    [⟨1, .op .finish⟩, ⟨1, .call 2⟩] ++ threadSteps 1 26 ++ [⟨1, .op .finish⟩, ⟨1, .call 2⟩] ++
    threadSteps 1 27

/-- Thread 0 switches to fiber 3, and saves in the context of fiber 1 that the delegate is in its
second wait. The IO thread takes fiber 1 from the pool, and the delegate returns again. -/
def delegateReturnsAgain : List ManagerAction :=
  threadSteps 0 2 ++ threadSteps 2 10 ++ [⟨2, .op .finish⟩, ⟨2, .call 3⟩] ++ threadSteps 2 1

end NomadTasks
