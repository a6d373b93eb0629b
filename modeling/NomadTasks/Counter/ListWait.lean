import Mathlib.Data.Finset.Card
import NomadTasks.Counter.EarlyReturn

/-!
# `List::Add` and `List::Wait`

A `List` counts its jobs: `Add` increments the counter and puts the job into a queue of the
manager, and the worker that has executed the job decrements it. `Wait` waits for the counter.
Any number of jobs and waits, in any sequentially consistent order; a list can be waited on, and
added to, again and again.

* `wait_not_early`: `WaitForCounter` does not return before the counter has reached the target, and
  `Wait(0)` returns only after every job whose `Add` had returned before it was called has finished.
* `wait_early`: a modifier that announces a value late wakes a wait that began after it.
-/

namespace NomadTasks

open Transition

variable {ι κ : Type}

/-- The calls on the counter of a list: the waits, and for each job the `Increment` of its `Add` and
the `Decrement` of the worker. -/
inductive ListCall (ι κ : Type)
  | wait (x : ι)
  | increment (j : κ)
  | decrement (j : κ)
  deriving DecidableEq

/-- The life of a job of a list. -/
inductive ListJob
  | notAdded
  /-- `Add` is inside `Increment`. -/
  | adding
  /-- The queue was full: `Add` threw `EX_JOB_QUEUE_FULL`. -/
  | threw
  /-- `Add` has returned, and the job is in a queue of the manager. -/
  | queued
  | running
  /-- The delegate has returned, and the worker is at or past `Decrement`. -/
  | finished
  deriving DecidableEq

/-- `Add` has returned for the job. -/
def ListJob.added : ListJob → Bool
  | .queued | .running | .finished => true
  | _ => false

/-- A list, its jobs and its waits. -/
structure ListState (ι κ : Type) where
  waits : WaitState (ListCall ι κ)
  jobs : κ → ListJob
  /-- Auxiliary: the jobs that the counter counts. -/
  outstanding : Finset κ

/-- What can happen next. -/
inductive ListAction (ι κ : Type)
  /-- `List::Add(job)` is called. -/
  | add (j : κ)
  /-- `ScheduleJob` enqueues the job, or finds the queue full. -/
  | enqueue (j : κ) (full : Bool)
  /-- A worker dequeues the job and calls its delegate. -/
  | start (j : κ)
  /-- The delegate returns, and the worker calls `Decrement`. -/
  | finish (j : κ)
  /-- `List::Wait(targetValue)` is called on a fiber. -/
  | wait (x : ι) (fiberIndex : ℕ) (targetValue : CounterUnit)
  /-- A wait compares the value with its target and registers. -/
  | getValue (x : ι)
  /-- A step inside a call on the counter. -/
  | step (x : ListCall ι κ)
  /-- `AddWaitingFiber` returns to `WaitForCounter`. -/
  | endAdd (x : ι)
  /-- A wait is resumed by an entry that call `y` has pushed. -/
  | resume (x : ι) (y : ListCall ι κ)

section System

variable [DecidableEq ι] [DecidableEq κ]

/-- The action on the waits that an action on the list makes, if any. -/
def ListAction.onWaits : ListAction ι κ → Option (WaitAction (ListCall ι κ))
  | .add j => some (.beginModify (.increment j) (.increment 1))
  | .finish j => some (.beginModify (.decrement j) (.decrement 1))
  | .wait x fiberIndex targetValue => some (.beginWait (.wait x) fiberIndex targetValue)
  | .getValue x => some (.getValue (.wait x))
  | .step x => some (.step x)
  | .endAdd x => some (.endAdd (.wait x))
  | .resume x y => some (.resume (.wait x) y)
  | .enqueue _ _ | .start _ => none

/-- How an action moves a job, if it may happen at this point of the job's life. -/
def ListAction.onJobs (s : ListState ι κ) : ListAction ι κ → Option (κ → ListJob)
  | .add j =>
      if s.jobs j = .notAdded then some (Function.update s.jobs j .adding) else none
  | .enqueue j full =>
      if s.jobs j = .adding ∧ (s.waits.counter.calls (.increment j)).inProgress = false then
        some (Function.update s.jobs j (if full then .threw else .queued))
      else none
  | .start j => if s.jobs j = .queued then some (Function.update s.jobs j .running) else none
  | .finish j => if s.jobs j = .running then some (Function.update s.jobs j .finished) else none
  | _ => some s.jobs

/-- The jobs that the counter counts after an action. -/
def ListAction.onOutstanding (s : ListState ι κ) : ListAction ι κ → Finset κ
  | .step (.increment j) =>
      if s.waits.counter.calls (.increment j) = .modify (.increment 1) .fetch then
        insert j s.outstanding
      else s.outstanding
  | .step (.decrement j) =>
      if s.waits.counter.calls (.decrement j) = .modify (.decrement 1) .fetch then
        s.outstanding.erase j
      else s.outstanding
  | _ => s.outstanding

/-- The waits after an action, if it may happen at this point of theirs. -/
def ListAction.waitsAfter (s : ListState ι κ) (a : ListAction ι κ) :
    Option (WaitState (ListCall ι κ)) :=
  match a.onWaits with
  | some b => waitStep s.waits b
  | none => some s.waits

/-- One step of the interleaving. -/
def listStep (s : ListState ι κ) (a : ListAction ι κ) : Option (ListState ι κ) := do
  let jobs ← a.onJobs s
  let waits ← a.waitsAfter s
  pure { waits, jobs, outstanding := a.onOutstanding s }

/-- A list over a counter with `n` slots, from construction on. -/
def listSystem (n : ℕ) (ι κ : Type) [DecidableEq ι] [DecidableEq κ] :
    System (ListState ι κ) (ListAction ι κ) where
  init s := s = {
    waits := { counter := .idle (.construct n), waits := fun _ => .notStarted, nextFlag := 1 }
    jobs := fun _ => .notAdded
    outstanding := ∅ }
  step := listStep

/-- The run of the waits inside a run of the list. -/
def waitHistory (h : History (ListState ι κ) (ListAction ι κ)) :
    History (WaitState (ListCall ι κ)) (WaitAction (ListCall ι κ)) :=
  h.image ListState.waits fun _ a => a.onWaits

/-- The condition of a run: the claims on the counter are in order, and the counter counts fewer
jobs than it can hold. -/
def ListInOrder (h : History (ListState ι κ) (ListAction ι κ)) (s : ListState ι κ)
    (a : ListAction ι κ) : Prop :=
  (∀ b ∈ a.onWaits, ClaimsInOrder (waitHistory h) s.waits b) ∧ s.outstanding.card < 2 ^ 32

instance (h : History (ListState ι κ) (ListAction ι κ)) (s : ListState ι κ)
    (a : ListAction ι κ) : Decidable (ListInOrder h s a) := inferInstanceAs (Decidable (_ ∧ _))

/-- What a step of the list is: the jobs move, and the waits take a step or stay. -/
theorem listStep_eq {s s' : ListState ι κ} {a : ListAction ι κ} (h : listStep s a = some s') :
    a.onJobs s = some s'.jobs ∧ s'.outstanding = a.onOutstanding s ∧
      ((a.onWaits = none ∧ s'.waits = s.waits) ∨
        ∃ b, a.onWaits = some b ∧ waitStep s.waits b = some s'.waits) := by
  simp only [listStep, Option.bind_eq_bind, Option.pure_def, Option.bind_eq_some_iff,
    Option.some.injEq] at h
  obtain ⟨jobs, hjobs, waits, hwaits, rfl⟩ := h
  refine ⟨hjobs, rfl, ?_⟩
  rw [ListAction.waitsAfter] at hwaits
  split at hwaits
  · next b hb => exact .inr ⟨b, hb, hwaits⟩
  · next hnone => exact .inl ⟨hnone, (Option.some.inj hwaits).symm⟩

/-- The waits take the step that the action makes on them. -/
theorem waitStep_of_listStep {s s' : ListState ι κ} {a : ListAction ι κ}
    {b : WaitAction (ListCall ι κ)} (h : listStep s a = some s') (hb : a.onWaits = some b) :
    waitStep s.waits b = some s'.waits := by
  obtain ⟨-, -, ⟨hnone, -⟩ | ⟨b', hb', hstep⟩⟩ := listStep_eq h
  · rw [hb] at hnone
    cases hnone
  · rwa [Option.some.inj (hb.symm.trans hb')]

/-- The waits stay under an action that makes no step on them. -/
theorem waits_of_listStep {s s' : ListState ι κ} {a : ListAction ι κ}
    (h : listStep s a = some s') (hnone : a.onWaits = none) : s'.waits = s.waits := by
  obtain ⟨-, -, ⟨-, hsame⟩ | ⟨b, hb, -⟩⟩ := listStep_eq h
  · exact hsame
  · rw [hnone] at hb
    cases hb

/-- The waits of a run of the list make a run of their own. -/
theorem waits_of_listRun {n : ℕ} {h : History (ListState ι κ) (ListAction ι κ)}
    {s : ListState ι κ} (hr : (listSystem n ι κ).Run ListInOrder h s) :
    (waitSystem n (ListCall ι κ)).Run ClaimsInOrder (waitHistory h) s.waits := by
  refine hr.map (M := waitSystem n (ListCall ι κ)) ListState.waits (fun _ a => a.onWaits)
    (by rintro s rfl; rfl) ?_
  intro h s a s' hok hs
  obtain ⟨-, -, ⟨hnone, hsame⟩ | ⟨b, hb, hstep⟩⟩ := listStep_eq hs
  · exact .inl ⟨hnone, hsame⟩
  · exact .inr ⟨b, hb, hstep, hok.1 b hb⟩

end System

/-! ## The counter counts the outstanding jobs -/

/-- Where the two calls of a job on the counter are, at each point of its life. -/
def ListJob.Agrees (inc dec : CounterCall) : ListJob → Prop
  | .notAdded => inc = .notStarted ∧ dec = .notStarted
  | .adding => (∃ pc, inc = .modify (.increment 1) pc) ∧ dec = .notStarted
  | .threw | .queued | .running =>
      (∃ prev, inc = .modify (.increment 1) (.returned prev)) ∧ dec = .notStarted
  | .finished => (∃ prev, inc = .modify (.increment 1) (.returned prev)) ∧
      ∃ pc, dec = .modify (.decrement 1) pc

namespace ListJob.Agrees

variable {b : BaseCounter} {job : ListJob} {inc dec c : CounterCall} {eff : Effect}

/-- Only the `Increment` of a job that is being added takes steps. -/
theorem next_inc (h : job.Agrees inc dec) (hn : inc.next b = some (eff, c)) :
    job.Agrees c dec ∧ (∃ pc, inc = .modify (.increment 1) pc) ∧ dec = .notStarted := by
  cases job with
  | notAdded => rw [h.1] at hn; cases hn
  | adding =>
    obtain ⟨⟨pc, rfl⟩, hdec⟩ := h
    simp only [CounterCall.next, Option.map_eq_some_iff, Prod.exists, Prod.mk.injEq] at hn
    obtain ⟨_, pc', -, -, rfl⟩ := hn
    exact ⟨⟨⟨pc', rfl⟩, hdec⟩, ⟨pc, rfl⟩, hdec⟩
  | _ =>
    obtain ⟨⟨prev, rfl⟩, -⟩ := h
    cases hn

/-- Only the `Decrement` of a finished job takes steps. -/
theorem next_dec (h : job.Agrees inc dec) (hn : dec.next b = some (eff, c)) :
    job.Agrees inc c ∧ (∃ pc, dec = .modify (.decrement 1) pc) ∧ inc.fetched = true := by
  cases job with
  | finished =>
    obtain ⟨⟨prev, rfl⟩, pc, rfl⟩ := h
    simp only [CounterCall.next, Option.map_eq_some_iff, Prod.exists, Prod.mk.injEq] at hn
    obtain ⟨_, pc', -, -, rfl⟩ := hn
    exact ⟨⟨⟨prev, rfl⟩, pc', rfl⟩, ⟨pc, rfl⟩, rfl⟩
  | _ => rw [h.2] at hn; cases hn

end ListJob.Agrees

/-- The counter of a list is the number of its outstanding jobs. -/
structure CountInv (s : ListState ι κ) : Prop where
  jobs : ∀ j, (s.jobs j).Agrees (s.waits.counter.calls (.increment j))
    (s.waits.counter.calls (.decrement j))
  waits : ∀ x, (s.waits.counter.calls (.wait x)).isModify = false
  outstanding : ∀ j, j ∈ s.outstanding ↔ (s.waits.counter.calls (.increment j)).fetched = true ∧
    (s.waits.counter.calls (.decrement j)).fetched = false
  counter : s.waits.counter.ctr.counter = BitVec.ofNat 32 s.outstanding.card

/-- A modifier that steps from its `fetch` changes the value; one that steps later does not. -/
theorem CounterCall.modify_next {b : BaseCounter} {op : Modifier} {pc : ModifyPc} {eff : Effect}
    {c : CounterCall} (hn : (CounterCall.modify op pc).next b = some (eff, c)) :
    c.fetched = true ∧ (pc = .fetch ∧ eff = .fetch (op.value b.counter) ∨
      pc ≠ .fetch ∧ (CounterCall.modify op pc).fetched = true ∧ ∀ value, eff ≠ .fetch value) := by
  cases pc with
  | fetch =>
    cases hn
    exact ⟨rfl, .inl ⟨rfl, rfl⟩⟩
  | check prev value pc =>
    refine ⟨?_, .inr ⟨nofun, rfl, ?_⟩⟩
    · simp only [CounterCall.next, Option.map_eq_some_iff, Prod.exists, Prod.mk.injEq] at hn
      obtain ⟨_, pc', hpc, -, rfl⟩ := hn
      simp only [ModifyPc.next] at hpc
      split at hpc <;> cases hpc <;> rfl
    · rintro value rfl
      obtain ⟨op', heq, -⟩ := CounterCall.next_fetch hn
      cases heq
  | returned prev => cases hn

section CountInv

variable [DecidableEq ι] [DecidableEq κ] {s s' : ListState ι κ}

/-- A step of a wait does not change the value. -/
private theorem CountInv.step_wait (h : CountInv s) {x : ι} {eff : Effect} {c : CounterCall}
    (hn : (s.waits.counter.calls (.wait x)).next s.waits.counter.ctr = some (eff, c)) :
    CountInv { s with
      waits := { s.waits with counter := s.waits.counter.perform (.wait x) eff c } } where
  jobs j := by simpa using h.jobs j
  waits y := by
    have hkind := s.waits.counter.update_congr (x := .wait x) (c := c) CounterCall.isModify
      (CounterCall.registration_next hn).2 (.wait y)
    exact hkind.trans (h.waits y)
  outstanding j := by simpa using h.outstanding j
  counter := by
    rw [CounterState.perform_ctr, BaseCounter.apply_counter, h.counter]
    rintro value rfl
    obtain ⟨op, heq, -⟩ := CounterCall.next_fetch hn
    have hwait := h.waits x
    simp [heq, CounterCall.isModify] at hwait

/-- `Increment` counts its job when it changes the value. -/
private theorem CountInv.step_increment (h : CountInv s) {j : κ} {eff : Effect} {c : CounterCall}
    (hn : (s.waits.counter.calls (.increment j)).next s.waits.counter.ctr = some (eff, c)) :
    CountInv { s with
      waits := { s.waits with counter := s.waits.counter.perform (.increment j) eff c }
      outstanding := (ListAction.step (.increment j) : ListAction ι κ).onOutstanding s } := by
  obtain ⟨hagree, ⟨pc, hinc⟩, hdec⟩ := (h.jobs j).next_inc hn
  rw [hinc] at hn
  obtain ⟨hfetched, hpc⟩ := CounterCall.modify_next hn
  have hj := h.outstanding j
  rw [hinc, hdec] at hj
  -- the jobs agree with their calls, the count is of the calls, and the value is the count
  refine ⟨fun i => ?_, fun x => by simpa using h.waits x, fun i => ?_, ?_⟩
  · by_cases hij : i = j
    · subst hij
      simpa using hagree
    · simpa [hij] using h.jobs i
  · rcases hpc with ⟨rfl, rfl⟩ | ⟨hne, hbefore, -⟩
    · by_cases hij : i = j
      · subst hij
        simpa [ListAction.onOutstanding, hinc, hdec] using hfetched
      · simpa [ListAction.onOutstanding, hinc, hij] using h.outstanding i
    · by_cases hij : i = j
      · subst hij
        rw [hbefore] at hj
        simpa [ListAction.onOutstanding, hinc, hne, hfetched, hdec] using hj
      · simpa [ListAction.onOutstanding, hinc, hne, hij] using h.outstanding i
  -- the value goes up with the count exactly at the read-modify-write
  · rcases hpc with ⟨rfl, rfl⟩ | ⟨hne, -, hval⟩
    · have hnew : j ∉ s.outstanding := by simp [hj, CounterCall.fetched]
      simp only [ListAction.onOutstanding, hinc, if_true, Finset.card_insert_of_notMem hnew]
      rw [BitVec.ofNat_add, ← h.counter]
      rfl
    · simp only [ListAction.onOutstanding, hinc, CounterCall.modify.injEq, hne, and_false,
        if_false]
      rw [CounterState.perform_ctr, BaseCounter.apply_counter _ hval, h.counter]

/-- `Decrement` takes its job out of the count when it changes the value. -/
private theorem CountInv.step_decrement (h : CountInv s) {j : κ} {eff : Effect} {c : CounterCall}
    (hn : (s.waits.counter.calls (.decrement j)).next s.waits.counter.ctr = some (eff, c)) :
    CountInv { s with
      waits := { s.waits with counter := s.waits.counter.perform (.decrement j) eff c }
      outstanding := (ListAction.step (.decrement j) : ListAction ι κ).onOutstanding s } := by
  obtain ⟨hagree, ⟨pc, hdec⟩, hinc⟩ := (h.jobs j).next_dec hn
  rw [hdec] at hn
  obtain ⟨hfetched, hpc⟩ := CounterCall.modify_next hn
  have hj := h.outstanding j
  rw [hinc, hdec] at hj
  refine ⟨fun i => ?_, fun x => by simpa using h.waits x, fun i => ?_, ?_⟩
  · by_cases hij : i = j
    · subst hij
      simpa using hagree
    · simpa [hij] using h.jobs i
  · rcases hpc with ⟨rfl, rfl⟩ | ⟨hne, hbefore, -⟩
    · by_cases hij : i = j
      · subst hij
        simp [ListAction.onOutstanding, hdec, hfetched]
      · simpa [ListAction.onOutstanding, hdec, hij] using h.outstanding i
    · by_cases hij : i = j
      · subst hij
        rw [hbefore] at hj
        simpa [ListAction.onOutstanding, hdec, hne, hfetched] using hj
      · simpa [ListAction.onOutstanding, hdec, hne, hij] using h.outstanding i
  -- a counted job leaves the count, so that the value was positive
  · rcases hpc with ⟨rfl, rfl⟩ | ⟨hne, -, hval⟩
    · have hold : j ∈ s.outstanding := by simp [hj, CounterCall.fetched]
      have hpos := Finset.card_pos.mpr ⟨j, hold⟩
      simp only [ListAction.onOutstanding, hdec, if_true, Finset.card_erase_of_mem hold]
      change s.waits.counter.ctr.counter - 1 = _
      rw [h.counter, sub_eq_iff_eq_add]
      exact (congrArg (BitVec.ofNat 32) (Nat.sub_add_cancel hpos).symm).trans (BitVec.ofNat_add ..)
    · simp only [ListAction.onOutstanding, hdec, CounterCall.modify.injEq, hne, and_false,
        if_false]
      rw [CounterState.perform_ctr, BaseCounter.apply_counter _ hval, h.counter]

/-- A step inside a call on the counter keeps the count. -/
private theorem CountInv.step_call (h : CountInv s) {y : ListCall ι κ} {eff : Effect}
    {c : CounterCall} (hn : (s.waits.counter.calls y).next s.waits.counter.ctr = some (eff, c)) :
    CountInv { s with
      waits := { s.waits with counter := s.waits.counter.perform y eff c }
      outstanding := (ListAction.step y : ListAction ι κ).onOutstanding s } := by
  cases y with
  | wait x => exact h.step_wait hn
  | increment j => exact h.step_increment hn
  | decrement j => exact h.step_decrement hn

omit [DecidableEq ι] [DecidableEq κ] in
/-- A wait moves outside its calls on the counter. -/
private theorem CountInv.waits_only (h : CountInv s) (waits : ListCall ι κ → WaitCall)
    (n : FlagPtr) :
    CountInv { s with waits := { s.waits with waits := waits, nextFlag := n } } where
  jobs := h.jobs
  waits := h.waits
  outstanding := h.outstanding
  counter := h.counter

/-- A call on the counter begins, and its job or wait with it. -/
private theorem CountInv.begin_call (h : CountInv s) {y : ListCall ι κ} {c : CounterCall}
    (hy : s.waits.counter.calls y = .notStarted) (hc : c.fetched = false ∨ ∃ x, y = .wait x)
    {jobs : κ → ListJob}
    (hjobs : ∀ j, (jobs j).Agrees (Function.update s.waits.counter.calls y c (.increment j))
      (Function.update s.waits.counter.calls y c (.decrement j)))
    (hwait : ∀ x, y = .wait x → c.isModify = false) :
    CountInv { s with
      waits := { s.waits with counter := s.waits.counter.setCall y c }
      jobs := jobs } where
  jobs := hjobs
  waits x := by
    by_cases hxy : ListCall.wait x = y
    · subst hxy
      simpa using hwait x rfl
    · simpa [hxy] using h.waits x
  outstanding j := by
    -- a call that begins has not reached its read-modify-write
    have hsame : ∀ z : ListCall ι κ, (∀ x, z ≠ .wait x) →
        ((s.waits.counter.setCall y c).calls z).fetched = (s.waits.counter.calls z).fetched := by
      intro z hz
      by_cases hzy : z = y
      · subst hzy
        rcases hc with hc | ⟨x, rfl⟩
        · simp [hc, hy]
        · exact absurd rfl (hz x)
      · simp [hzy]
    rw [hsame (.increment j) (fun _ hz => nomatch hz),
      hsame (.decrement j) (fun _ hz => nomatch hz)]
    exact h.outstanding j
  counter := h.counter

/-- Every step of the list keeps the count. -/
theorem CountInv.step (h : CountInv s) {a : ListAction ι κ} (hs : listStep s a = some s') :
    CountInv s' := by
  obtain ⟨hjobs, hout, -⟩ := listStep_eq hs
  obtain ⟨waits', jobs', out'⟩ := s'
  dsimp only at hjobs hout
  subst hout
  cases a with
  | add j =>
    simp only [ListAction.onJobs, Option.ite_none_right_eq_some, Option.some.injEq] at hjobs
    obtain ⟨hj, rfl⟩ := hjobs
    cases WaitStep.of_waitStep (waitStep_of_listStep hs rfl) with
    | beginModify hw hc =>
      refine h.begin_call hc (.inl rfl) (fun i => ?_) fun x hx => nomatch hx
      by_cases hij : i = j
      · subst hij
        have hagree := h.jobs i
        rw [hj] at hagree
        simpa [ListJob.Agrees] using hagree.2
      · simpa [hij] using h.jobs i
  | finish j =>
    simp only [ListAction.onJobs, Option.ite_none_right_eq_some, Option.some.injEq] at hjobs
    obtain ⟨hj, rfl⟩ := hjobs
    cases WaitStep.of_waitStep (waitStep_of_listStep hs rfl) with
    | beginModify hw hc =>
      refine h.begin_call hc (.inl rfl) (fun i => ?_) fun x hx => nomatch hx
      by_cases hij : i = j
      · subst hij
        have hagree := h.jobs i
        rw [hj] at hagree
        simpa [ListJob.Agrees] using hagree.1
      · simpa [hij] using h.jobs i
  | enqueue j full =>
    simp only [ListAction.onJobs, Option.ite_none_right_eq_some, Option.some.injEq] at hjobs
    obtain ⟨⟨hj, hended⟩, rfl⟩ := hjobs
    obtain rfl := waits_of_listStep hs rfl
    refine ⟨fun i => ?_, h.waits, h.outstanding, h.counter⟩
    by_cases hij : i = j
    · subst hij
      -- `Add` goes on to the queue only after its `Increment` has returned
      obtain ⟨hagree, hdec⟩ : (ListJob.adding).Agrees _ _ := hj ▸ h.jobs i
      obtain ⟨pc, hinc⟩ := hagree
      rw [hinc] at hended
      obtain ⟨prev, rfl⟩ : ∃ prev, pc = .returned prev := by
        cases pc <;> first | exact ⟨_, rfl⟩ | cases hended
      cases full <;> simpa [ListJob.Agrees] using ⟨⟨prev, hinc⟩, hdec⟩
    · simpa [hij] using h.jobs i
  | start j =>
    simp only [ListAction.onJobs, Option.ite_none_right_eq_some, Option.some.injEq] at hjobs
    obtain ⟨hj, rfl⟩ := hjobs
    obtain rfl := waits_of_listStep hs rfl
    refine ⟨fun i => ?_, h.waits, h.outstanding, h.counter⟩
    by_cases hij : i = j
    · subst hij
      have hagree : (ListJob.queued).Agrees _ _ := hj ▸ h.jobs i
      simpa [ListJob.Agrees] using hagree
    · simpa [hij] using h.jobs i
  -- the other actions are those of waits, which do not move the jobs
  | wait x fiberIndex targetValue =>
    obtain rfl : s.jobs = jobs' := Option.some.inj hjobs
    cases WaitStep.of_waitStep (waitStep_of_listStep hs rfl) with
    | beginWait _ _ => exact h.waits_only _ _
  | getValue x =>
    obtain rfl : s.jobs = jobs' := Option.some.inj hjobs
    cases WaitStep.of_waitStep (waitStep_of_listStep hs rfl) with
    | already _ _ => exact h.waits_only _ _
    | register _ _ _ hc =>
      refine (h.begin_call hc (.inr ⟨x, rfl⟩) (fun j => ?_) fun _ _ => rfl).waits_only _ _
      simpa using h.jobs j
  | step y =>
    obtain rfl : s.jobs = jobs' := Option.some.inj hjobs
    cases WaitStep.of_waitStep (waitStep_of_listStep hs rfl) with
    | step hn => exact h.step_call hn
  | endAdd x =>
    obtain rfl : s.jobs = jobs' := Option.some.inj hjobs
    cases WaitStep.of_waitStep (waitStep_of_listStep hs rfl) with
    | resolved _ _ => exact h.waits_only _ _
    | sleep _ _ => exact h.waits_only _ _
  | resume x y =>
    obtain rfl : s.jobs = jobs' := Option.some.inj hjobs
    cases WaitStep.of_waitStep (waitStep_of_listStep hs rfl) with
    | resume _ _ => exact h.waits_only _ _

/-- A job that has been added stays added, and a finished one finished. -/
theorem jobs_step {a : ListAction ι κ} (hs : listStep s a = some s') (j : κ) :
    ((s.jobs j).added = true → (s'.jobs j).added = true) ∧
      (s.jobs j = .finished → s'.jobs j = .finished) := by
  obtain ⟨hjobs, -, -⟩ := listStep_eq hs
  have hupdate : ∀ {i : κ} {before after : ListJob}, s.jobs i = before → before ≠ .finished →
      (before.added = true → after.added = true) →
      ((s.jobs j).added = true → (Function.update s.jobs i after j).added = true) ∧
        (s.jobs j = .finished → Function.update s.jobs i after j = .finished) := by
    intro i before after hi hne hadd
    by_cases hji : j = i
    · subst hji
      rw [hi, Function.update_self]
      exact ⟨hadd, fun h => absurd h hne⟩
    · rw [Function.update_of_ne hji]
      exact ⟨id, id⟩
  -- every action moves a job forward in its life, and none leaves `finished`
  cases a with
  | add i | start i | finish i =>
    simp only [ListAction.onJobs, Option.ite_none_right_eq_some, Option.some.injEq] at hjobs
    rw [← hjobs.2]
    exact hupdate hjobs.1 nofun (by decide)
  | enqueue i full =>
    simp only [ListAction.onJobs, Option.ite_none_right_eq_some, Option.some.injEq] at hjobs
    rw [← hjobs.2]
    exact hupdate hjobs.1.1 nofun nofun
  | _ =>
    rw [← Option.some.inj hjobs]
    exact ⟨id, id⟩

omit [DecidableEq ι] [DecidableEq κ] in
/-- Nothing that has been added is unfinished when the counter is zero. -/
theorem CountInv.finished_of_zero (h : CountInv s) (hcard : s.outstanding.card < 2 ^ 32)
    (hzero : s.waits.counter.ctr.counter = 0) {j : κ} (hj : (s.jobs j).added = true) :
    s.jobs j = .finished := by
  have hempty : s.outstanding = ∅ := by
    rw [h.counter] at hzero
    have hval := congrArg BitVec.toNat hzero
    rw [BitVec.toNat_ofNat, Nat.mod_eq_of_lt hcard] at hval
    exact Finset.card_eq_zero.mp hval
  have hout := h.outstanding j
  have hagree := h.jobs j
  rw [hempty] at hout
  cases hjob : s.jobs j with
  | finished => rfl
  | queued | running =>
    rw [hjob] at hagree
    obtain ⟨⟨prev, hinc⟩, hdec⟩ := hagree
    simp [hinc, hdec, CounterCall.fetched] at hout
  | _ => simp [hjob, ListJob.added] at hj

end CountInv

/-! ## Waiting for a list -/

/-- `Add` has returned for job `j`, and `Wait` has not yet been called for wait `x`. -/
def AddedBefore (x : ι) (j : κ) (s : ListState ι κ) : Prop :=
  s.waits.waits (.wait x) = .notStarted ∧ (s.jobs j).added = true

instance (x : ι) (j : κ) : DecidablePred (AddedBefore x j) :=
  fun _ => inferInstanceAs (Decidable (_ ∧ _))

/-- What a run of a list remembers. -/
structure ListSeen (h : History (ListState ι κ) (ListAction ι κ)) (s : ListState ι κ) : Prop where
  begun : ∀ x, h.Once (fun s => s.waits.waits (.wait x) ≠ .notStarted) →
    s.waits.waits (.wait x) ≠ .notStarted
  added : ∀ j, h.Once (fun s => (s.jobs j).added = true) → (s.jobs j).added = true
  done : ∀ x j, h.Once (fun s => At (.wait x) 0 s.waits) → h.Once (AddedBefore x j) →
    s.jobs j = .finished

section Run

variable [DecidableEq ι] [DecidableEq κ] {s s' : ListState ι κ}
  {h : History (ListState ι κ) (ListAction ι κ)}

/-- Every step of a list that counts its jobs keeps the record. -/
theorem ListSeen.step (hI : ListSeen h s) (hcount : CountInv s) {a : ListAction ι κ}
    (hcard : s.outstanding.card < 2 ^ 32) (hs : listStep s a = some s') :
    ListSeen ((s, a) :: h) s' := by
  have hbegun : ∀ x, s.waits.waits (.wait x) ≠ .notStarted →
      s'.waits.waits (.wait x) ≠ .notStarted := by
    intro x hx
    obtain ⟨-, -, ⟨-, hsame⟩ | ⟨b, -, hstep⟩⟩ := listStep_eq hs
    · rwa [hsame]
    · exact (waits_step (.of_waitStep hstep) hx).1
  refine ⟨fun x hx => ?_, fun j hj => ?_, fun x j hseen hadded => ?_⟩
  · exact hbegun x ((History.once_cons.mp hx).elim id (hI.begun x))
  · exact (jobs_step hs j).1 ((History.once_cons.mp hj).elim id (hI.added j))
  · refine (jobs_step hs j).2 ?_
    have hnot : ∀ {s : ListState ι κ}, At (.wait x) 0 s.waits →
        s.waits.waits (.wait x) ≠ .notStarted := by
      rintro s ⟨hin, -⟩ heq
      simp [heq, WaitCall.inProgress] at hin
    rcases History.once_cons.mp hadded with hnow | hbefore
    · -- a job that is added now cannot be one that a wait has already seen counted
      rcases History.once_cons.mp hseen with hat | hat
      · exact absurd hnow.1 (hnot hat)
      · exact absurd hnow.1 (hI.begun x (hat.mono fun _ => hnot))
    · rcases History.once_cons.mp hseen with hat | hat
      · exact hcount.finished_of_zero hcard hat.2
          (hI.added j (hbefore.mono fun _ hb => hb.2))
      · exact hI.done x j hat hbefore

/-- Every run of a list counts its jobs and keeps the record. -/
theorem listInv_of_run {n : ℕ} (hr : (listSystem n ι κ).Run ListInOrder h s) :
    CountInv s ∧ ListSeen h s := by
  refine hr.invariant (P := fun h s => CountInv s ∧ ListSeen h s) ?_ ?_
  · rintro s rfl
    refine ⟨⟨fun _ => ⟨rfl, rfl⟩, fun _ => rfl, fun j => ?_, rfl⟩, ?_⟩
    · simp [CounterState.idle, CounterCall.fetched]
    · exact ⟨fun _ hx => absurd hx History.not_once_nil,
        fun _ hj => absurd hj History.not_once_nil,
        fun _ _ hx => absurd hx History.not_once_nil⟩
  · rintro h s a s' - ⟨hcount, hseen⟩ hok hs
    exact ⟨hcount.step hs, hseen.step hcount hok.2 hs⟩

end Run

/-- `WaitForCounter` does not return early, in any run whose claims are in order: when it has
returned, the counter had the target value at a moment between the call and the return. And
`List::Wait(0)`, in any run of a list whose claims are in order and whose counter does not wrap,
returns only after every job added before it was called has finished. -/
theorem wait_not_early (n : ℕ) :
    (∀ (ι : Type) [DecidableEq ι] (h : History (WaitState ι) (WaitAction ι))
      (s : WaitState ι), (waitSystem n ι).Run ClaimsInOrder h s →
        ∀ x target, s.waits x = .returned target → h.Once (At x target)) ∧
    ∀ (ι κ : Type) [DecidableEq ι] [DecidableEq κ]
      (h : History (ListState ι κ) (ListAction ι κ)) (s : ListState ι κ),
      (listSystem n ι κ).Run ListInOrder h s →
        ∀ x, s.waits.waits (.wait x) = .returned 0 →
          ∀ j, h.Once (AddedBefore x j) → s.jobs j = .finished := by
  refine ⟨fun ι _ h s hr x target hx => (waitInv_of_run hr).seen.returned x target hx,
    fun ι κ _ _ h s hr x hx j hj => ?_⟩
  have hseen := (waitInv_of_run (waits_of_listRun hr)).seen.returned (.wait x) 0 hx
  exact (listInv_of_run hr).2.done x j hseen.of_image hj

/-- A fiber waits for the counter of one to fall to zero, and is resumed by the decrement. -/
def waitForDecrement {ι : Type} (inc wait dec : ι) : List (WaitAction ι) :=
  [.beginModify inc (.increment 1)] ++ List.replicate 7 (WaitAction.step inc) ++
    [.beginWait wait 10 0, .getValue wait] ++ List.replicate 8 (WaitAction.step wait) ++
    [.endAdd wait] ++ [.beginModify dec (.decrement 1)] ++
    List.replicate 7 (WaitAction.step dec) ++ [.resume wait dec]

/-- A list of one job, which is waited for before it starts. -/
def waitForJob : List (ListAction Unit Unit) :=
  [.add ()] ++ List.replicate 7 (ListAction.step (.increment ())) ++
    [.enqueue () false, .wait () 10 0, .getValue ()] ++
    List.replicate 8 (ListAction.step (.wait ())) ++ [.endAdd (), .start (), .finish ()] ++
    List.replicate 7 (ListAction.step (.decrement ())) ++ [.resume () (.decrement ())]

/-- Both waits have returned in time. -/
theorem wait_not_early_decrement :
    (∃ (h : History (WaitState (Fin 4)) (WaitAction (Fin 4))) (s : WaitState (Fin 4)),
      (waitSystem BaseCounter.maxWaiting (Fin 4)).Run ClaimsInOrder h s ∧
        s.waits 0 = .returned 0 ∧ h.Once (At 0 0)) ∧
    ∃ (h : History (ListState Unit Unit) (ListAction Unit Unit)) (s : ListState Unit Unit),
      (listSystem BaseCounter.maxWaiting Unit Unit).Run ListInOrder h s ∧
        s.waits.waits (.wait ()) = .returned 0 ∧ s.jobs () = .finished := by
  have hwait : ∃ (h : History (WaitState (Fin 4)) (WaitAction (Fin 4))) (s : WaitState (Fin 4)),
      (waitSystem BaseCounter.maxWaiting (Fin 4)).Run ClaimsInOrder h s ∧
        s.waits 0 = .returned 0 :=
    System.exists_run_of_trace rfl (waitForDecrement 3 0 1) (by decide)
  have hlist : ∃ (h : History (ListState Unit Unit) (ListAction Unit Unit))
      (s : ListState Unit Unit),
      (listSystem BaseCounter.maxWaiting Unit Unit).Run ListInOrder h s ∧
        s.waits.waits (.wait ()) = .returned 0 ∧ h.Once (AddedBefore () ()) :=
    System.exists_run_of_trace rfl waitForJob (by decide)
  obtain ⟨h, s, hr, hx⟩ := hwait
  obtain ⟨h', s', hr', hx', hj⟩ := hlist
  exact ⟨⟨h, s, hr, hx, (wait_not_early _).1 _ h s hr 0 0 hx⟩,
    h', s', hr', hx', (wait_not_early _).2 _ _ h' s' hr' () hx' () hj⟩

/-- A decrement to zero announces zero only after the value has risen to one again, and after a wait
for zero has begun. -/
def lateAnnouncement {ι : Type} (inc wait dec inc' : ι) : List (WaitAction ι) :=
  [.beginModify inc (.increment 1)] ++ List.replicate 7 (WaitAction.step inc) ++
    [.beginModify dec (.decrement 1), .step dec, .beginModify inc' (.increment 1), .step inc'] ++
    [.beginWait wait 10 0, .getValue wait] ++ List.replicate 8 (WaitAction.step wait) ++
    [.endAdd wait] ++ List.replicate 6 (WaitAction.step dec) ++ [.resume wait dec]

/-- The wait returns although the value has not been zero since it was called. -/
theorem wait_early :
    ∃ (h : History (WaitState (Fin 4)) (WaitAction (Fin 4))) (s : WaitState (Fin 4)),
      (waitSystem BaseCounter.maxWaiting (Fin 4)).Run (fun _ _ _ => True) h s ∧
        s.waits 0 = .returned 0 ∧ ¬ h.Once (At 0 0) :=
  System.exists_run_of_trace rfl (lateAnnouncement 3 0 1 2) (by decide)

end NomadTasks
