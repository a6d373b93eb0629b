import NomadTasks.Manager.Outstanding
import NomadTasks.Manager.Rounds
import NomadTasks.Manager.Waiters

/-!
# A round ends when its job is done

The job of a round increments the counter, and the fiber that executes it decrements the counter
after the delegate. In between the counter is not zero, so that the wait of the round goes on,
unless a scan that has announced an earlier zero takes the registration.

* `InTurn`: no scan does.
* `RoundEndInv`: at most one job is outstanding, and none before and after the wait of a round.
* `roundEndInv_of_run`: every such run keeps to it.
-/

namespace NomadTasks

open Transition Ownership

/-! ## The condition -/

/-- The step is the exchange of a scan on counter `c`, which takes a registration although the
counter does not have the value that is waited for. -/
def claimsLate (c : CtrId) (s : ManagerState) (a : ManagerAction) : Bool :=
  match s.counterCall a.thread with
  | some (d, x) =>
      decide (d = c) &&
        match (s.counters d).calls x with
        | .modify _ (.check _ _ (.casInUse i)) =>
            !((s.counters d).ctr.waitingFibers i).inUse &&
              decide (((s.counters d).ctr.waitingFibers i).targetValue ≠ s.value d)
        | _ => false
  | none => false

/-- The condition of a run: it is orderly and no wait is refused, no `ScheduleJob` of a job bound to
counter `c` throws, and no scan on it takes a registration late. -/
def InTurn (c : CtrId) (h : History ManagerState ManagerAction) (s : ManagerState)
    (a : ManagerAction) : Prop :=
  OrderlyUnrefused h s a ∧ ThroughJobs c h s a ∧ claimsLate c s a = false

instance (c : CtrId) (h : History ManagerState ManagerAction) (s : ManagerState)
    (a : ManagerAction) : Decidable (InTurn c h s a) :=
  inferInstanceAs (Decidable (_ ∧ _ ∧ _))

/-! ## The invariant -/

/-- The fiber is in a round, and the job of the round is not counted yet, or done. -/
def ManagerState.between (s : ManagerState) : FiberPc → Bool
  | .queueStep .. | .begin (.scheduleJob ..) _ | .waitForCounter _ _ _ _ (.deleteStored _)
  | .cleanup _ (.waitForCounter ..) | .waited .. => true
  | .call (.scheduleJob ..) c x => !((s.counters c).calls x).modified
  | _ => false

/-- It depends on whether a call has changed the value. -/
theorem ManagerState.between_congr {s s' : ManagerState} {pc : FiberPc}
    (h : ∀ use c x, pc = .call use c x →
      ((s'.counters c).calls x).modified = ((s.counters c).calls x).modified) :
    s'.between pc = s.between pc := by
  cases pc with
  | call use c x => cases use <;> simp only [ManagerState.between, h _ c x rfl]
  | «begin» use c => cases use <;> rfl
  | cleanup pc caller => cases caller <;> rfl
  | waitForCounter ctx caller c v pc => cases pc <;> rfl
  | _ => rfl

/-- An `AddWaitingFiber` that goes on to resolve its own registration for zero has seen a zero, and
the value is still zero. -/
def CounterCall.SawZero (value : CounterUnit) : CounterCall → Prop
  | .addWaiting _ (.loadInUse _ counter) | .addWaiting _ (.compareTarget _ counter) =>
      counter = 0 → value = 0
  | .addWaiting _ (.casInUse _) => value = 0
  | _ => True

/-- At most one job bound to counter `c` is outstanding, and there is none outside the rounds,
before the job of a round is counted, and after its wait. A registration that has been claimed has
been claimed at zero, and so has a wait that has been resumed. -/
structure RoundEndInv (c : CtrId) (s : ManagerState) : Prop where
  target : ∀ x reg, ((s.counters c).calls x).registration = some reg → reg.targetValue = 0
  slots : ∀ i, ((s.counters c).ctr.waitingFibers i).targetValue = 0
  loaded : ∀ f use x, (s.fibers f).pc = .call use c x →
    ((s.counters c).calls x).SawZero (s.value c)
  claimed : ∀ p x y, s.flags p ≠ none → s.flagCall p = some (c, x) →
    x ∈ (s.counters c).claims y → s.value c = 0
  resumed : ∀ f ctx caller v p, (s.fibers f).pc = .waitForCounter ctx caller c v (.parked p) →
    ¬ (s.flags p ≠ none ∧ s.flagFiber p = f) → s.value c = 0
  between : ∀ f, (s.fibers f).pc.round = some c → s.between (s.fibers f).pc = true → s.value c = 0
  outside : (∀ f, (s.fibers f).pc.round ≠ some c) → s.value c = 0
  caught : ∀ f ctx caller, (s.fibers f).pc = .threw ctx caller → caller.ctr ≠ some c
  one : ∀ n, s.StartedBelow n → s.outstanding c n ≤ 1

/-! ## Registrations for zero -/

section Counter

variable {b : BaseCounter} {call call' : CounterCall} {eff : Effect}

/-- A store to a slot leaves the target value there, or stores that of the registration. -/
private theorem CounterCall.target_of_write {i : ℕ} {slot : WaitingFibers}
    (hn : call.next b = some (.write i slot, call')) :
    slot.targetValue = (b.waitingFibers i).targetValue ∨
      ∃ reg, call.registration = some reg ∧ slot.targetValue = reg.targetValue := by
  rcases call with _ | ⟨reg, pc⟩ | ⟨op, _ | ⟨prev, announced, pc⟩ | prev⟩
  · cases hn
  · revert hn
    simp only [CounterCall.next]
    fun_cases AddPc.next b reg pc <;> simp [CounterCall.registration] <;> rintro rfl rfl - <;> simp
  · cases hn
  · revert hn
    simp only [CounterCall.next, ModifyPc.next]
    fun_cases ScanPc.next b announced pc <;> simp
  · cases hn

/-- Where all registrations are for zero, no other target value is in a slot. -/
private theorem CounterCall.slots_next (hn : call.next b = some (eff, call'))
    (hslots : ∀ i, (b.waitingFibers i).targetValue = 0)
    (htarget : ∀ reg, call.registration = some reg → reg.targetValue = 0) (i : ℕ) :
    ((b.apply eff).waitingFibers i).targetValue = 0 := by
  by_cases hwrite : ∃ slot, eff = .write i slot
  · obtain ⟨slot, rfl⟩ := hwrite
    show (Function.update b.waitingFibers i slot i).targetValue = 0
    rw [Function.update_self]
    rcases CounterCall.target_of_write hn with hold | ⟨reg, hreg, hnew⟩
    · rw [hold, hslots]
    · rw [hnew, htarget reg hreg]
  · rw [(b.apply_fields eff i fun slot h => hwrite ⟨slot, h⟩).2.2, hslots]

/-- A step of an `AddWaitingFiber` that waits for zero compares with the value that it has loaded.
-/
private theorem CounterCall.SawZero.next (h : call.SawZero b.counter)
    (hn : call.next b = some (eff, call')) (hslots : ∀ i, (b.waitingFibers i).targetValue = 0) :
    call'.SawZero (b.apply eff).counter := by
  rcases call with _ | ⟨reg, pc⟩ | ⟨op, pc⟩
  · cases hn
  · revert hn h
    simp only [CounterCall.next]
    fun_cases AddPc.next b reg pc <;> rintro h ⟨⟩ <;>
      simp_all [CounterCall.SawZero, BaseCounter.apply]
  · simp only [CounterCall.next, Option.map_eq_some_iff, Prod.mk.injEq] at hn
    obtain ⟨⟨eff', pc'⟩, -, -, rfl⟩ := hn
    trivial

/-- What has been seen is still true, as long as the value stays zero. -/
private theorem CounterCall.SawZero.mono {value value' : CounterUnit} (h : call.SawZero value)
    (hz : value = 0 → value' = 0) : call.SawZero value' := by
  rcases call with _ | ⟨reg, pc⟩ | ⟨op, pc⟩
  · trivial
  · cases pc with
    | loadInUse | compareTarget => exact fun hc => hz (h hc)
    | casInUse => exact hz h
    | _ => trivial
  · trivial

end Counter

/-- The step does not make a call on counter `c` change the value: a call that it begins has not,
and the one that it goes on with has if it had before. -/
def ModifiedKept (c : CtrId) (s s' : ManagerState) (pc pc' : FiberPc) : Prop :=
  ∀ use x, pc' = .call use c x →
    pc = .begin use c ∧ ((s'.counters c).calls x).modified = false ∨
    pc = .call use c x ∧
      ((s'.counters c).calls x).modified = ((s.counters c).calls x).modified

/-- A call does not take back that it has changed the value. -/
theorem CounterMove.modified_kept {s s' : ManagerState} {f : ℕ} {use : CounterUse} {d : CtrId}
    {x : ℕ} {pc' : FiberPc} (hm : CounterMove s s' f (.call use d x) pc')
    (hmod : ((s.counters d).calls x).modified = true) :
    ((s'.counters d).calls x).modified = true := by
  cases hm with
  | continues hn hs =>
    rw [hs, Function.update_self, CounterState.perform_calls, Function.update_self]
    rcases CounterCall.value_of_next hn with ⟨op, -, -, hnew⟩ | ⟨-, hsame⟩
    · exact hnew
    · rwa [hsame]
  | other hs => rwa [hs]

/-! ## What a step does in a round -/

section Step

variable {opts : ManagerOptions} {s : ManagerState} {f tls : ℕ} {act : Act} {pc pc' : FiberPc}
  {c : CtrId}

/-- How a fiber comes to be between the jobs of its rounds: it was so before, or enters, or a wait
is over. -/
theorem FiberStep.between_cases (h : FiberStep opts s f tls pc act pc') {s' : ManagerState}
    (hmod : ∀ use d x, pc = .call use d x → ((s.counters d).calls x).modified = true →
      ((s'.counters d).calls x).modified = true)
    (hround : pc'.round = some c) (hpc : s'.between pc' = true) :
    (pc.round = none ∧ s.busy c = false) ∨ pc.round = some c ∧ (s.between pc = true ∨
      (∃ ctx caller d v, pc = .waitForCounter ctx caller d v .getValue ∧ s.value d = v) ∨
      (∃ ctx caller d v p x reg, pc = .call (.waitForCounter ctx caller v p) d x ∧
        (s.counters d).calls x = .addWaiting reg (.returned true)) ∨
      ∃ ctx caller d v p, pc = .waitForCounter ctx caller d v (.parked p)) := by
  cases h with
  | opScheduleCounter => simp [FiberPc.round, Caller.ctr] at hround
  | opSingle hn =>
    cases hround
    exact .inl ⟨rfl, by simp [ManagerState.busy, hn]⟩
  | opExecute hq =>
    cases hround
    exact .inl ⟨rfl, hq⟩
  | @«begin» use d x hx =>
    cases use with
    | scheduleJob => exact .inr ⟨hround, .inl rfl⟩
    | _ => cases hpc
  | @call use d x hx =>
    cases use with
    | scheduleJob ctx caller prio job =>
      refine .inr ⟨hround, .inl ?_⟩
      cases hold : ((s.counters d).calls x).modified with
      | false => simp [ManagerState.between, hold]
      | true => simp [ManagerState.between, hmod _ d x rfl hold] at hpc
    | _ => cases hpc
  | waitReached hv => exact .inr ⟨hround, .inr (.inl ⟨_, _, _, _, rfl, hv⟩)⟩
  | addReached hx => exact .inr ⟨hround, .inr (.inr (.inl ⟨_, _, _, _, _, _, _, rfl, hx⟩))⟩
  | waitResumed => exact .inr ⟨hround, .inr (.inr (.inr ⟨_, _, _, _, _, rfl⟩))⟩
  | @previousPool k | @previousWaiting k | @storeIdle k | @storeStored k =>
    cases k with
    | waitForCounter => exact .inr ⟨hround, .inl rfl⟩
    | _ => cases hround
  | deleteStored | waitedQueue | nothingWait | cleanupWait | queueFront =>
    exact .inr ⟨hround, .inl rfl⟩
  | _ => cases hpc

/-- A fiber leaves a round after the wait, or with an exception. -/
theorem FiberStep.leaves_round (h : FiberStep opts s f tls pc act pc') (hpc : pc.round = some c)
    (hround : pc'.round ≠ some c) :
    s.between pc = true ∨ ∃ ctx caller, pc = .threw ctx caller ∧ caller.ctr = some c := by
  cases h with
  | waitedSingle | waitedQueue | queueEmpty => exact .inl rfl
  | threw => exact .inr ⟨_, _, rfl, hpc⟩
  | @«begin» use | @call use => cases use <;> exact absurd hpc hround
  | @previousPool k | @previousWaiting k | @storeIdle k | @storeStored k =>
    cases k <;> exact absurd hpc hround
  | _ => first | exact absurd hpc hround | cases hpc

/-- A fiber has at most the job that it executes, and one that it schedules. -/
theorem ManagerState.owes_le (s : ManagerState) (c : CtrId) (pc : FiberPc) : s.owes c pc ≤ 2 := by
  have hjob : ∀ job : JobInfo, job.owes c ≤ 1 := by
    intro job
    simp only [JobInfo.owes]
    split <;> omega
  have hctx : ∀ ctx : Ctx, ctx.owes c ≤ 1 := by
    intro ctx
    cases ctx with
    | main => simp [Ctx.owes]
    | job info => exact hjob info
  cases pc with
  | execute job => exact (hjob job).trans (by omega)
  | enqueue ctx caller prio job => exact Nat.add_le_add (hctx ctx) (hjob job)
  | «begin» use d =>
    cases use with
    | execute =>
      simp only [ManagerState.owes]
      split <;> omega
    | _ => exact (hctx _).trans (by omega)
  | call use d x =>
    cases use with
    | scheduleJob ctx =>
      have hle := hctx ctx
      simp only [ManagerState.owes]
      split <;> omega
    | execute =>
      simp only [ManagerState.owes]
      split <;> omega
    | _ => exact (hctx _).trans (by omega)
  | cleanup pc caller =>
    cases caller with
    | waitForCounter ctx => exact (hctx ctx).trans (by omega)
    | _ => simp [ManagerState.owes]
  | body ctx | threw ctx | waitForCounter ctx | waited ctx | queueStep ctx =>
    exact (hctx ctx).trans (by omega)
  | _ => simp [ManagerState.owes]

/-- At most one job is added to the queues. -/
theorem ManagerState.queued_apply_le (s : ManagerState) (t f : ℕ) (act : Act) (c : CtrId) :
    (s.apply t f act).queued c ≤ s.queued c + 1 := by
  by_cases henq : ∃ prio job, act = .enqueue prio job
  · obtain ⟨prio, job, rfl⟩ := henq
    rw [ManagerState.queued_enqueue, JobInfo.owes]
    split <;> omega
  by_cases hdeq : ∃ prio, act = .dequeue prio
  · obtain ⟨prio, rfl⟩ := hdeq
    cases hj : s.jobs prio with
    | nil =>
      refine le_of_eq_of_le ?_ (Nat.le_succ _)
      cases prio <;> simp [ManagerState.queued, ManagerState.apply, hj]
    | cons job rest =>
      have hqueued := ManagerState.queued_dequeue (t := t) (f := f) (c := c) hj
      omega
  · rw [ManagerState.queued_other (fun prio job h => henq ⟨prio, job, h⟩)
      fun prio h => hdeq ⟨prio, h⟩]
    omega

end Step

namespace RoundEndInv

variable {opts : ManagerOptions} {s s' : ManagerState} {t f : ℕ} {act : Act} {pc' : FiberPc}
  {c : CtrId}

/-- The value of the counter is the number of the outstanding jobs. -/
theorem toNat_value (hi : RoundEndInv c s) (hout : OutstandingInv c s) {n : ℕ}
    (hn : s.StartedBelow n) : (s.value c).toNat = s.outstanding c n := by
  have hone := hi.one n hn
  rw [hout.counts n hn, BitVec.toNat_ofNat, Nat.mod_eq_of_lt (by omega)]

/-- A fiber that has a job bound to the counter is one that has started. -/
theorem lt_of_owed {n : ℕ} (hn : s.StartedBelow n) (hf : 0 < s.owed c f) : f < n := by
  by_contra hge
  rw [ManagerState.owed, hn f (by omega)] at hf
  cases hf

/-- While a fiber has a job bound to the counter, the value is one, no such job is queued, and no
other fiber has one. -/
theorem of_owed (hi : RoundEndInv c s) (hout : OutstandingInv c s) (hf : 0 < s.owed c f) :
    s.value c = 1 ∧ s.queued c = 0 ∧ s.owed c f = 1 ∧ ∀ g, g ≠ f → s.owed c g = 0 := by
  obtain ⟨n, hn⟩ := hout.started
  have hone := hi.one n hn
  have hlt := lt_of_owed hn hf
  have hle := le_tally (s.owed c) hlt
  have hvalue := hi.toNat_value hout hn
  simp only [ManagerState.outstanding] at hone hvalue
  refine ⟨?_, by omega, by omega, fun g hgf => ?_⟩
  · apply BitVec.eq_of_toNat_eq
    rw [hvalue]
    show _ = 1
    omega
  · by_contra hg
    have hg' : 0 < s.owed c g := Nat.pos_of_ne_zero hg
    exact hgf (eq_of_tally_le_one (by omega) (lt_of_owed hn hg') hlt hg' hf)

/-- While a job bound to the counter is queued, the value is one, and no fiber has such a job. -/
theorem of_queued (hi : RoundEndInv c s) (hout : OutstandingInv c s) (hq : 0 < s.queued c) :
    s.value c = 1 ∧ s.queued c = 1 ∧ ∀ g, s.owed c g = 0 := by
  obtain ⟨n, hn⟩ := hout.started
  have hone := hi.one n hn
  have hvalue := hi.toNat_value hout hn
  simp only [ManagerState.outstanding] at hone hvalue
  refine ⟨?_, by omega, fun g => ?_⟩
  · apply BitVec.eq_of_toNat_eq
    rw [hvalue]
    show _ = 1
    omega
  · by_contra hg
    have hg' : 0 < s.owed c g := Nat.pos_of_ne_zero hg
    have hle := le_tally (s.owed c) (lt_of_owed hn hg')
    omega

/-- At zero, no job bound to the counter is queued, and no fiber has one. -/
theorem of_zero (hi : RoundEndInv c s) (hout : OutstandingInv c s) (hz : s.value c = 0) :
    s.queued c = 0 ∧ ∀ g, s.owed c g = 0 := by
  constructor
  · by_contra hq
    rw [(hi.of_queued hout (Nat.pos_of_ne_zero hq)).1] at hz
    cases hz
  · intro g
    by_contra hg
    rw [(hi.of_owed hout (Nat.pos_of_ne_zero hg)).1] at hz
    cases hz

/-- How a step of fiber `f` changes the value: its round counts a job, or it is done with one. -/
theorem value_cases (hi : RoundEndInv c s) (hout : OutstandingInv c s) (hround : RoundInv s)
    (hc : c.owner ≠ .body) (hm : CounterMove s s' f (s.fibers f).pc pc') :
    (∃ ctx caller prio job x, (s.fibers f).pc = .call (.scheduleJob ctx caller prio job) c x ∧
      pc' = .call (.scheduleJob ctx caller prio job) c x ∧ (s.fibers f).pc.round = some c ∧
      (s.counters c).calls x = .modify (.increment 1) .fetch ∧
      ((s'.counters c).calls x).modified = true ∧ s.value c = 0 ∧ s'.value c = 1) ∨
    (∃ x, (s.fibers f).pc = .call .execute c x ∧
      (s.counters c).calls x = .modify (.decrement 1) .fetch ∧ s.value c = 1 ∧ s'.value c = 0) ∨
    s'.value c = s.value c ∧ ModifiedKept c s s' (s.fibers f).pc pc' := by
  rcases hm.value_cases c with ⟨use, x, op, hpc, hpc', hcall, hvalue, hmod⟩ | hkept
  · have hmakes := hout.calls.makes f use c x hpc
    rw [hcall] at hmakes
    have hown := hround.own f
    rw [hpc] at hown
    cases use with
    | scheduleJob ctx caller prio job =>
      obtain rfl : op = .increment 1 := hmakes
      have hcaller : caller = c.owner := hown
      have hin : (s.fibers f).pc.round = some c := by
        rw [hpc, FiberPc.round, hcaller]
        exact CtrId.owner_ctr hc
      have hzero : s.value c = 0 := hi.between f hin (by
        rw [hpc, ManagerState.between, hcall]
        rfl)
      exact .inl ⟨ctx, caller, prio, job, x, hpc, hpc', hin, hcall, hmod, hzero, by
        rw [hvalue, hzero]
        rfl⟩
    | execute =>
      obtain rfl : op = .decrement 1 := hmakes
      have howed := hout.owed_of_decrement hpc hcall
      have hone := (hi.of_owed hout (f := f) (by omega)).1
      exact .inr (.inl ⟨x, hpc, hcall, hone, by rw [hvalue, hone]; rfl⟩)
    | modify ctx op' => exact absurd hown hc
    | waitForCounter => cases hmakes
  · exact .inr (.inr hkept)

/-- The value stays zero, unless the fiber counts the job of its round. -/
theorem zero_kept (hi : RoundEndInv c s) (hout : OutstandingInv c s) (hround : RoundInv s)
    (hc : c.owner ≠ .body) (hm : CounterMove s s' f (s.fibers f).pc pc')
    (hnot : ∀ ctx caller prio job x,
      (s.fibers f).pc = .call (.scheduleJob ctx caller prio job) c x →
      pc' = .call (.scheduleJob ctx caller prio job) c x → (s.fibers f).pc.round = some c →
      ((s'.counters c).calls x).modified = true → False)
    (hz : s.value c = 0) : s'.value c = 0 := by
  rcases hi.value_cases hout hround hc hm with
    ⟨ctx, caller, prio, job, x, hpc, hpc', hin, -, hmod, -⟩ | ⟨-, -, -, -, hvalue⟩ | ⟨hvalue, -⟩
  · exact (hnot ctx caller prio job x hpc hpc' hin hmod).elim
  · exact hvalue
  · exact hvalue.trans hz

end RoundEndInv

/-- What is known in every such run. -/
structure InTurnInv (c : CtrId) (s : ManagerState) : Prop where
  manager : ManagerInv s
  lifetime : LifetimeInv s
  parked : ParkedInv s
  rounds : RoundInv s
  outstanding : OutstandingInv c s

namespace InTurnInv

variable {s : ManagerState} {c : CtrId} {p : FlagPtr} {x : ℕ}

/-- A wait of the caller of counter `c` is in a round of it. -/
theorem round_of_owner (hc : c.owner ≠ .body) {caller : Caller} (h : caller = c.owner) :
    caller.ctr = some c := by
  rw [h]
  exact CtrId.owner_ctr hc

/-- The fiber whose wait has a registration on the counter is in a round of it. -/
theorem round_of_flag (hf : InTurnInv c s) (hc : c.owner ≠ .body) (hp : s.flags p ≠ none)
    (hcall : s.flagCall p = some (c, x)) :
    (s.fibers (s.flagFiber p)).pc.round = some c ∧
      (s.fibers (s.flagFiber p)).pc.waitFlag = some p := by
  have hflag := hf.lifetime.during p hp
  refine ⟨?_, hflag⟩
  have huse := hf.manager.flag.uses (s.flagFiber p)
  have hparked := hf.parked (s.flagFiber p)
  have hown := hf.rounds.own (s.flagFiber p)
  generalize (s.fibers (s.flagFiber p)).pc = pc at hflag huse hparked hown ⊢
  -- the call with the flag is on the counter of the wait
  have hsame : ∀ {d : CtrId} {y : ℕ}, s.flagCall p = some (d, y) → d = c := by
    intro d y hd
    rw [hcall] at hd
    cases hd
    rfl
  cases pc with
  | «begin» use d =>
    cases use with
    | waitForCounter ctx caller v q =>
      cases hflag
      rw [huse.2.2] at hcall
      cases hcall
    | _ => cases hflag
  | call use d y =>
    cases use with
    | waitForCounter ctx caller v q =>
      cases hflag
      obtain rfl := hsame huse.2.2.1
      exact round_of_owner hc hown.1
    | _ => cases hflag
  | waitForCounter ctx caller d v pc =>
    have hd : d = c := by
      cases pc with
      | getValue | newStored => cases hflag
      | deleteStored | setPrevious | setDestination | setStored | findFree | setCurrent
      | switchTo =>
        cases hflag
        obtain ⟨-, -, y, hy, -⟩ := huse
        exact hsame hy
      | parked =>
        cases hflag
        obtain ⟨y, hy, -⟩ := hparked ctx caller d v p rfl hp rfl
        exact hsame hy
    subst hd
    exact round_of_owner hc hown.1
  | _ => cases hflag

end InTurnInv

/-! ## Every step keeps the invariant -/

namespace RoundEndInv

variable {opts : ManagerOptions} {s s' : ManagerState} {t f : ℕ} {act : Act} {pc' : FiberPc}
  {c : CtrId}

/-- All registrations on the counter are for zero. -/
private theorem target_step (hi : RoundEndInv c s) (hf : InTurnInv c s) (hc : c.owner ≠ .body)
    (hm : CounterMove s s' f (s.fibers f).pc pc') {x : ℕ} {reg : Registration}
    (hreg : ((s'.counters c).calls x).registration = some reg) : reg.targetValue = 0 := by
  have hown := hf.rounds.own f
  generalize (s.fibers f).pc = pc at hm hown
  cases hm with
  | @begins use d y hx hs =>
    obtain ⟨current, hs⟩ := hs
    rw [hs] at hreg
    by_cases hcd : c = d
    · subst hcd
      rw [Function.update_self, CounterState.setCall_calls] at hreg
      by_cases hxy : x = y
      · subst hxy
        rw [Function.update_self] at hreg
        cases use with
        | waitForCounter ctx caller v p =>
          cases hreg
          exact hown.2 (hown.1 ▸ hc)
        | _ => cases hreg
      · rw [Function.update_of_ne hxy] at hreg
        exact hi.target x reg hreg
    · rw [Function.update_of_ne hcd] at hreg
      exact hi.target x reg hreg
  | @continues use d y eff call hn hs =>
    rw [hs] at hreg
    by_cases hcd : c = d
    · subst hcd
      rw [Function.update_self, CounterState.perform_calls] at hreg
      rw [(s.counters c).update_congr CounterCall.registration
        (CounterCall.registration_next hn).1] at hreg
      exact hi.target x reg hreg
    · rw [Function.update_of_ne hcd] at hreg
      exact hi.target x reg hreg
  | other hs =>
    rw [hs] at hreg
    exact hi.target x reg hreg

/-- No other target value comes into a slot. -/
private theorem slots_step (hi : RoundEndInv c s) (hm : CounterMove s s' f (s.fibers f).pc pc')
    (i : ℕ) : ((s'.counters c).ctr.waitingFibers i).targetValue = 0 := by
  generalize (s.fibers f).pc = pc at hm
  cases hm with
  | @begins use d y hx hs =>
    obtain ⟨current, hs⟩ := hs
    rw [hs]
    by_cases hcd : c = d
    · subst hcd
      rw [Function.update_self]
      exact hi.slots i
    · rw [Function.update_of_ne hcd]
      exact hi.slots i
  | @continues use d y eff call hn hs =>
    rw [hs]
    by_cases hcd : c = d
    · subst hcd
      rw [Function.update_self]
      exact CounterCall.slots_next hn hi.slots (hi.target y) i
    · rw [Function.update_of_ne hcd]
      exact hi.slots i
  | other hs =>
    rw [hs]
    exact hi.slots i

/-- The value stays zero while another fiber is in a round of the counter. -/
theorem zero_of_other (hi : RoundEndInv c s) (hf : InTurnInv c s) (hc : c.owner ≠ .body)
    (hm : CounterMove s s' f (s.fibers f).pc pc') {g : ℕ} (hgf : g ≠ f)
    (hg : (s.fibers g).pc.round = some c) (hz : s.value c = 0) : s'.value c = 0 :=
  hi.zero_kept hf.outstanding hf.rounds hc hm
    (fun _ _ _ _ _ _ _ hin _ => hgf (hf.rounds.exclusive g f c hg hin)) hz

/-- What an `AddWaitingFiber` has seen is still so. -/
private theorem loaded_step (hi : RoundEndInv c s) (hf : InTurnInv c s) (hc : c.owner ≠ .body)
    (hm : CounterMove s s' f (s.fibers f).pc pc') (hpc : (s'.fibers f).pc = pc')
    (hother : ∀ g, g ≠ f → s'.fibers g = s.fibers g) {g : ℕ} {use : CounterUse} {x : ℕ}
    (hg : (s'.fibers g).pc = .call use c x) :
    ((s'.counters c).calls x).SawZero (s'.value c) := by
  by_cases hgf : g = f
  · subst hgf
    rw [hpc] at hg
    subst hg
    have hloaded := hi.loaded g use x
    generalize (s.fibers g).pc = pc at hm hloaded
    cases hm with
    | begins hx hs =>
      obtain ⟨current, hs⟩ := hs
      rw [hs, Function.update_self, CounterState.setCall_calls, Function.update_self]
      cases use <;> trivial
    | continues hn hs =>
      have hnext := (hloaded rfl).next hn hi.slots
      simpa [ManagerState.value, hs] using hnext
    | other hs hpc => exact absurd rfl (hpc use c x)
  · rw [hother g hgf] at hg
    rw [hf.outstanding.calls.calls_other hm hgf hg]
    have hmakes := hf.outstanding.calls.makes g use c x hg
    have hloaded := hi.loaded g use x hg
    cases use with
    | waitForCounter ctx caller v p =>
      have hown := hf.rounds.own g
      rw [hg] at hown
      have hin : (s.fibers g).pc.round = some c := by
        rw [hg]
        exact InTurnInv.round_of_owner hc hown.1
      exact hloaded.mono (hi.zero_of_other hf hc hm hgf hin)
    | _ =>
      cases hcall : (s.counters c).calls x with
      | addWaiting => rw [hcall] at hmakes; cases hmakes
      | _ => trivial

/-- The call that a flag has been passed to is old, or begins. -/
theorem flagCall_of_apply {p : FlagPtr} {e : CtrId × ℕ}
    (hcall : (s.apply t f act).flagCall p = some e) :
    s.flagCall p = some e ∨ ∃ d x reg, act = .counter d (.beginAddWaiting x reg) ∧ e = (d, x) := by
  cases act with
  | newStored q =>
    by_cases hpq : p = q
    · simp [ManagerState.apply, hpq] at hcall
    · exact .inl (by simpa [ManagerState.apply, hpq] using hcall)
  | counter d a =>
    cases a with
    | beginAddWaiting x reg =>
      by_cases hpq : p = reg.fiberStored
      · refine .inr ⟨d, x, reg, rfl, ?_⟩
        simpa [ManagerState.apply, ManagerState.flagCallAfter, hpq, eq_comm] using hcall
      · exact .inl (by simpa [ManagerState.apply, ManagerState.flagCallAfter, hpq] using hcall)
    | _ => exact .inl hcall
  | endWait caller | throwThrough caller => cases caller <;> exact .inl hcall
  | _ => exact .inl hcall

/-- A registration that a step claims is claimed at zero. -/
private theorem claims_step (hi : RoundEndInv c s) (hrun : s.running t = some f)
    (hm : CounterMove s s' f (s.fibers f).pc pc') (hlate : ∀ a : ManagerAction, a.thread = t →
      claimsLate c s a = false) {x y : ℕ} (hx : x ∈ (s'.counters c).claims y) :
    x ∈ (s.counters c).claims y ∨ s.value c = 0 ∧ s'.value c = 0 := by
  have hloaded := hi.loaded f
  have hcounterCall : ∀ use, (s.fibers f).pc = .call use c y →
      ((s.counters c).calls y).inProgress = true → s.counterCall t = some (c, y) := by
    intro use hpc hprogress
    simp [ManagerState.counterCall, hrun, hpc, hprogress]
  generalize (s.fibers f).pc = pc at hm hloaded hcounterCall
  cases hm with
  | @begins use d z hz hs =>
    obtain ⟨current, hs⟩ := hs
    rw [hs] at hx
    by_cases hcd : c = d
    · subst hcd
      rw [Function.update_self] at hx
      exact .inl hx
    · rw [Function.update_of_ne hcd] at hx
      exact .inl hx
  | @continues use d z eff call hn hs =>
    rw [hs] at hx
    by_cases hcd : c = d
    · subst hcd
      rw [Function.update_self] at hx
      cases eff with
      | claim i =>
        by_cases hyz : y = z
        · subst hyz
          have hvalue : s'.value c = s.value c := by
            simp [ManagerState.value, hs, BaseCounter.apply, BaseCounter.setSlot]
          suffices hz : s.value c = 0 from .inr ⟨hz, hvalue.trans hz⟩
          obtain ⟨huse, ⟨reg, hcall, -⟩ | ⟨op, prev, value, hcall, -⟩⟩ := CounterCall.next_claim hn
          · have hsaw := hloaded use y rfl
            rw [hcall] at hsaw
            exact hsaw
          -- the scan does not take it late
          · have hctr := hcounterCall use rfl (by rw [hcall]; rfl)
            have hnot := hlate ⟨t, .succeed⟩ rfl
            simp only [claimsLate, hctr, decide_true, Bool.true_and, hcall, huse, Bool.not_false,
              decide_eq_false_iff_not, not_not] at hnot
            rw [← hnot, hi.slots]
        · exact .inl (by simpa [CounterState.perform, CounterState.claimsAfter, hyz] using hx)
      | _ => exact .inl hx
    · rw [Function.update_of_ne hcd] at hx
      exact .inl hx
  | other hs =>
    rw [hs] at hx
    exact .inl hx

/-- A registration that has been claimed stays claimed at zero. -/
private theorem claimed_step (hi : RoundEndInv c s) (hf : InTurnInv c s) (hc : c.owner ≠ .body)
    (hrun : s.running t = some f) (h : FiberStep opts s f t (s.fibers f).pc act pc')
    (hm : CounterMove s ((s.apply t f act).setFiber f ⟨t, pc'⟩) f (s.fibers f).pc pc')
    (hlate : ∀ a : ManagerAction, a.thread = t → claimsLate c s a = false) {p : FlagPtr} {x y : ℕ}
    (hp : (s.apply t f act).flags p ≠ none) (hcall : (s.apply t f act).flagCall p = some (c, x))
    (hx : x ∈ ((s.apply t f act).counters c).claims y) :
    ((s.apply t f act).setFiber f ⟨t, pc'⟩).value c = 0 := by
  rcases hi.claims_step hrun hm hlate hx with hold | ⟨-, hz⟩
  · rcases flagCall_of_apply hcall with hcall₀ | ⟨d, z, reg, rfl, heq⟩
    · rcases ManagerState.flags_of_apply hp with ⟨rfl, -⟩ | ⟨hp₀, -⟩
      · simp [ManagerState.apply] at hcall
      refine hi.zero_kept hf.outstanding hf.rounds hc hm ?_ (hi.claimed p x y hp₀ hcall₀ hold)
      -- the fiber of the flag waits, and does not count a job
      intro ctx caller prio job z hpc _ hin _
      obtain ⟨hin', hflag⟩ := hf.round_of_flag hc hp₀ hcall₀
      rw [hf.rounds.exclusive _ f c hin' hin, hpc] at hflag
      cases hflag
    · obtain ⟨rfl, rfl⟩ : c = d ∧ x = z := by simpa using heq
      -- a call that begins has registered nothing
      have hnew : (s.counters c).calls x = .notStarted := by
        generalize (s.fibers f).pc = pc at h
        generalize hb : Act.counter c (.beginAddWaiting x reg) = act at h
        cases h with
        | @«begin» use d z hz => cases use <;> cases hb; exact hz
        | _ => cases hb
      have hreg := (hf.manager.flag.entries.counters c).claims.registered x y hold
      rw [hnew] at hreg
      cases hreg
  · exact hz

/-- The flag of another fiber's wait is deleted only when `GetNextJob` takes the fiber from a ready
list. -/
theorem erased_of_deleted (hf : InTurnInv c s) (hrun : s.running t = some f)
    (h : FiberStep opts s f t (s.fibers f).pc act pc') {p : FlagPtr} (hp : s.flags p ≠ none)
    (hpf : s.flagFiber p ≠ f) (hgone : ¬ ((s.apply t f act).flags p ≠ none ∧
      (s.apply t f act).flagFiber p = s.flagFiber p)) :
    (s.flagFiber p, p) ∈ s.ready t ∧ ∃ k, act = .erase t k := by
  have huse := hf.manager.flag.uses f
  have herased := fun k => hf.manager.flag.erased hrun h (k := k)
  have hflag := h.flagStep
  generalize (s.fibers f).pc.flagUse = u at huse hflag
  generalize pc'.flagUse = u' at hflag
  cases hflag with
  | quiet hact =>
    obtain ⟨hflags, hff, -⟩ := EntryInv.apply_keepsFlags hact s t f
    rw [hflags, hff] at hgone
    exact absurd ⟨hp, rfl⟩ hgone
  | @erase k =>
    obtain ⟨g, q, hk, -, -, hqg⟩ := herased k rfl
    have hpq : p = q := by
      by_contra hpq
      apply hgone
      have hk' : (s.tls t).readyFibers[k]? = some (g, q) := hk
      exact ⟨by simpa [ManagerState.apply, ManagerState.flagsAfterErase, hk', hpq] using hp, rfl⟩
    subst hpq
    rw [hqg]
    exact ⟨List.mem_of_getElem? hk, k, rfl⟩
  | storeStored =>
    refine absurd ⟨?_, rfl⟩ hgone
    by_cases hps : p = (s.tls t).previousFiberStored
    · subst hps
      simpa [ManagerState.apply] using hp
    · simpa [ManagerState.apply, hps] using hp
  | @newStored q _ _ hq =>
    have hpq : p ≠ q := by
      rintro rfl
      exact hp hq
    exact absurd (by simpa [ManagerState.apply, hpq] using hp) hgone
  | @deleteStored q =>
    have hpq : p ≠ q := by
      rintro rfl
      exact hpf huse.2.1
    exact absurd (by simpa [ManagerState.apply, hpq] using hp) hgone
  | _ => exact absurd ⟨hp, rfl⟩ hgone

/-- The flag of another fiber that waits is gone after a step: it was gone before, or the step takes
the fiber from the ready list of its thread. In both cases the value is zero. -/
theorem gone_cases (hi : RoundEndInv c s) (hf : InTurnInv c s) (hrun : s.running t = some f)
    (h : FiberStep opts s f t (s.fibers f).pc act pc') {g : ℕ} (hgf : g ≠ f) {ctx : Ctx}
    {caller : Caller} {v : CounterUnit} {p : FlagPtr}
    (hg : (s.fibers g).pc = .waitForCounter ctx caller c v (.parked p))
    (hgone : ¬ ((s.apply t f act).flags p ≠ none ∧ (s.apply t f act).flagFiber p = g)) :
    s.value c = 0 ∧ (¬ (s.flags p ≠ none ∧ s.flagFiber p = g) ∨
      (g, p) ∈ s.ready t ∧ (∃ x, s.flagCall p = some (c, x)) ∧ ∃ k, act = .erase t k) := by
  by_cases hold : s.flags p ≠ none ∧ s.flagFiber p = g
  · obtain ⟨hp, rfl⟩ := hold
    obtain ⟨hmem, herase⟩ := erased_of_deleted hf hrun h hp hgf hgone
    obtain ⟨-, -, d, a, hcall, hdel⟩ := hf.manager.flag.entries.entry t _ p hmem
    obtain ⟨x, hcall', -⟩ := hf.parked _ ctx caller c v p hg hp rfl
    obtain ⟨rfl, rfl⟩ : c = d ∧ x = a := by simpa using hcall'.symm.trans hcall
    obtain ⟨y, -, hy⟩ := (hf.manager.flag.entries.counters c).claimed_of_delivered hdel
    exact ⟨hi.claimed p x y hp hcall hy, .inr ⟨hmem, ⟨x, hcall⟩, herase⟩⟩
  · exact ⟨hi.resumed g ctx caller v p hg hold, .inl hold⟩

/-- The flag of a fiber that has just been parked is there. -/
theorem flag_of_parked (hf : InTurnInv c s) (h : FiberStep opts s f t (s.fibers f).pc act pc')
    {ctx : Ctx} {caller : Caller} {d : CtrId} {v : CounterUnit} {p : FlagPtr}
    (hpc : pc' = .waitForCounter ctx caller d v (.parked p)) :
    (s.apply t f act).flags p ≠ none ∧ (s.apply t f act).flagFiber p = f := by
  obtain ⟨⟨k, rfl⟩, huse⟩ := h.parks hpc
  have hheld := hf.manager.flag.uses f
  rw [huse] at hheld
  obtain ⟨hp, hpf, -⟩ := hheld
  exact ⟨by simp [ManagerState.apply, hp], hpf⟩

/-- A fiber that has been taken out of its wait has been claimed at zero. -/
private theorem resumed_step (hi : RoundEndInv c s) (hf : InTurnInv c s) (hc : c.owner ≠ .body)
    (hrun : s.running t = some f) (h : FiberStep opts s f t (s.fibers f).pc act pc')
    (hm : CounterMove s ((s.apply t f act).setFiber f ⟨t, pc'⟩) f (s.fibers f).pc pc')
    {g : ℕ} {ctx : Ctx} {caller : Caller} {v : CounterUnit} {p : FlagPtr}
    (hg : (((s.apply t f act).setFiber f ⟨t, pc'⟩).fibers g).pc =
      .waitForCounter ctx caller c v (.parked p))
    (hgone : ¬ ((s.apply t f act).flags p ≠ none ∧ (s.apply t f act).flagFiber p = g)) :
    ((s.apply t f act).setFiber f ⟨t, pc'⟩).value c = 0 := by
  by_cases hgf : g = f
  · subst hgf
    simp only [ManagerState.setFiber_fibers, Function.update_self] at hg
    exact absurd (flag_of_parked hf h hg) hgone
  · simp only [ManagerState.setFiber_fibers, Function.update_of_ne hgf,
      ManagerState.apply_fibers] at hg
    have hown := hf.rounds.own g
    rw [hg] at hown
    have hin : (s.fibers g).pc.round = some c := by
      rw [hg]
      exact InTurnInv.round_of_owner hc hown.1
    exact hi.zero_of_other hf hc hm hgf hin (hi.gone_cases hf hrun h hgf hg hgone).1

/-- No job is outstanding before the job of a round is counted, and after its wait. -/
private theorem between_step (hi : RoundEndInv c s) (hf : InTurnInv c s) (hc : c.owner ≠ .body)
    (hrun : s.running t = some f) (h : FiberStep opts s f t (s.fibers f).pc act pc')
    (hm : CounterMove s ((s.apply t f act).setFiber f ⟨t, pc'⟩) f (s.fibers f).pc pc')
    {g : ℕ} (hin : (((s.apply t f act).setFiber f ⟨t, pc'⟩).fibers g).pc.round = some c)
    (hbetween : ((s.apply t f act).setFiber f ⟨t, pc'⟩).between
      (((s.apply t f act).setFiber f ⟨t, pc'⟩).fibers g).pc = true) :
    ((s.apply t f act).setFiber f ⟨t, pc'⟩).value c = 0 := by
  by_cases hgf : g = f
  · subst hgf
    simp only [ManagerState.setFiber_fibers, Function.update_self] at hin hbetween
    -- the fiber does not count a job, since it is between two
    refine hi.zero_kept hf.outstanding hf.rounds hc hm ?_ ?_
    · intro ctx caller prio job x _ hpc' _ hmod
      subst hpc'
      rw [ManagerState.between, hmod] at hbetween
      cases hbetween
    have hmodified : ∀ use d x, (s.fibers g).pc = .call use d x →
        ((s.counters d).calls x).modified = true →
        ((((s.apply t g act).setFiber g ⟨t, pc'⟩).counters d).calls x).modified = true := by
      intro use d x hpc hmod
      rw [hpc] at hm
      exact hm.modified_kept hmod
    rcases h.between_cases hmodified hin hbetween with ⟨-, hbusy⟩ | ⟨hround, hcases⟩
    · exact hi.outside fun k => hf.rounds.round_ne hbusy k
    have hown := hf.rounds.own g
    -- the wait is one for zero, of this counter
    have hsame : ∀ {d : CtrId} {caller : Caller}, caller = d.owner → caller.ctr = some c →
        d = c := by
      rintro d caller rfl hd
      exact (CtrId.eq_of_owner_ctr hd).symm
    rcases hcases with hbefore | ⟨ctx, caller, d, v, hpc, hv⟩ |
      ⟨ctx, caller, d, v, p, x, reg, hpc, hret⟩ | ⟨ctx, caller, d, v, p, hpc⟩
    · exact hi.between g hround hbefore
    · rw [hpc] at hown hround
      obtain rfl := hsame hown.1 hround
      rw [hv, hown.2 (hown.1 ▸ hc)]
    · rw [hpc] at hown hround
      obtain rfl := hsame hown.1 hround
      have huse := hf.manager.flag.uses g
      rw [hpc] at huse
      obtain ⟨hp, -, hcall, -⟩ := huse
      have hclaim := ((hf.manager.flag.entries.counters d).claims.own x).mpr (by rw [hret]; rfl)
      exact hi.claimed p x x (by rw [hp]; simp) hcall hclaim
    · rw [hpc] at hown hround
      obtain rfl := hsame hown.1 hround
      refine hi.resumed g ctx caller v p hpc fun hflag => ?_
      -- a fiber that runs is awake
      have hawake := hf.lifetime.fits (.run t) g hrun p hflag.1 hflag.2
      rw [hpc] at hawake
      cases hawake
  · simp only [ManagerState.setFiber_fibers, Function.update_of_ne hgf,
      ManagerState.apply_fibers] at hin hbetween
    refine hi.zero_of_other hf hc hm hgf hin (hi.between g hin ?_)
    rw [← hbetween]
    exact (ManagerState.between_congr fun use d x hpc => by
      rw [hf.outstanding.calls.calls_other hm hgf hpc]).symm

/-- No job is outstanding outside the rounds. -/
private theorem outside_step (hi : RoundEndInv c s) (hf : InTurnInv c s) (hc : c.owner ≠ .body)
    (h : FiberStep opts s f t (s.fibers f).pc act pc')
    (hm : CounterMove s ((s.apply t f act).setFiber f ⟨t, pc'⟩) f (s.fibers f).pc pc')
    (hout : ∀ g, (((s.apply t f act).setFiber f ⟨t, pc'⟩).fibers g).pc.round ≠ some c) :
    ((s.apply t f act).setFiber f ⟨t, pc'⟩).value c = 0 := by
  have hself : pc'.round ≠ some c := by simpa using hout f
  refine hi.zero_kept hf.outstanding hf.rounds hc hm ?_ ?_
  · intro ctx caller prio job x hpc hpc' hin _
    rw [hpc', ← hpc] at hself
    exact hself hin
  · by_cases hin : (s.fibers f).pc.round = some c
    · rcases h.leaves_round hin hself with hbetween | ⟨ctx, caller, hpc, hcaller⟩
      · exact hi.between f hin hbetween
      · exact absurd hcaller (hi.caught f ctx caller hpc)
    · refine hi.outside fun g => ?_
      by_cases hgf : g = f
      · rwa [hgf]
      · simpa [hgf] using hout g

/-- No exception goes through a round. -/
private theorem caught_step (hf : InTurnInv c s)
    (hrun : s.running t = some f) (h : FiberStep opts s f t (s.fibers f).pc act pc')
    (hclean : ∀ ctx caller prio job, (s.fibers f).pc = .enqueue ctx caller prio job →
      pc' = .threw ctx caller → job.counter ≠ some c)
    (hnot : refusesWait s t = false) {ctx : Ctx} {caller : Caller} (hpc : pc' = .threw ctx caller) :
    caller.ctr ≠ some c := by
  have hown := hf.rounds.own f
  have hmakes := hf.outstanding.calls.makes f
  have hrefuses : ∀ ctx caller v p d x reg,
      (s.fibers f).pc = .call (.waitForCounter ctx caller v p) d x →
      (s.counters d).calls x ≠ .addWaiting reg .threw := by
    intro ctx caller v p d x reg hcall hthrew
    simp [refusesWait, hrun, hcall, hthrew] at hnot
  generalize (s.fibers f).pc = pc at h hclean hown hmakes hrefuses
  intro hcaller
  cases h with
  | enqueueFail =>
    cases hpc
    exact hclean _ _ _ _ rfl rfl (hown.2 c hcaller)
  | @addThrew ctx' caller' v p d x hx hr =>
    -- an `AddWaitingFiber` that has not returned has thrown
    have hmade := hmakes _ d x rfl
    cases hcall : (s.counters d).calls x with
    | addWaiting reg pc =>
      cases pc with
      | returned r => exact hr reg r hcall
      | threw => exact hrefuses _ _ _ _ _ _ reg rfl hcall
      | _ =>
        rw [hcall] at hx
        cases hx
    | notStarted =>
      rw [hcall] at hmade
      cases hmade
    | modify =>
      rw [hcall] at hmade
      cases hmade
  | _ => cases hpc

/-- At most one job is outstanding. -/
private theorem one_step (hi : RoundEndInv c s) (hf : InTurnInv c s) (hc : c.owner ≠ .body)
    (h : FiberStep opts s f t (s.fibers f).pc act pc')
    (hm : CounterMove s ((s.apply t f act).setFiber f ⟨t, pc'⟩) f (s.fibers f).pc pc')
    (hout : OutstandingInv c ((s.apply t f act).setFiber f ⟨t, pc'⟩)) {n : ℕ}
    (hn : ((s.apply t f act).setFiber f ⟨t, pc'⟩).StartedBelow n) :
    ((s.apply t f act).setFiber f ⟨t, pc'⟩).outstanding c n ≤ 1 := by
  have hqueued : ((s.apply t f act).setFiber f ⟨t, pc'⟩).queued c ≤ s.queued c + 1 :=
    ManagerState.queued_apply_le s t f act c
  have hself : (((s.apply t f act).setFiber f ⟨t, pc'⟩).fibers f).pc = pc' := by simp
  have hother : ∀ g, g ≠ f → ((s.apply t f act).setFiber f ⟨t, pc'⟩).fibers g = s.fibers g :=
    fun g hg => by simp [hg]
  have hvalue : (((s.apply t f act).setFiber f ⟨t, pc'⟩).value c).toNat ≤ 1 := by
    obtain ⟨m, hm'⟩ := hf.outstanding.started
    have hone := hi.one m hm'
    rw [← hi.toNat_value hf.outstanding hm'] at hone
    rcases hi.value_cases hf.outstanding hf.rounds hc hm with
      ⟨-, -, -, -, -, -, -, -, -, -, -, hv⟩ | ⟨-, -, -, -, hv⟩ | ⟨hv, -⟩
    · rw [hv]
      decide
    · rw [hv]
      decide
    · rwa [hv]
  generalize (s.apply t f act).setFiber f ⟨t, pc'⟩ = s' at *
  have hstarted : s.StartedBelow n := by
    intro g hg
    by_cases hgf : g = f
    · subst hgf
      exact absurd (hself.symm.trans (hn g hg)) h.switch_cases.1
    · rw [← hother g hgf]
      exact hn g hg
  have hlt : f < n := by
    by_contra hge
    exact h.switch_cases.1 (hself.symm.trans (hn f (by omega)))
  have htally : tally n (s'.owed c) + s.owed c f = tally n (s.owed c) + s'.owed c f :=
    tally_change hlt fun g hg => by
      rw [ManagerState.owed, hother g hg]
      exact ManagerState.owes_congr fun use x hpc => by
        rw [hf.outstanding.calls.calls_other hm hg hpc]
  -- a step adds a few jobs at most, so that the value tells how many there are
  have hone := hi.one n hstarted
  have hle := s'.owes_le c (s'.fibers f).pc
  rw [hout.counts n hn, BitVec.toNat_ofNat] at hvalue
  simp only [ManagerState.outstanding, ManagerState.owed] at *
  omega

/-- Every step of a fiber keeps the invariant. -/
private theorem fiber_step (hi : RoundEndInv c s) (hf : InTurnInv c s) (hc : c.owner ≠ .body)
    (hrun : s.running t = some f) (h : FiberStep opts s f t (s.fibers f).pc act pc')
    (hlate : ∀ a : ManagerAction, a.thread = t → claimsLate c s a = false)
    (hclean : ∀ ctx caller prio job, (s.fibers f).pc = .enqueue ctx caller prio job →
      pc' = .threw ctx caller → job.counter ≠ some c)
    (hnot : refusesWait s t = false)
    (hout : OutstandingInv c ((s.apply t f act).setFiber f ⟨t, pc'⟩)) :
    RoundEndInv c ((s.apply t f act).setFiber f ⟨t, pc'⟩) := by
  have hm := h.counterMove (t := t) ⟨t, pc'⟩
  have hself : (((s.apply t f act).setFiber f ⟨t, pc'⟩).fibers f).pc = pc' := by simp
  have hother : ∀ g, g ≠ f → ((s.apply t f act).setFiber f ⟨t, pc'⟩).fibers g = s.fibers g :=
    fun g hg => by simp [hg]
  exact
    { target := fun x reg hreg => hi.target_step hf hc hm hreg
      slots := hi.slots_step hm
      loaded := fun g use x hg => hi.loaded_step hf hc hm hself hother hg
      claimed := fun p x y hp hcall hx => hi.claimed_step hf hc hrun h hm hlate hp hcall hx
      resumed := fun g ctx caller v p hg hgone => hi.resumed_step hf hc hrun h hm hg hgone
      between := fun g hin hbetween => hi.between_step hf hc hrun h hm hin hbetween
      outside := hi.outside_step hf hc h hm
      caught := fun g ctx caller hg => by
        by_cases hgf : g = f
        · subst hgf
          exact caught_step hf hrun h hclean hnot (hself.symm.trans hg)
        · rw [hother g hgf] at hg
          exact hi.caught g ctx caller hg
      one := fun n hn => hi.one_step hf hc h hm hout hn }

/-- The invariant depends on counters, flags, fibers and queued jobs. -/
private theorem congr (hi : RoundEndInv c s) (hctr : s'.counters = s.counters)
    (hflags : s'.flags = s.flags) (hff : s'.flagFiber = s.flagFiber)
    (hfc : s'.flagCall = s.flagCall) (hfibers : s'.fibers = s.fibers)
    (hqueued : s'.queued c = s.queued c) : RoundEndInv c s' := by
  have hvalue : s'.value c = s.value c := by rw [ManagerState.value, hctr]; rfl
  have hbetween : ∀ pc, s'.between pc = s.between pc := fun pc =>
    ManagerState.between_congr fun _ _ _ _ => by rw [hctr]
  have howed : s'.owed c = s.owed c := by
    funext g
    rw [ManagerState.owed, hfibers]
    exact ManagerState.owes_congr fun _ _ _ => by rw [hctr]
  constructor
  · rw [hctr]
    exact hi.target
  · rw [hctr]
    exact hi.slots
  · rw [hctr, hvalue, hfibers]
    exact hi.loaded
  · rw [hctr, hflags, hfc, hvalue]
    exact hi.claimed
  · rw [hflags, hff, hvalue, hfibers]
    exact hi.resumed
  · rw [hvalue, hfibers]
    exact fun g hin hpc => hi.between g hin ((hbetween _).symm.trans hpc)
  · rw [hvalue, hfibers]
    exact hi.outside
  · rw [hfibers]
    exact hi.caught
  · intro n hn
    rw [ManagerState.outstanding, hqueued, howed]
    exact hi.one n fun g hg => by rw [← hfibers]; exact hn g hg

/-- Every step that meets the condition keeps the invariant. -/
theorem step {a : ManagerAction} {h : History ManagerState ManagerAction} (hi : RoundEndInv c s)
    (hf : InTurnInv c s) (hc : c.owner ≠ .body) (hok : InTurn c h s a)
    (hs : managerStep opts s a = some s') : RoundEndInv c s' := by
  have hout := hf.outstanding.step hok.2.1 hs
  rcases managerStep_cases hs with ⟨f, act, pc', hrun, hn, rfl⟩ | ⟨act, pc', hrun, hn, rfl⟩
  · have hstep := fiberStep_of_next hn
    rw [hf.manager.own.onThread a.thread f hrun] at hstep hout ⊢
    refine hi.fiber_step hf hc hrun hstep (fun b hb => ?_) ?_ hok.1.2 hout
    · have hlate := hok.2.2
      simpa only [claimsLate, hb] using hlate
    · intro ctx caller prio job hpc hthrew
      have hthrough := hok.2.1 f hrun
      rw [hpc] at hthrough hn
      rw [hthrew] at hn
      exact Choice.throughJobs_threw hthrough hn
  · have hstep := threadStep_of_next hn
    have hkeeps : act.keepsFlags = true := by
      generalize s.threads a.thread = pc₀ at hstep
      cases hstep <;> rfl
    obtain ⟨hflags, hff, hfc, hctr, -⟩ := EntryInv.apply_keepsFlags hkeeps s a.thread noFiber
    exact hi.congr hctr hflags hff hfc (ManagerState.apply_fibers ..)
      (ManagerState.queued_other hstep.keepsJobs.1 hstep.keepsJobs.2)

theorem start (opts : ManagerOptions) (c : CtrId) : RoundEndInv c (.start opts) where
  target _ _ h := by cases h
  slots _ := rfl
  loaded _ _ _ h := by cases h
  claimed _ _ _ h := absurd rfl h
  resumed _ _ _ _ _ h := by cases h
  between _ h := by cases h
  outside _ := rfl
  caught _ _ _ h := by cases h
  one n _ := by
    have hnone : tally n ((ManagerState.start opts).owed c) = 0 := tally_eq_zero.mpr fun _ _ => rfl
    rw [ManagerState.outstanding, hnone]
    exact Nat.zero_le 1

end RoundEndInv

section Run

variable {opts : ManagerOptions} {h : History ManagerState ManagerAction} {s : ManagerState}
  {c : CtrId}

theorem inTurnInv_of_run (hr : (managerSystem opts).Run (InTurn c) h s) : InTurnInv c s := by
  have hunrefused : (managerSystem opts).Run OrderlyUnrefused h s := hr.mono fun _ _ _ hok => hok.1
  obtain ⟨hm, hv⟩ := lifetimeInv_of_run hunrefused
  exact
    { manager := hm
      lifetime := hv
      parked := parkedInv_of_run (hunrefused.mono fun _ _ _ hok => hok.1)
      rounds := roundInv_of_run hr
      outstanding := outstandingInv_of_run (hr.mono fun _ _ _ hok => hok.2.1) }

/-- In every such run, the wait of a round does not end before its job is done. -/
theorem roundEndInv_of_run (hc : c.owner ≠ .body) (hr : (managerSystem opts).Run (InTurn c) h s) :
    RoundEndInv c s := by
  induction hr with
  | init hs =>
    obtain rfl := hs
    exact .start opts c
  | step hr hok hs ih => exact ih.step (inTurnInv_of_run hr) hc hok hs

end Run

end NomadTasks
