import NomadTasks.MpmcQueue.Alone
import NomadTasks.MpmcQueue.Linearizable
import NomadTasks.Ticket.RetryLoop

/-!
# `mpmc_queue`: what the retries of a call cost

The loops of `enqueue` and `dequeue` have no bound of their own, but a call that goes round again
does so because another call of its kind has succeeded in the meantime, or because its exchange has
failed spuriously: the queue is lock-free. `call_retries` counts it: every round is paid for by a
spurious failure, or by one other call that has drawn its ticket since the call began.
-/

namespace NomadTasks

open Transition Ticket

variable {w k : ℕ} {T ι : Type}

/-- The two operations of the queue. -/
inductive QueueKind
  | enqueue
  | dequeue
  deriving DecidableEq

/-- The position that the calls of one kind advance. -/
def MpmcQueue.position (q : MpmcQueue w k T) : QueueKind → ℕ
  | .enqueue => q.enqueuePos.toNat
  | .dequeue => q.dequeuePos.toNat

/-- Where an `enqueue` call is in its loop. -/
def EnqPc.loop : EnqPc w → RetryLoop
  | .loadPos => .load
  | .loadSeq pos => .check pos.toNat
  | .cas pos => .exchange pos.toNat
  | .copy pos => .drawn pos.toNat 0
  | .store pos => .drawn pos.toNat 1
  | .returned pos true => .drawn pos.toNat 2
  | .returned pos false => .givenUp pos.toNat

/-- Where a `dequeue` call is in its loop. -/
def DeqPc.loop : DeqPc w T → RetryLoop
  | .loadPos => .load
  | .loadSeq pos => .check pos.toNat
  | .cas pos => .exchange pos.toNat
  | .copy pos => .drawn pos.toNat 0
  | .store pos _ => .drawn pos.toNat 1
  | .returned pos (some _) => .drawn pos.toNat 2
  | .returned pos none => .givenUp pos.toNat

namespace QueueCall

/-- Where a call of that kind is in its loop. -/
def loop : QueueKind → QueueCall w T → Option RetryLoop
  | .enqueue, .enqueue _ pc => some pc.loop
  | .dequeue, .dequeue pc => some pc.loop
  | _, _ => none

/-- The ticket of a call of that kind that has won one. -/
def ticket : QueueKind → QueueCall w T → Option ℕ
  | .enqueue, c => c.enqTicket
  | .dequeue, c => c.deqTicket

/-- The exchange of the call would succeed, but for a spurious failure. -/
def exchanges (q : MpmcQueue w k T) : QueueCall w T → Bool
  | .enqueue _ (.cas pos) => decide (q.enqueuePos = pos)
  | .dequeue (.cas pos) => decide (q.dequeuePos = pos)
  | _ => false

end QueueCall

section Counts

variable [DecidableEq ι]

/-- Call `i` begins, as a call of that kind. -/
def QueueAction.begins (i : ι) : QueueKind → QueueAction T ι → Bool
  | .enqueue, .beginEnqueue j _ => decide (j = i)
  | .dequeue, .beginDequeue j => decide (j = i)
  | _, _ => false

theorem QueueAction.begins_unique {a : QueueAction T ι} {i : ι} {kind kind' : QueueKind}
    (h : a.begins i kind = true) (h' : a.begins i kind' = true) : kind = kind' := by
  cases a <;> cases kind <;> cases kind' <;> first | rfl | cases h | cases h'

/-- The action is a step of call `i`. -/
def QueueAction.isStepOf (i : ι) : QueueAction T ι → Bool
  | .step j _ => decide (j = i)
  | _ => false

/-- The action is a step of call `i` that fails an exchange spuriously. -/
def QueueAction.failsIdly (s : QueueState w k T ι) (i : ι) : QueueAction T ι → Bool
  | .step j true => decide (j = i) && (s.calls j).exchanges s.queue
  | _ => false

/-- The steps of call `i` in a run. -/
def stepsOf (i : ι) (h : History (QueueState w k T ι) (QueueAction T ι)) : ℕ :=
  h.countP fun e => e.2.isStepOf i

/-- The spurious failures of call `i` in a run. -/
def idleFailures (i : ι) (h : History (QueueState w k T ι) (QueueAction T ι)) : ℕ :=
  h.countP fun e => e.2.failsIdly e.1 i

end Counts

/-! ## A step of a call is a step of its loop -/

section RingInv

variable {s : QueueState w k T ι} {r : Ring k} {i : ι}

theorem eq_or_toNat_lt {pos c : BitVec w} (h : pos.toNat ≤ c.toNat) :
    pos = c ∨ pos.toNat < c.toNat := by
  rcases Nat.eq_or_lt_of_le h with heq | hlt
  · exact .inl (BitVec.eq_of_toNat_eq heq)
  · exact .inr hlt

/-- `enqueue` takes the last branch of its loop with a stale position only. -/
theorem RingInv.enq_loop (h : RingInv s r) (hkw : k < w) (hpos : PositionsBelow s) {data : T}
    {pc : EnqPc w} (spurious : Bool) (hcall : s.calls i = .enqueue data pc)
    (hrun : ∀ p b, pc ≠ .returned p b) :
    RetryLoop.Step s.queue.enqueuePos.toNat
      (NomadTasks.enqStep s.queue data spurious pc).1.enqueuePos.toNat
      (spurious && (QueueCall.enqueue data pc).exchanges s.queue)
      pc.loop (NomadTasks.enqStep s.queue data spurious pc).2.loop := by
  have hw : 2 ^ (w - 1) < 2 ^ w := Nat.pow_lt_pow_right (by omega) (by omega)
  have hok := h.calls i
  rw [hcall] at hok
  cases pc with
  | loadPos =>
    simp only [QueueCall.exchanges, Bool.and_false]
    exact .load
  | loadSeq pos =>
    simp only [NomadTasks.enqStep, QueueCall.exchanges, Bool.and_false]
    split
    · exact .ready
    · split
      · exact .giveUp
      · next hne hslt =>
        rcases eq_or_toNat_lt hok with rfl | hlt
        · rcases h.dif_enq hkw with hready | ⟨-, hbehind⟩
          · exact absurd hready hne
          · exact absurd hbehind hslt
        · exact .stale hlt
  | cas pos =>
    rcases eq_or_toNat_lt hok.1 with rfl | hlt
    · have hsucc := @toNat_succ w s.queue.enqueuePos (by have := hpos.1; omega)
      cases spurious with
      | false =>
        simpa [NomadTasks.enqStep, QueueCall.exchanges, EnqPc.loop, hsucc] using RetryLoop.Step.draw
      | true =>
        simpa [NomadTasks.enqStep, QueueCall.exchanges, EnqPc.loop] using RetryLoop.Step.idle
    · have hne : s.queue.enqueuePos ≠ pos := by rintro rfl; exact absurd hlt (lt_irrefl _)
      simpa [NomadTasks.enqStep, QueueCall.exchanges, EnqPc.loop, hne] using
        RetryLoop.Step.overtaken hlt
  | copy pos =>
    simp only [QueueCall.exchanges, Bool.and_false]
    exact .finish
  | store pos =>
    simp only [QueueCall.exchanges, Bool.and_false]
    exact .finish
  | returned pos result => exact absurd rfl (hrun pos result)

/-- `dequeue` takes the last branch of its loop with a stale position only. -/
theorem RingInv.deq_loop (h : RingInv s r) (hkw : k < w) (hpos : PositionsBelow s)
    {pc : DeqPc w T} (spurious : Bool) (hcall : s.calls i = .dequeue pc)
    (hrun : ∀ p b, pc ≠ .returned p b) :
    RetryLoop.Step s.queue.dequeuePos.toNat
      (NomadTasks.deqStep s.queue spurious pc).1.dequeuePos.toNat
      (spurious && (QueueCall.dequeue pc).exchanges s.queue)
      pc.loop (NomadTasks.deqStep s.queue spurious pc).2.loop := by
  have hw : 2 ^ (w - 1) < 2 ^ w := Nat.pow_lt_pow_right (by omega) (by omega)
  have hok := h.calls i
  rw [hcall] at hok
  cases pc with
  | loadPos =>
    simp only [QueueCall.exchanges, Bool.and_false]
    exact .load
  | loadSeq pos =>
    simp only [NomadTasks.deqStep, QueueCall.exchanges, Bool.and_false]
    split
    · exact .ready
    · split
      · exact .giveUp
      · next hne hslt =>
        rcases eq_or_toNat_lt hok with rfl | hlt
        · rcases h.dif_deq hkw with hready | ⟨-, hbehind⟩
          · exact absurd hready hne
          · exact absurd hbehind hslt
        · exact .stale hlt
  | cas pos =>
    rcases eq_or_toNat_lt hok.1 with rfl | hlt
    · have hsucc := @toNat_succ w s.queue.dequeuePos (by have := hpos.2; omega)
      cases spurious with
      | false =>
        simpa [NomadTasks.deqStep, QueueCall.exchanges, DeqPc.loop, hsucc] using RetryLoop.Step.draw
      | true =>
        simpa [NomadTasks.deqStep, QueueCall.exchanges, DeqPc.loop] using RetryLoop.Step.idle
    · have hne : s.queue.dequeuePos ≠ pos := by rintro rfl; exact absurd hlt (lt_irrefl _)
      simpa [NomadTasks.deqStep, QueueCall.exchanges, DeqPc.loop, hne] using
        RetryLoop.Step.overtaken hlt
  | copy pos =>
    simp only [QueueCall.exchanges, Bool.and_false]
    exact .finish
  | store pos data =>
    simp only [QueueCall.exchanges, Bool.and_false]
    exact .finish
  | returned pos result => exact absurd rfl (hrun pos result)

end RingInv

section Run

variable [DecidableEq ι] {s s' : QueueState w k T ι} {a : QueueAction T ι}

/-- What a step does to the loop of a call: it is a step of that loop, with the position of its
kind, or it leaves the loop where it is, and the position advances without it or stays. -/
theorem queueStep_loop {r : Ring k} (h : RingInv s r) (hkw : k < w) (hpos : PositionsBelow s)
    (hs : queueStep s a = some s') {i : ι} {kind : QueueKind} {l : RetryLoop}
    (hl : (s.calls i).loop kind = some l) :
    ∃ l', (s'.calls i).loop kind = some l' ∧
      (a.isStepOf i = true ∧ RetryLoop.Step (s.queue.position kind) (s'.queue.position kind)
          (a.failsIdly s i) l l' ∨
        a.isStepOf i = false ∧ a.failsIdly s i = false ∧ l' = l) := by
  rcases queueStep_cases hs with ⟨j, data, rfl, hcall, rfl⟩ | ⟨j, rfl, hcall, rfl⟩ |
    ⟨j, spurious, data, pc, rfl, hcall, hrun, rfl⟩ | ⟨j, spurious, pc, rfl, hcall, hrun, rfl⟩
  · have hne : i ≠ j := by rintro rfl; cases kind <;> simp [hcall, QueueCall.loop] at hl
    exact ⟨l, by simpa [QueueState.setCall, hne] using hl, .inr ⟨rfl, rfl, rfl⟩⟩
  · have hne : i ≠ j := by rintro rfl; cases kind <;> simp [hcall, QueueCall.loop] at hl
    exact ⟨l, by simpa [QueueState.setCall, hne] using hl, .inr ⟨rfl, rfl, rfl⟩⟩
  · by_cases hij : j = i
    · subst hij
      rw [hcall] at hl
      cases kind with
      | dequeue => cases hl
      | enqueue =>
        obtain rfl : pc.loop = l := Option.some.inj hl
        refine ⟨_, by rw [QueueState.setCall_calls_self]; rfl,
          .inl ⟨by simp [QueueAction.isStepOf], ?_⟩⟩
        have hstep := h.enq_loop hkw hpos spurious hcall hrun
        cases spurious <;>
          simpa [QueueAction.failsIdly, hcall, MpmcQueue.position] using hstep
    · have hne : i ≠ j := fun h => hij h.symm
      refine ⟨l, by simpa [QueueState.setCall, hne] using hl, .inr ?_⟩
      cases spurious <;> simp [QueueAction.isStepOf, QueueAction.failsIdly, hij]
  · by_cases hij : j = i
    · subst hij
      rw [hcall] at hl
      cases kind with
      | enqueue => cases hl
      | dequeue =>
        obtain rfl : pc.loop = l := Option.some.inj hl
        refine ⟨_, by rw [QueueState.setCall_calls_self]; rfl,
          .inl ⟨by simp [QueueAction.isStepOf], ?_⟩⟩
        have hstep := h.deq_loop hkw hpos spurious hcall hrun
        cases spurious <;>
          simpa [QueueAction.failsIdly, hcall, MpmcQueue.position] using hstep
    · have hne : i ≠ j := fun h => hij h.symm
      refine ⟨l, by simpa [QueueState.setCall, hne] using hl, .inr ?_⟩
      cases spurious <;> simp [QueueAction.isStepOf, QueueAction.failsIdly, hij]

/-- The positions do not go back. -/
theorem position_le_of_step (hk : k < w) (hpos : PositionsBelow s) (hs : queueStep s a = some s')
    (kind : QueueKind) : s.queue.position kind ≤ s'.queue.position kind := by
  have hw : 2 ^ (w - 1) < 2 ^ w := Nat.pow_lt_pow_right (by omega) (by omega)
  obtain ⟨henq, hdeq⟩ := hpos
  cases hlin : linearizes s a with
  | none =>
    obtain ⟨he, hd, -⟩ := queueStep_silent hs hlin
    cases kind <;> simp [MpmcQueue.position, he, hd]
  | some p =>
    have hesucc := @toNat_succ w s.queue.enqueuePos (by omega)
    have hdsucc := @toNat_succ w s.queue.dequeuePos (by omega)
    rcases queueStep_effective hs hlin with ⟨data, -, -, rfl⟩ | ⟨-, -, rfl⟩ <;> cases kind <;>
      simp [MpmcQueue.position, hesucc, hdsucc]

/-- A ticket is kept. -/
theorem ticket_of_step (hs : queueStep s a = some s') {kind : QueueKind} {j : ι} {p : ℕ}
    (hp : (s.calls j).ticket kind = some p) : (s'.calls j).ticket kind = some p := by
  have hkeep : ∀ {q : MpmcQueue w k T} {i c}, s' = QueueState.setCall { s with queue := q } i c →
      ((s.calls i).ticket kind = some p → c.ticket kind = some p) →
      (s'.calls j).ticket kind = some p := by
    rintro q i c rfl hc
    by_cases hj : j = i
    · subst hj
      simpa [QueueState.setCall] using hc hp
    · simpa [QueueState.setCall, hj] using hp
  rcases queueStep_cases hs with ⟨i, data, rfl, hcall, hs'⟩ | ⟨i, rfl, hcall, hs'⟩ |
    ⟨i, spurious, data, pc, rfl, hcall, hrun, hs'⟩ | ⟨i, spurious, pc, rfl, hcall, hrun, hs'⟩ <;>
    refine hkeep hs' ?_ <;> rw [hcall]
  · cases kind <;> intro h <;> cases h
  · cases kind <;> intro h <;> cases h
  · cases kind with
    | dequeue => intro h; cases h
    | enqueue =>
      cases pc with
      | copy pos | store pos => exact id
      | returned pos result => exact absurd rfl (hrun pos result)
      | _ => intro h; cases h
  · cases kind with
    | enqueue => intro h; cases h
    | dequeue =>
      cases pc with
      | copy pos | store pos data => exact id
      | returned pos result => exact absurd rfl (hrun pos result)
      | _ => intro h; cases h

/-- A step is one of call `i`, or begins it, or does not concern it. -/
theorem queueStep_concerns (hs : queueStep s a = some s') (i : ι) :
    (a.isStepOf i = true ∧ s'.calls i ≠ .notStarted ∧ ∀ kind, a.begins i kind = false) ∨
    (a.isStepOf i = false ∧ a.failsIdly s i = false ∧
      ((∃ kind, a.begins i kind = true ∧ (s'.calls i).loop kind = some .load ∧
          s.calls i = .notStarted ∧ s'.queue = s.queue) ∨
        (s'.calls i = s.calls i ∧ ∀ kind, a.begins i kind = false))) := by
  rcases queueStep_cases hs with ⟨j, data, rfl, hcall, rfl⟩ | ⟨j, rfl, hcall, rfl⟩ |
    ⟨j, spurious, data, pc, rfl, hcall, hrun, rfl⟩ | ⟨j, spurious, pc, rfl, hcall, hrun, rfl⟩
  · refine .inr ⟨rfl, rfl, ?_⟩
    by_cases hij : j = i
    · subst hij
      exact .inl ⟨.enqueue, by simp [QueueAction.begins],
        by rw [QueueState.setCall_calls_self]; rfl, hcall, rfl⟩
    · refine .inr ⟨Function.update_of_ne (Ne.symm hij) .., fun kind => ?_⟩
      cases kind <;> simp [QueueAction.begins, hij]
  · refine .inr ⟨rfl, rfl, ?_⟩
    by_cases hij : j = i
    · subst hij
      exact .inl ⟨.dequeue, by simp [QueueAction.begins],
        by rw [QueueState.setCall_calls_self]; rfl, hcall, rfl⟩
    · refine .inr ⟨Function.update_of_ne (Ne.symm hij) .., fun kind => ?_⟩
      cases kind <;> simp [QueueAction.begins, hij]
  all_goals
    have hbegins : ∀ kind,
        (QueueAction.step j spurious : QueueAction T ι).begins i kind = false := by
      intro kind
      cases kind <;> rfl
    by_cases hij : j = i
    · subst hij
      exact .inl ⟨by simp [QueueAction.isStepOf], by simp [QueueState.setCall], hbegins⟩
    · refine .inr ⟨by simp [QueueAction.isStepOf, hij],
        by cases spurious <;> simp [QueueAction.failsIdly, hij],
        .inr ⟨Function.update_of_ne (Ne.symm hij) .., hbegins⟩⟩

/-- A call that has not begun has taken no step. -/
theorem counts_of_notStarted [Inhabited T]
    {h : History (QueueState w k T ι) (QueueAction T ι)}
    (hr : (queueSystem w k T ι).Run (fun _ s _ => PositionsBelow s) h s) {i : ι}
    (hi : s.calls i = .notStarted) : stepsOf i h = 0 ∧ idleFailures i h = 0 := by
  revert hi
  refine hr.invariant (P := fun h s => s.calls i = .notStarted →
    stepsOf i h = 0 ∧ idleFailures i h = 0) (fun _ _ _ => ⟨rfl, rfl⟩) ?_
  intro h s a s' _ ih _ hs hi
  rcases queueStep_concerns hs i with ⟨-, hne, -⟩ | ⟨hstep, hidle, ⟨kind, -, hl, -⟩ | ⟨heq, -⟩⟩
  · exact absurd hi hne
  · rw [hi] at hl
    cases kind <;> cases hl
  · obtain ⟨hsteps, hidles⟩ := ih (heq ▸ hi)
    exact ⟨by simpa [stepsOf, hstep] using hsteps, by simpa [idleFailures, hidle] using hidles⟩

/-- A call that has begun is in its loop or beyond, and has taken no more steps than that accounts
for. -/
theorem steps_le_bound [Inhabited T] (hk : 1 ≤ k) (hkw : k < w)
    {h : History (QueueState w k T ι) (QueueAction T ι)}
    (hr : (queueSystem w k T ι).Run (fun _ s _ => PositionsBelow s) h s) :
    ∀ e ∈ h, ∀ i kind, e.2.begins i kind = true → ∃ l, (s.calls i).loop kind = some l ∧
      l.Within (e.1.queue.position kind) (s.queue.position kind) ∧
      stepsOf i h ≤ l.bound (e.1.queue.position kind) (s.queue.position kind)
        (idleFailures i h) := by
  refine hr.invariant (P := fun h s => ∀ e ∈ h, ∀ i kind, e.2.begins i kind = true →
    ∃ l, (s.calls i).loop kind = some l ∧
      l.Within (e.1.queue.position kind) (s.queue.position kind) ∧
      stepsOf i h ≤ l.bound (e.1.queue.position kind) (s.queue.position kind)
        (idleFailures i h)) (by simp) ?_
  intro h s a s' hr ih hpos hs e he i kind hbegins
  rcases List.mem_cons.mp he with rfl | hold
  · -- the call begins with this step
    rcases queueStep_concerns hs i with ⟨-, -, hno⟩ | ⟨hstep, hidle, hcase⟩
    · rw [hno kind] at hbegins; cases hbegins
    · rcases hcase with ⟨kind', hbegins', hl, hi, hq⟩ | ⟨-, hno⟩
      · obtain rfl := QueueAction.begins_unique hbegins hbegins'
        obtain ⟨hsteps, -⟩ := counts_of_notStarted hr hi
        refine ⟨.load, hl, by rw [hq]; exact le_rfl, ?_⟩
        have hzero : stepsOf i ((s, a) :: h) = 0 := by simpa [stepsOf, hstep] using hsteps
        rw [hzero]
        exact Nat.zero_le _
      · rw [hno kind] at hbegins; cases hbegins
  · obtain ⟨l, hl, hwithin, hbound⟩ := ih e hold i kind hbegins
    obtain ⟨r, hinv⟩ := ringInv_of_run hk hkw hr
    have hle := position_le_of_step hkw hpos hs kind
    obtain ⟨l', hl', ⟨hown, hloop⟩ | ⟨hother, hidle, rfl⟩⟩ := queueStep_loop hinv hkw hpos hs hl
    · refine ⟨l', hl', hloop.within hwithin, ?_⟩
      have hsucc := hloop.bound_succ hwithin (m := idleFailures i h)
      have hidles : idleFailures i ((s, a) :: h) =
          idleFailures i h + (a.failsIdly s i).toNat := by
        cases hf : a.failsIdly s i <;> simp [idleFailures, hf]
      have hsteps : stepsOf i ((s, a) :: h) = stepsOf i h + 1 := by simp [stepsOf, hown]
      rw [hidles, hsteps]
      exact le_trans (Nat.succ_le_succ hbound) hsucc
    · refine ⟨l', hl', hwithin.mono hle, ?_⟩
      have hidles : idleFailures i ((s, a) :: h) = idleFailures i h := by
        simp [idleFailures, hidle]
      have hsteps : stepsOf i ((s, a) :: h) = stepsOf i h := by simp [stepsOf, hother]
      rw [hidles, hsteps]
      exact le_trans hbound (RetryLoop.bound_mono hle)

/-- Tickets are kept to the end of the run. -/
theorem ticket_of_mem [Inhabited T] {h : History (QueueState w k T ι) (QueueAction T ι)}
    (hr : (queueSystem w k T ι).Run (fun _ s _ => PositionsBelow s) h s) (kind : QueueKind) :
    ∀ e ∈ h, ∀ j p, (e.1.calls j).ticket kind = some p → (s.calls j).ticket kind = some p := by
  refine hr.invariant (P := fun h s => ∀ e ∈ h, ∀ j p, (e.1.calls j).ticket kind = some p →
    (s.calls j).ticket kind = some p) (by simp) ?_
  intro h s a s' _ ih _ hs e he j p hp
  rcases List.mem_cons.mp he with rfl | hold
  · exact ticket_of_step hs hp
  · exact ticket_of_step hs (ih e hold j p hp)

omit [DecidableEq ι] in
/-- An `enqueue` that has a ticket has drawn it in its loop, and takes two steps with it. -/
theorem EnqPc.drawn_of_loop (data : T) (pc : EnqPc w) :
    (∀ p, (QueueCall.enqueue data pc).enqTicket = some p → ∃ n, pc.loop = .drawn p n) ∧
      ∀ p n, pc.loop = .drawn p n → n ≤ 2 := by
  cases pc with
  | returned pos result => cases result <;> simp [QueueCall.enqTicket, EnqPc.loop]
  | _ => simp [QueueCall.enqTicket, EnqPc.loop]

omit [DecidableEq ι] in
/-- A `dequeue` that has a ticket has drawn it in its loop, and takes two steps with it. -/
theorem DeqPc.drawn_of_loop (pc : DeqPc w T) :
    (∀ p, (QueueCall.dequeue pc).deqTicket = some p → ∃ n, pc.loop = .drawn p n) ∧
      ∀ p n, pc.loop = .drawn p n → n ≤ 2 := by
  cases pc with
  | returned pos result => cases result <;> simp [QueueCall.deqTicket, DeqPc.loop]
  | _ => simp [QueueCall.deqTicket, DeqPc.loop]

omit [DecidableEq ι] in
theorem QueueCall.drawn_of_loop {c : QueueCall w T} {kind : QueueKind} {l : RetryLoop}
    (hl : c.loop kind = some l) :
    (∀ p, c.ticket kind = some p → ∃ n, l = .drawn p n) ∧ ∀ p n, l = .drawn p n → n ≤ 2 := by
  cases kind with
  | enqueue =>
    cases c with
    | enqueue data pc => cases hl; exact pc.drawn_of_loop data
    | notStarted | dequeue pc => cases hl
  | dequeue =>
    cases c with
    | dequeue pc => cases hl; exact pc.drawn_of_loop
    | notStarted | enqueue data pc => cases hl

omit [DecidableEq ι] in
/-- The tickets of one kind that have been drawn are those below its position. -/
theorem RingInv.issued {r : Ring k} (h : RingInv s r) (kind : QueueKind) :
    Issued (fun i => (s.calls i).ticket kind) (s.queue.position kind) := by
  cases kind with
  | enqueue => exact h.enqTickets
  | dequeue => exact h.deqTickets

/-- The retries of a call are paid for: in every run whose steps are taken with both positions below
half the range, a call that has begun has taken at most five steps, and two more for each spurious
failure of its exchange and for each of some other calls of its kind, all of which have won their
tickets since it began. -/
theorem call_retries [Inhabited T] (hk : 1 ≤ k) (hkw : k < w)
    {h : History (QueueState w k T ι) (QueueAction T ι)}
    (hr : (queueSystem w k T ι).Run (fun _ s _ => PositionsBelow s) h s) :
    ∀ e ∈ h, ∀ i kind, e.2.begins i kind = true → ∃ others : Finset ι, i ∉ others ∧
      (∀ j ∈ others, (e.1.calls j).ticket kind = none ∧
        ∃ p, (s.calls j).ticket kind = some p) ∧
      stepsOf i h ≤ 2 * (others.card + idleFailures i h) + 5 := by
  intro e he i kind hbegins
  obtain ⟨l, hl, hwithin, hbound⟩ := steps_le_bound hk hkw hr e he i kind hbegins
  obtain ⟨hdrawn, htwo⟩ := QueueCall.drawn_of_loop hl
  obtain ⟨r, hinv⟩ := ringInv_of_run hk hkw hr
  obtain ⟨h₀, hr₀⟩ := hr.before he
  obtain ⟨r₀, hinv₀⟩ := ringInv_of_run hk hkw hr₀
  obtain ⟨others, hcard, hothers⟩ :=
    (hinv.issued kind).exists_holders (a := e.1.queue.position kind) hwithin.limit_le
  refine ⟨others, fun hi => ?_, fun j hj => ?_, ?_⟩
  · -- its own ticket is the limit
    obtain ⟨p, -, hlt, hp⟩ := hothers i hi
    obtain ⟨n, rfl⟩ := hdrawn p hp
    exact absurd hlt (lt_irrefl _)
  · obtain ⟨p, hge, -, hp⟩ := hothers j hj
    refine ⟨?_, p, hp⟩
    -- a ticket from before the call began would be smaller
    cases hq : (e.1.calls j).ticket kind with
    | none => rfl
    | some q =>
      have hkept := ticket_of_mem hr kind e he j q hq
      rw [hp, Option.some.injEq] at hkept
      have hlt := (hinv₀.issued kind).lt j q hq
      omega
  · rw [hcard]
    exact hbound.trans (RetryLoop.bound_le htwo)

/-- In the run of the overlapping calls, the first `enqueue` is overtaken. -/
theorem call_retries_overtaken :
    ∃ (h : History (QueueState 3 1 Bool ℕ) (QueueAction Bool ℕ)) (others : Finset ℕ),
      0 ∉ others ∧ 5 < stepsOf 0 h ∧ stepsOf 0 h ≤ 2 * (others.card + idleFailures 0 h) + 5 := by
  have hrun : ∃ (h : History (QueueState 3 1 Bool ℕ) (QueueAction Bool ℕ))
      (s : QueueState 3 1 Bool ℕ),
      (queueSystem 3 1 Bool ℕ).Run (fun _ s _ => PositionsBelow s) h s ∧
        (∃ e ∈ h, e.2.begins 0 .enqueue = true) ∧ 5 < stepsOf 0 h :=
    System.exists_run_of_trace rfl overlappingCalls (by decide)
  obtain ⟨h, s, hr, ⟨e, he, hbegins⟩, hsteps⟩ := hrun
  obtain ⟨others, hnot, -, hle⟩ := call_retries (by decide) (by decide) hr e he 0 _ hbegins
  exact ⟨h, others, hnot, hsteps, hle⟩

end Run

end NomadTasks
