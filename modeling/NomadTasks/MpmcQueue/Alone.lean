import NomadTasks.MpmcQueue.Failure
import NomadTasks.MpmcQueue.Sequential

/-!
# `mpmc_queue`: a call that runs alone

The loops of `enqueue` and `dequeue` count nothing: the last branch loads the position again and
goes round. They end because a cell is never ahead of the position that is next, whatever the other
calls were doing when they stopped, so that a call takes that branch with a stale position only.

* `RingInv.seq_le_enq`, `RingInv.seq_le_deq`: a cell is not ahead of the next position.
* `RingInv.le_seq_of_enq`, `RingInv.le_seq_of_deq`: a cell is at most one buffer behind.
* `LeavesAlone`: a call that runs alone leaves its loop after so many sequence loads.
* `call_alone_leaves`: two are enough, for every call in every state.
-/

namespace NomadTasks

open Transition Ticket

variable {w k : ℕ} {T ι : Type}

namespace QueueCall

/-- The call is in its loop. -/
def inLoop : QueueCall w T → Bool
  | .enqueue _ .loadPos | .enqueue _ (.loadSeq _) | .enqueue _ (.cas _) => true
  | .dequeue .loadPos | .dequeue (.loadSeq _) | .dequeue (.cas _) => true
  | _ => false

/-- The next step of the call is a sequence load. -/
def loadsSequence : QueueCall w T → Bool
  | .enqueue _ (.loadSeq _) | .dequeue (.loadSeq _) => true
  | _ => false

end QueueCall

/-! ## How far a cell is from a position -/

section RingInv

variable {s : QueueState w k T ι} {r : Ring k}

/-- The cell of the enqueue position is not ahead of it. -/
theorem RingInv.seq_le_enq (h : RingInv s r) :
    r.seq (ringIndex k s.queue.enqueuePos.toNat) ≤ s.queue.enqueuePos.toNat := by
  have hcur := h.cur_lt (ringIndex k s.queue.enqueuePos.toNat)
  have hindex := h.index (ringIndex k s.queue.enqueuePos.toNat)
  unfold Ring.seq
  cases hfull : r.full (ringIndex k s.queue.enqueuePos.toNat) with
  | true => exact h.full_lt _ hfull
  | false =>
    -- a later ticket of the cell would be a whole buffer later
    by_contra hlt
    have := add_le_of_ringIndex_eq hindex.symm (by simpa using hlt)
    omega

/-- The cell of the dequeue position is at most ready for it. -/
theorem RingInv.seq_le_deq (h : RingInv s r) :
    r.seq (ringIndex k s.queue.dequeuePos.toNat) ≤ s.queue.dequeuePos.toNat + 1 := by
  have hcur : r.cur (ringIndex k s.queue.dequeuePos.toNat) ≤ s.queue.dequeuePos.toNat := by
    by_contra hlt
    exact absurd (h.passed_lt _ (not_le.mp hlt)) (lt_irrefl _)
  have hfull := Bool.toNat_le (r.full (ringIndex k s.queue.dequeuePos.toNat))
  unfold Ring.seq
  omega

/-- No cell is more than one buffer ahead of the dequeue position. -/
theorem RingInv.seq_le_deq_add (h : RingInv s r) (x : Fin (2 ^ k)) :
    r.seq x ≤ s.queue.dequeuePos.toNat + 2 ^ k := by
  have hfull := Bool.toNat_le (r.full x)
  unfold Ring.seq
  rcases Nat.lt_or_ge (r.cur x) (2 ^ k) with hlt | hge
  · omega
  -- the ticket one buffer earlier has left the cell
  · obtain ⟨p, hp⟩ := Nat.exists_eq_add_of_le' hge
    have hx : ringIndex k p = x := by rw [← ringIndex_add_size, ← hp, h.index]
    have hpos : 0 < 2 ^ k := Nat.two_pow_pos k
    have hpassed := h.passed_lt p (by rw [Ring.Passed, hx, hp]; omega)
    omega

/-- The cell of a position that `enqueue` has loaded is at most one buffer behind. -/
theorem RingInv.le_seq_of_enq (h : RingInv s r) {p : ℕ} (hp : p ≤ s.queue.enqueuePos.toNat) :
    p ≤ r.seq (ringIndex k p) + 2 ^ k := by
  rcases Nat.lt_or_ge p (2 ^ k) with hlt | hge
  · omega
  -- the ticket one buffer earlier has been won
  · obtain ⟨t, rfl⟩ := Nat.exists_eq_add_of_le' hge
    have hpos : 0 < 2 ^ k := Nat.two_pow_pos k
    obtain ⟨i, hi⟩ := h.enqTickets.held t (by omega)
    have hcur := h.le_cur_of_enqTicket hi
    rw [ringIndex_add_size]
    unfold Ring.seq
    omega

/-- The cell of a position that `dequeue` has loaded is at most one buffer behind what that position
waits for. -/
theorem RingInv.le_seq_of_deq (h : RingInv s r) {p : ℕ} (hp : p ≤ s.queue.dequeuePos.toNat) :
    p + 1 ≤ r.seq (ringIndex k p) + 2 ^ k := by
  rcases Nat.lt_or_ge p (2 ^ k) with hlt | hge
  · omega
  -- the ticket one buffer earlier has been won, and its element was in the cell
  · obtain ⟨t, rfl⟩ := Nat.exists_eq_add_of_le' hge
    have hpos : 0 < 2 ^ k := Nat.two_pow_pos k
    obtain ⟨i, hi⟩ := h.deqTickets.held t (by omega)
    have hok := h.calls i
    have hseq : t + 1 ≤ r.seq (ringIndex k t) := by
      revert hi hok
      generalize s.calls i = c
      fun_cases QueueCall.deqTicket c <;> intro hi hok <;> cases hi
      · rw [Ring.seq, hok.2.1, hok.2.2, Bool.toNat_true]
      · rw [Ring.seq, hok.2.1.1, hok.2.1.2, Bool.toNat_true]
      · exact Nat.le_add_right_of_le hok.2
    rw [ringIndex_add_size]
    omega

/-- A sequence number that is not ahead of what the call waits for, and at most one buffer behind,
is equal to it or has a negative signed distance. -/
theorem dif_of_behind {seq p : ℕ} (hkw : k < w) (hle : seq ≤ p) (hge : p ≤ seq + 2 ^ k) :
    BitVec.ofNat w seq - BitVec.ofNat w p = 0#w ∨
      BitVec.ofNat w seq - BitVec.ofNat w p ≠ 0#w ∧
        (BitVec.ofNat w seq - BitVec.ofNat w p).slt 0#w = true := by
  have hhalf : 2 * 2 ^ k ≤ 2 ^ w := by
    rw [← pow_succ']
    exact Nat.pow_le_pow_right (by omega) hkw
  obtain ⟨m, rfl⟩ := Nat.exists_eq_add_of_le hle
  rcases Nat.eq_zero_or_pos m with rfl | hm
  · exact .inl (by rw [Nat.add_zero, BitVec.sub_self])
  · exact .inr (slt_zero_of_behind (w := w) hm (by omega) seq).symm

/-- What a sequence load at the enqueue position shows: the cell is ready, or behind. -/
theorem RingInv.dif_enq (h : RingInv s r) (hkw : k < w) :
    let dif := (s.queue.buffer (cellIndex s.queue.enqueuePos)).sequence - s.queue.enqueuePos
    dif = 0#w ∨ dif ≠ 0#w ∧ dif.slt 0#w = true := by
  have hdif := dif_of_behind hkw h.seq_le_enq (h.le_seq_of_enq le_rfl)
  rw [BitVec.ofNat_toNat, BitVec.setWidth_eq] at hdif
  simpa only [cellIndex_eq_ringIndex hkw, h.seq] using hdif

/-- What a sequence load at the dequeue position shows: the cell is ready, or behind. -/
theorem RingInv.dif_deq (h : RingInv s r) (hkw : k < w) :
    let dif := (s.queue.buffer (cellIndex s.queue.dequeuePos)).sequence -
      (s.queue.dequeuePos + 1#w)
    dif = 0#w ∨ dif ≠ 0#w ∧ dif.slt 0#w = true := by
  have hdif := dif_of_behind hkw h.seq_le_deq (h.le_seq_of_deq le_rfl)
  rw [NomadTasks.ofNat_succ, BitVec.ofNat_toNat, BitVec.setWidth_eq] at hdif
  simpa only [cellIndex_eq_ringIndex hkw, h.seq] using hdif

end RingInv

/-! ## Running alone -/

section Alone

variable [DecidableEq ι]

/-- Call `i`, continued without steps of other calls and without spurious failures, leaves its loop
after at most `n` more sequence loads. -/
inductive LeavesAlone (i : ι) : ℕ → QueueState w k T ι → Prop
  | left {n : ℕ} {s : QueueState w k T ι} (hout : (s.calls i).inLoop = false) : LeavesAlone i n s
  | step {n : ℕ} {s s' : QueueState w k T ι} (hload : (s.calls i).loadsSequence = false)
      (hs : queueStep s (.step i false) = some s') (h : LeavesAlone i n s') : LeavesAlone i n s
  | load {n : ℕ} {s s' : QueueState w k T ι} (hload : (s.calls i).loadsSequence = true)
      (hs : queueStep s (.step i false) = some s') (h : LeavesAlone i n s') :
      LeavesAlone i (n + 1) s

variable {s s' : QueueState w k T ι} {r : Ring k} {i : ι} {m n : ℕ} {data : T}

/-- More loads do no harm. -/
theorem LeavesAlone.mono (h : LeavesAlone i m s) (hmn : m ≤ n) : LeavesAlone i n s := by
  induction h generalizing n with
  | left hout => exact .left hout
  | step hload hs _ ih => exact .step hload hs (ih hmn)
  | load hload hs _ ih =>
    obtain ⟨n, rfl⟩ := Nat.exists_eq_add_of_le' (Nat.le_of_add_left_le hmn)
    exact .load hload hs (ih (Nat.le_of_succ_le_succ hmn))

/-- A step of an `enqueue` call that has not returned. -/
theorem queueStep_enqueue {pc : EnqPc w} {spurious : Bool} (hcall : s.calls i = .enqueue data pc)
    (hrun : ∀ p b, pc ≠ .returned p b) :
    queueStep s (.step i spurious) = some
      ({ s with queue := (enqStep s.queue data spurious pc).1 }.setCall i
        (.enqueue data (enqStep s.queue data spurious pc).2)) := by
  cases pc with
  | returned p b => exact absurd rfl (hrun p b)
  | _ => simp [queueStep, hcall]

/-- A step of a `dequeue` call that has not returned. -/
theorem queueStep_dequeue {pc : DeqPc w T} {spurious : Bool} (hcall : s.calls i = .dequeue pc)
    (hrun : ∀ p b, pc ≠ .returned p b) :
    queueStep s (.step i spurious) = some
      ({ s with queue := (deqStep s.queue spurious pc).1 }.setCall i
        (.dequeue (deqStep s.queue spurious pc).2)) := by
  cases pc with
  | returned p b => exact absurd rfl (hrun p b)
  | _ => simp [queueStep, hcall]

/-- The call after it has become `c`. -/
@[simp] theorem QueueState.setCall_calls_self (s : QueueState w k T ι) (i : ι) (c : QueueCall w T) :
    (s.setCall i c).calls i = c := Function.update_self ..

@[simp] theorem QueueState.setCall_queue (s : QueueState w k T ι) (i : ι) (c : QueueCall w T) :
    (s.setCall i c).queue = s.queue := rfl

/-! ### `enqueue` -/

/-- An exchange at the enqueue position succeeds. -/
theorem LeavesAlone.enq_exchange (hcall : s.calls i = .enqueue data (.cas s.queue.enqueuePos)) :
    LeavesAlone i 0 s := by
  refine .step (by rw [hcall]; rfl) (queueStep_enqueue hcall nofun) (.left ?_)
  rw [QueueState.setCall_calls_self, enqStep_cas]
  rfl

/-- One load is enough at the position that is next. -/
theorem LeavesAlone.enq_loadSeq (h : RingInv s r) (hkw : k < w)
    (hq : s'.queue = s.queue)
    (hcall : s'.calls i = .enqueue data (.loadSeq s'.queue.enqueuePos)) : LeavesAlone i 1 s' := by
  refine .load (by rw [hcall]; rfl) (queueStep_enqueue hcall nofun) ?_
  rw [hq]
  rcases h.dif_enq hkw with hready | ⟨hne, hslt⟩
  · rw [enqStep_loadSeq_ready hready]
    exact .enq_exchange (QueueState.setCall_calls_self ..)
  · rw [enqStep_loadSeq_full hne hslt]
    exact .left (by simp [QueueCall.inLoop])

/-- An exchange fails on a stale position only, and loads the one that is next. -/
theorem LeavesAlone.enq_cas (h : RingInv s r) (hkw : k < w) {pos : BitVec w}
    (hq : s'.queue = s.queue) (hcall : s'.calls i = .enqueue data (.cas pos)) :
    LeavesAlone i 1 s' := by
  by_cases hpos : s'.queue.enqueuePos = pos
  · subst hpos
    exact (LeavesAlone.enq_exchange hcall).mono (Nat.zero_le 1)
  · refine .step (by rw [hcall]; rfl) (queueStep_enqueue hcall nofun) ?_
    have hfail : enqStep s'.queue data false (.cas pos) =
        (s'.queue, .loadSeq s'.queue.enqueuePos) := by
      simp [enqStep, hpos]
    rw [hfail]
    exact LeavesAlone.enq_loadSeq h hkw hq (QueueState.setCall_calls_self ..)

/-- From before the loop, or its last branch. -/
theorem LeavesAlone.enq_loadPos (h : RingInv s r) (hkw : k < w)
    (hq : s'.queue = s.queue) (hcall : s'.calls i = .enqueue data .loadPos) :
    LeavesAlone i 1 s' :=
  .step (by rw [hcall]; rfl) (queueStep_enqueue hcall nofun)
    (LeavesAlone.enq_loadSeq h hkw hq (QueueState.setCall_calls_self ..))

/-- From any program point of `enqueue`. -/
theorem LeavesAlone.of_enq (h : RingInv s r) (hkw : k < w) {pc : EnqPc w}
    (hcall : s.calls i = .enqueue data pc) : LeavesAlone i 2 s := by
  cases pc with
  | loadPos => exact (LeavesAlone.enq_loadPos h hkw rfl hcall).mono one_le_two
  | cas pos => exact (LeavesAlone.enq_cas h hkw rfl hcall).mono one_le_two
  | copy | store | returned => exact .left (by rw [hcall]; rfl)
  -- the position may be stale: any of the three branches
  | loadSeq pos =>
    refine .load (by rw [hcall]; rfl) (queueStep_enqueue hcall nofun) ?_
    simp only [enqStep]
    split
    · exact LeavesAlone.enq_cas h hkw rfl (QueueState.setCall_calls_self ..)
    · split
      · exact .left (by simp [QueueCall.inLoop])
      · exact LeavesAlone.enq_loadPos h hkw rfl (QueueState.setCall_calls_self ..)

/-! ### `dequeue` -/

/-- An exchange at the dequeue position succeeds. -/
theorem LeavesAlone.deq_exchange (hcall : s.calls i = .dequeue (.cas s.queue.dequeuePos)) :
    LeavesAlone i 0 s := by
  refine .step (by rw [hcall]; rfl) (queueStep_dequeue hcall nofun) (.left ?_)
  rw [QueueState.setCall_calls_self, deqStep_cas]
  rfl

/-- One load is enough at the position that is next. -/
theorem LeavesAlone.deq_loadSeq (h : RingInv s r) (hkw : k < w)
    (hq : s'.queue = s.queue)
    (hcall : s'.calls i = .dequeue (.loadSeq s'.queue.dequeuePos)) : LeavesAlone i 1 s' := by
  refine .load (by rw [hcall]; rfl) (queueStep_dequeue hcall nofun) ?_
  rw [hq]
  rcases h.dif_deq hkw with hready | ⟨hne, hslt⟩
  · rw [deqStep_loadSeq_ready hready]
    exact .deq_exchange (QueueState.setCall_calls_self ..)
  · rw [deqStep_loadSeq_empty hne hslt]
    exact .left (by simp [QueueCall.inLoop])

/-- An exchange fails on a stale position only, and loads the one that is next. -/
theorem LeavesAlone.deq_cas (h : RingInv s r) (hkw : k < w) {pos : BitVec w}
    (hq : s'.queue = s.queue) (hcall : s'.calls i = .dequeue (.cas pos)) :
    LeavesAlone i 1 s' := by
  by_cases hpos : s'.queue.dequeuePos = pos
  · subst hpos
    exact (LeavesAlone.deq_exchange hcall).mono (Nat.zero_le 1)
  · refine .step (by rw [hcall]; rfl) (queueStep_dequeue hcall nofun) ?_
    have hfail : deqStep s'.queue false (.cas pos) =
        (s'.queue, .loadSeq s'.queue.dequeuePos) := by
      simp [deqStep, hpos]
    rw [hfail]
    exact LeavesAlone.deq_loadSeq h hkw hq (QueueState.setCall_calls_self ..)

/-- From before the loop, or its last branch. -/
theorem LeavesAlone.deq_loadPos (h : RingInv s r) (hkw : k < w)
    (hq : s'.queue = s.queue) (hcall : s'.calls i = .dequeue .loadPos) :
    LeavesAlone i 1 s' :=
  .step (by rw [hcall]; rfl) (queueStep_dequeue hcall nofun)
    (LeavesAlone.deq_loadSeq h hkw hq (QueueState.setCall_calls_self ..))

/-- From any program point of `dequeue`. -/
theorem LeavesAlone.of_deq (h : RingInv s r) (hkw : k < w) {pc : DeqPc w T}
    (hcall : s.calls i = .dequeue pc) : LeavesAlone i 2 s := by
  cases pc with
  | loadPos => exact (LeavesAlone.deq_loadPos h hkw rfl hcall).mono one_le_two
  | cas pos => exact (LeavesAlone.deq_cas h hkw rfl hcall).mono one_le_two
  | copy | store | returned => exact .left (by rw [hcall]; rfl)
  -- the position may be stale: any of the three branches
  | loadSeq pos =>
    refine .load (by rw [hcall]; rfl) (queueStep_dequeue hcall nofun) ?_
    simp only [deqStep]
    split
    · exact LeavesAlone.deq_cas h hkw rfl (QueueState.setCall_calls_self ..)
    · split
      · exact .left (by simp [QueueCall.inLoop])
      · exact LeavesAlone.deq_loadPos h hkw rfl (QueueState.setCall_calls_self ..)

/-- In every state of every run whose steps are taken with both positions below half the range,
whatever the other calls are doing: a call that goes on alone, from any of its program points,
leaves its loop after at most two more sequence loads. -/
theorem call_alone_leaves [Inhabited T] (hk : 1 ≤ k) (hkw : k < w)
    {h : History (QueueState w k T ι) (QueueAction T ι)}
    (hr : (queueSystem w k T ι).Run (fun _ s _ => PositionsBelow s) h s) (i : ι) :
    LeavesAlone i 2 s := by
  obtain ⟨r, hinv⟩ := ringInv_of_run hk hkw hr
  cases hcall : s.calls i with
  | notStarted => exact .left (by rw [hcall]; rfl)
  | enqueue data pc => exact .of_enq hinv hkw hcall
  | dequeue pc => exact .of_deq hinv hkw hcall

end Alone

/-- An `enqueue` stops before its sequence load; another one puts an element in, which a `dequeue`
takes out. -/
def overtakenEnqueue : List (QueueAction Bool ℕ) :=
  .beginEnqueue 0 true :: callSteps 0 1 ++ .beginEnqueue 1 true :: callSteps 1 5 ++
    .beginDequeue 2 :: callSteps 2 5

/-- Its cell is ahead of its position, so that it needs both loads. -/
theorem call_alone_leaves_overtaken :
    ∃ (h : History (QueueState 64 1 Bool ℕ) (QueueAction Bool ℕ)) (s : QueueState 64 1 Bool ℕ),
      (queueSystem 64 1 Bool ℕ).Run (fun _ s _ => PositionsBelow s) h s ∧
        s.calls 0 = .enqueue true (.loadSeq 0) ∧ (s.queue.buffer 0).sequence = 2#64 ∧
          LeavesAlone 0 2 s := by
  have hrun : ∃ (h : History (QueueState 64 1 Bool ℕ) (QueueAction Bool ℕ))
      (s : QueueState 64 1 Bool ℕ),
      (queueSystem 64 1 Bool ℕ).Run (fun _ s _ => PositionsBelow s) h s ∧
        s.calls 0 = .enqueue true (.loadSeq 0) ∧ (s.queue.buffer 0).sequence = 2#64 :=
    System.exists_run_of_trace rfl overtakenEnqueue (by decide +kernel)
  obtain ⟨h, s, hr, hcall, hseq⟩ := hrun
  exact ⟨h, s, hr, hcall, hseq, call_alone_leaves (by decide) (by decide) hr 0⟩

end NomadTasks
