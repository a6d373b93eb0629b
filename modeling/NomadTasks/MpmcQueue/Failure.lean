import Mathlib.Data.Set.Card
import NomadTasks.MpmcQueue.RingInvariant

/-!
# `mpmc_queue`: what a failed call says about the queue

A call infers that the queue is full, or empty, from the sequence number of one cell. It finds the
cell of its position not released, or not published, and so it cannot tell a queue that is full, or
empty, from one in which the call that has won the ticket of that cell has not finished.

* `RingInv.reason_full`, `RingInv.reason_empty`: what the sequence number says in one state.
* `RingInv.sequence_mono`: sequence numbers only grow.
* `queue_failure_reason`: what a failed call says about some instant during the call.
* `queue_failure_misleading`: runs in which a call fails on a queue that is neither full nor empty.
-/

namespace NomadTasks

open Transition Ticket

variable {w k : ℕ} {T ι : Type}

namespace QueueCall

/-- The call has begun, and has not returned. -/
def inProgress : QueueCall w T → Bool
  | .notStarted | .enqueue _ (.returned _ _) | .dequeue (.returned _ _) => false
  | _ => true

/-- The ticket of an `enqueue` call that is between its exchange and its sequence store. -/
def publishing : QueueCall w T → Option ℕ
  | .enqueue _ (.copy pos) | .enqueue _ (.store pos) => some pos.toNat
  | _ => none

/-- The ticket of a `dequeue` call that is between its exchange and its sequence store. -/
def releasing : QueueCall w T → Option ℕ
  | .dequeue (.copy pos) | .dequeue (.store pos _) => some pos.toNat
  | _ => none

end QueueCall

namespace QueueState

/-- The enqueue tickets that have been won. -/
def enqTickets (s : QueueState w k T ι) : Set ℕ := {p | ∃ i, (s.calls i).enqTicket = some p}

/-- The dequeue tickets that have been won. -/
def deqTickets (s : QueueState w k T ι) : Set ℕ := {p | ∃ i, (s.calls i).deqTicket = some p}

/-- The queue holds `buffer_size` elements that no `dequeue` has taken. -/
def Full (s : QueueState w k T ι) : Prop := s.enqTickets.ncard = s.deqTickets.ncard + 2 ^ k

/-- A `dequeue` has taken every element whose `enqueue` has returned `true`. -/
def AllTaken (s : QueueState w k T ι) : Prop :=
  ∀ i pos data, s.calls i = .enqueue data (.returned pos true) → pos.toNat ∈ s.deqTickets

end QueueState

/-- The sequence numbers are at most `2 ^ (w - 1)`, so that no signed distance wraps around. -/
def SequencesBelow (s : QueueState w k T ι) : Prop :=
  s.queue.enqueuePos.toNat + 2 ^ k ≤ 2 ^ (w - 1) ∧
    s.queue.dequeuePos.toNat + 2 ^ k ≤ 2 ^ (w - 1)

instance (s : QueueState w k T ι) : Decidable (SequencesBelow s) :=
  inferInstanceAs (Decidable (_ ∧ _))

theorem SequencesBelow.positionsBelow {s : QueueState w k T ι} (h : SequencesBelow s) :
    PositionsBelow s := by
  have hpos : 0 < 2 ^ k := Nat.two_pow_pos k
  exact ⟨by have := h.1; omega, by have := h.2; omega⟩

/-! ## What a sequence number says -/

section RingInv

variable {s : QueueState w k T ι} {r : Ring k}

/-- As many enqueue tickets have been won as the position says. -/
theorem RingInv.ncard_enqTickets (h : RingInv s r) :
    s.enqTickets.ncard = s.queue.enqueuePos.toNat := by
  have hset : s.enqTickets = Set.Iio s.queue.enqueuePos.toNat := by
    ext p
    exact ⟨fun ⟨i, hi⟩ => h.enqTickets.lt i p hi, fun hp => h.enqTickets.held p hp⟩
  rw [hset, ← Finset.coe_range, Set.ncard_coe_finset, Finset.card_range]

/-- As many dequeue tickets have been won as the position says. -/
theorem RingInv.ncard_deqTickets (h : RingInv s r) :
    s.deqTickets.ncard = s.queue.dequeuePos.toNat := by
  have hset : s.deqTickets = Set.Iio s.queue.dequeuePos.toNat := by
    ext p
    exact ⟨fun ⟨i, hi⟩ => h.deqTickets.lt i p hi, fun hp => h.deqTickets.held p hp⟩
  rw [hset, ← Finset.coe_range, Set.ncard_coe_finset, Finset.card_range]

/-- The dequeue tickets are those below the position. -/
theorem RingInv.mem_deqTickets (h : RingInv s r) {p : ℕ} :
    p ∈ s.deqTickets ↔ p < s.queue.dequeuePos.toNat :=
  ⟨fun ⟨i, hi⟩ => h.deqTickets.lt i p hi, fun hp => h.deqTickets.held p hp⟩

theorem RingInv.full_iff (h : RingInv s r) :
    s.Full ↔ s.queue.enqueuePos.toNat = s.queue.dequeuePos.toNat + 2 ^ k := by
  rw [QueueState.Full, h.ncard_enqTickets, h.ncard_deqTickets]

theorem RingInv.toNat_sequence (h : RingInv s r) (hkw : k < w) (hpos : PositionsBelow s)
    (x : Fin (2 ^ k)) : (s.queue.buffer x).sequence.toNat = r.seq x := by
  rw [h.seq, BitVec.toNat_ofNat, Nat.mod_eq_of_lt (h.seq_lt hkw hpos.1 x)]

/-- Two tickets of one cell are the same, or at least one buffer apart. -/
theorem add_le_of_ringIndex_eq {p q : ℕ} (hx : ringIndex k p = ringIndex k q) (hlt : p < q) :
    p + 2 ^ k ≤ q := by
  have hmod : p ≡ q [MOD 2 ^ k] := congrArg Fin.val hx
  obtain ⟨c, hc⟩ := (Nat.modEq_iff_dvd' hlt.le).mp hmod
  have hcpos : 0 < c := Nat.pos_of_ne_zero fun h0 => by subst h0; omega
  have hle : 2 ^ k * 1 ≤ 2 ^ k * c := Nat.mul_le_mul_left _ hcpos
  omega

/-- The cell of a ticket that has been won is with that ticket, or with a later one. -/
theorem RingInv.le_cur_of_enqTicket (h : RingInv s r) {i : ι} {p : ℕ}
    (hi : (s.calls i).enqTicket = some p) : p ≤ r.cur (ringIndex k p) := by
  have hok := h.calls i
  revert hi hok
  generalize s.calls i = c
  fun_cases QueueCall.enqTicket c <;> intro hi hok <;> cases hi
  · rw [hok.2.1]
  · rw [hok.2.1.1]
  · rcases hok.2 with hp | hf
    · exact le_of_lt hp
    · rw [hf.1.1]

/-- The queue never holds more than the buffer. -/
theorem RingInv.enq_le_deq_add (h : RingInv s r) :
    s.queue.enqueuePos.toNat ≤ s.queue.dequeuePos.toNat + 2 ^ k := by
  by_contra hlt
  have hsize : 0 < 2 ^ k := Nat.two_pow_pos k
  -- the last ticket is in its cell, so the ticket one buffer earlier has left it
  obtain ⟨p, hp⟩ : ∃ p, p + 2 ^ k + 1 = s.queue.enqueuePos.toNat :=
    ⟨s.queue.enqueuePos.toNat - 2 ^ k - 1, by omega⟩
  obtain ⟨i, hi⟩ := h.enqTickets.held (p + 2 ^ k) (by omega)
  have hcur := h.le_cur_of_enqTicket hi
  have hpassed := h.passed_lt p (by
    rw [Ring.Passed, ← ringIndex_add_size]
    omega)
  omega

/-- The cell of the enqueue position has not been released: the queue is full, or the `dequeue` of
the ticket one buffer earlier has not finished. -/
theorem RingInv.reason_full (h : RingInv s r)
    (hseq : r.seq (ringIndex k s.queue.enqueuePos.toNat) < s.queue.enqueuePos.toNat) :
    s.Full ∨ ∃ j p, (s.calls j).releasing = some p ∧ p + 2 ^ k = s.enqTickets.ncard := by
  rw [h.full_iff, h.ncard_enqTickets]
  have hcur : r.cur (ringIndex k s.queue.enqueuePos.toNat) + 2 ^ k ≤
      s.queue.enqueuePos.toNat :=
    add_le_of_ringIndex_eq (h.index _) (lt_of_le_of_lt (Nat.le_add_right _ _) hseq)
  obtain ⟨p, hp⟩ : ∃ p, p + 2 ^ k = s.queue.enqueuePos.toNat :=
    ⟨s.queue.enqueuePos.toNat - 2 ^ k, by omega⟩
  have hnot : ¬ r.Passed p := by
    rw [Ring.Passed, ← ringIndex_add_size, hp]
    omega
  -- the ticket a round earlier is drawn and its call still releases the cell, or it is not
  rcases Nat.lt_or_ge p s.queue.dequeuePos.toNat with hlt | hge
  · obtain ⟨j, hj⟩ := h.deqTickets.held p hlt
    refine .inr ⟨j, p, ?_, hp⟩
    have hok := h.calls j
    revert hj hok
    generalize s.calls j = c
    fun_cases QueueCall.deqTicket c <;> intro hj hok <;> cases hj
    · rfl
    · rfl
    · exact absurd hok.2 hnot
  · have := h.enq_le_deq_add
    exact .inl (by omega)

/-- The cell of the dequeue position has not been published: every element has been taken, or the
`enqueue` of that ticket has not finished. -/
theorem RingInv.reason_empty (h : RingInv s r)
    (hseq : r.seq (ringIndex k s.queue.dequeuePos.toNat) ≤ s.queue.dequeuePos.toNat) :
    s.AllTaken ∨ ∃ j, (s.calls j).publishing = some s.deqTickets.ncard := by
  rw [h.ncard_deqTickets]
  -- an `Enqueue` has drawn the ticket and still publishes, or none has
  rcases Nat.lt_or_ge s.queue.dequeuePos.toNat s.queue.enqueuePos.toNat with hlt | hge
  · obtain ⟨j, hj⟩ := h.enqTickets.held _ hlt
    refine .inr ⟨j, ?_⟩
    have hok := h.calls j
    revert hj hok
    generalize s.calls j = c
    fun_cases QueueCall.enqTicket c with
    | case1 data pos => exact fun hj _ => hj
    | case2 data pos => exact fun hj _ => hj
    | case3 data pos =>
      -- a completed enqueue's element is taken, or its cell says that it is there
      intro hj hok
      have hok := hok.2
      rw [Option.some.inj hj] at hok
      rcases hok with hp | ⟨hf, -⟩
      · exact absurd (h.passed_lt _ hp) (lt_irrefl _)
      · rw [Ring.seq, hf.1, hf.2, Bool.toNat_true] at hseq
        omega
    | case4 => rintro ⟨⟩
  · refine .inl fun i pos data hi => h.mem_deqTickets.mpr ?_
    exact lt_of_lt_of_le (h.enqTickets.lt i pos.toNat (by rw [hi]; rfl)) hge

/-- A negative signed distance is one from a greater position, as long as the sequence number is
below half the range. -/
theorem toNat_lt_of_slt {seq pos : BitVec w} (hseq : seq.toNat < 2 ^ (w - 1))
    (hslt : (seq - pos).slt 0#w = true) : seq.toNat < pos.toNat := by
  by_contra hge
  have hdif : (seq - pos).toNat = seq.toNat - pos.toNat :=
    BitVec.toNat_sub_of_le (by rw [BitVec.le_def]; omega)
  rw [BitVec.slt_zero_iff_msb_cond, BitVec.msb_eq_decide, decide_eq_true_iff, hdif] at hslt
  omega

/-- A sequence number is below the enqueue position plus the buffer size. -/
theorem RingInv.seq_lt_add (h : RingInv s r) (x : Fin (2 ^ k)) :
    r.seq x < s.queue.enqueuePos.toNat + 2 ^ k := by
  have hsize : 0 < 2 ^ k := Nat.two_pow_pos k
  have hcur := h.cur_lt x
  unfold Ring.seq
  cases hx : r.full x with
  | false => simpa using hcur
  | true =>
    have := h.full_lt x hx
    simp only [Bool.toNat_true]
    omega

/-- A negative signed distance of `enqueue` or `dequeue` is what it seems to be. -/
theorem RingInv.seq_lt_of_slt (h : RingInv s r) (hkw : k < w) (hbelow : SequencesBelow s)
    {x : Fin (2 ^ k)} {pos : BitVec w}
    (hslt : ((s.queue.buffer x).sequence - pos).slt 0#w = true) :
    (s.queue.buffer x).sequence.toNat < pos.toNat := by
  refine toNat_lt_of_slt ?_ hslt
  rw [h.toNat_sequence hkw hbelow.positionsBelow]
  exact lt_of_lt_of_le (h.seq_lt_add x) hbelow.1

/-! ## Sequence numbers only grow -/

/-- `enqueue` stores a greater sequence number than the one it replaces. -/
theorem RingInv.enqStep_sequence_mono (h : RingInv s r) (hkw : k < w) (hpos : PositionsBelow s)
    {i : ι} {data : T} {pc : EnqPc w} {spurious : Bool} (hcall : s.calls i = .enqueue data pc)
    (x : Fin (2 ^ k)) : (s.queue.buffer x).sequence.toNat ≤
      ((NomadTasks.enqStep s.queue data spurious pc).1.buffer x).sequence.toNat := by
  have hown := h.calls i
  rw [hcall] at hown
  cases pc with
  | loadSeq pos =>
    simp only [NomadTasks.enqStep]
    split
    · exact le_rfl
    · split <;> exact le_rfl
  | cas pos =>
    simp only [NomadTasks.enqStep]
    split <;> exact le_rfl
  | copy pos =>
    by_cases hx : x = cellIndex pos
    · subst hx
      simp [NomadTasks.enqStep]
    · simp [NomadTasks.enqStep, Function.update_of_ne hx]
  -- the owner of the cell raises its sequence number by one
  | store pos =>
    by_cases hx : x = cellIndex pos
    · subst hx
      have hw : 2 ^ (w - 1) < 2 ^ w := Nat.pow_lt_pow_right (by omega) (by omega)
      have hlt := hown.1
      have hsucc := @toNat_succ w pos (by have := hpos.1; omega)
      rw [h.toNat_sequence hkw hpos, cellIndex_eq_ringIndex hkw, Ring.seq, hown.2.1.1,
        hown.2.1.2]
      simp [NomadTasks.enqStep, cellIndex_eq_ringIndex hkw, hsucc]
    · simp [NomadTasks.enqStep, Function.update_of_ne hx]
  | loadPos | returned => exact le_rfl

/-- `dequeue` stores a greater sequence number than the one it replaces. -/
theorem RingInv.deqStep_sequence_mono (h : RingInv s r) (hkw : k < w) (hpos : PositionsBelow s)
    {i : ι} {pc : DeqPc w T} {spurious : Bool} (hcall : s.calls i = .dequeue pc)
    (x : Fin (2 ^ k)) : (s.queue.buffer x).sequence.toNat ≤
      ((NomadTasks.deqStep s.queue spurious pc).1.buffer x).sequence.toNat := by
  have hown := h.calls i
  rw [hcall] at hown
  cases pc with
  | loadSeq pos =>
    simp only [NomadTasks.deqStep]
    split
    · exact le_rfl
    · split <;> exact le_rfl
  | cas pos =>
    simp only [NomadTasks.deqStep]
    split <;> exact le_rfl
  -- the owner of the cell raises its sequence number to that of the next round
  | store pos data =>
    by_cases hx : x = cellIndex pos
    · subst hx
      have hsize : 2 ^ k ≤ 2 ^ (w - 1) := Nat.pow_le_pow_right (by omega) (by omega)
      have hhalf : 2 ^ w = 2 * 2 ^ (w - 1) := by rw [← pow_succ', Nat.sub_add_cancel (by omega)]
      have hlt : pos.toNat < s.queue.dequeuePos.toNat := hown.1
      have hmask : pos + bufferMask w k + 1#w = pos + BitVec.ofNat w (2 ^ k) := by
        rw [BitVec.add_assoc, bufferMask, BitVec.sub_add_cancel]
      have hadd : (pos + bufferMask w k + 1#w).toNat = pos.toNat + 2 ^ k := by
        rw [hmask, BitVec.toNat_add, BitVec.toNat_ofNat]
        have := hpos.2
        rw [Nat.mod_eq_of_lt (a := 2 ^ k) (by omega), Nat.mod_eq_of_lt (by omega)]
      have hpow : 1 ≤ 2 ^ k := Nat.one_le_two_pow
      rw [h.toNat_sequence hkw hpos, cellIndex_eq_ringIndex hkw, Ring.seq, hown.2.1.1,
        hown.2.1.2]
      simp [NomadTasks.deqStep, cellIndex_eq_ringIndex hkw, hadd, hpow]
    · simp [NomadTasks.deqStep, Function.update_of_ne hx]
  | loadPos | copy | returned => exact le_rfl

/-- No step lowers a sequence number. -/
theorem RingInv.sequence_mono [DecidableEq ι] (h : RingInv s r) (hkw : k < w)
    (hpos : PositionsBelow s) {a : QueueAction T ι} {s' : QueueState w k T ι}
    (hs : queueStep s a = some s') (x : Fin (2 ^ k)) :
    (s.queue.buffer x).sequence.toNat ≤ (s'.queue.buffer x).sequence.toNat := by
  cases a with
  | beginEnqueue i data | beginDequeue i =>
    simp only [queueStep] at hs
    split at hs <;> cases hs
    exact le_rfl
  | step i spurious =>
    simp only [queueStep] at hs
    split at hs <;> cases hs
    · next data pc _ hcall => exact h.enqStep_sequence_mono hkw hpos hcall x
    · next pc _ hcall => exact h.deqStep_sequence_mono hkw hpos hcall x

end RingInv

/-! ## What a failed call says -/

/-- The run has passed through a state with the property while the call was in progress. -/
def During (h : History (QueueState w k T ι) (QueueAction T ι)) (i : ι)
    (P : QueueState w k T ι → Prop) : Prop :=
  h.Once fun s => (s.calls i).inProgress = true ∧ P s

section Run

variable {s s' : QueueState w k T ι} {h : History (QueueState w k T ι) (QueueAction T ι)}
  {P Q : QueueState w k T ι → Prop} {i : ι} {a : QueueAction T ι}

theorem During.cons (hP : During h i P) (s : QueueState w k T ι) (a : QueueAction T ι) :
    During ((s, a) :: h) i P := History.Once.cons hP s a

theorem During.now (hi : (s.calls i).inProgress = true) (hP : P s) :
    During ((s, a) :: h) i P := ⟨(s, a), List.mem_cons_self, hi, hP⟩

/-- The queue is full, or a `dequeue` has not finished with the cell that is needed next. -/
def FullOrReleasing (s : QueueState w k T ι) : Prop :=
  s.Full ∨ ∃ j p, (s.calls j).releasing = some p ∧ p + 2 ^ k = s.enqTickets.ncard

/-- Every element has been taken, or an `enqueue` has not finished with the one that is next. -/
def AllTakenOrPublishing (s : QueueState w k T ι) : Prop :=
  s.AllTaken ∨ ∃ j, (s.calls j).publishing = some s.deqTickets.ncard

/-- What the calls know of their past: where their position comes from, and why they failed. -/
def CallPast (h : History (QueueState w k T ι) (QueueAction T ι)) (i : ι) :
    QueueCall w T → Prop
  | .enqueue _ (.loadSeq pos) => During h i fun s => s.queue.enqueuePos = pos
  | .dequeue (.loadSeq pos) => During h i fun s => s.queue.dequeuePos = pos
  | .enqueue _ (.returned _ false) => During h i FullOrReleasing
  | .dequeue (.returned _ none) => During h i AllTakenOrPublishing
  | _ => True

theorem CallPast.cons {c : QueueCall w T} (hc : CallPast h i c) (s : QueueState w k T ι)
    (a : QueueAction T ι) : CallPast ((s, a) :: h) i c := by
  revert hc
  fun_cases CallPast h i c <;> intro hc
  · exact During.cons hc s a
  · exact During.cons hc s a
  · exact During.cons hc s a
  · exact During.cons hc s a
  · simp only [CallPast]

/-- The past of all calls, and the sequence numbers, which have grown since. -/
structure QueuePast (h : History (QueueState w k T ι) (QueueAction T ι))
    (s : QueueState w k T ι) : Prop where
  calls : ∀ i, CallPast h i (s.calls i)
  sequences : ∀ e ∈ h, ∀ x,
    (e.1.queue.buffer x).sequence.toNat ≤ (s.queue.buffer x).sequence.toNat

variable [Inhabited T] [DecidableEq ι]

/-- The runs in which no signed distance wraps around. -/
abbrev QueueRun (h : History (QueueState w k T ι) (QueueAction T ι)) (s : QueueState w k T ι) :
    Prop := (queueSystem w k T ι).Run (fun _ s _ => SequencesBelow s) h s

theorem QueueRun.ring (hk : 1 ≤ k) (hkw : k < w) (hr : QueueRun h s) : ∃ r, RingInv s r :=
  ringInv_of_run hk hkw (hr.mono fun _ _ _ hb => hb.positionsBelow)

/-- A sequence number was not greater earlier in the run. -/
theorem QueuePast.ring_before (hp : QueuePast h s) (hk : 1 ≤ k) (hkw : k < w) (hr : QueueRun h s)
    {e : QueueState w k T ι × QueueAction T ι} (he : e ∈ h) :
    ∃ r, RingInv e.1 r ∧ ∀ x, r.seq x ≤ (s.queue.buffer x).sequence.toNat := by
  obtain ⟨h₁, hr₁, hbelow⟩ := hr.met he
  obtain ⟨r, hring⟩ := QueueRun.ring hk hkw hr₁
  refine ⟨r, hring, fun x => ?_⟩
  rw [← hring.toNat_sequence hkw hbelow.positionsBelow]
  exact hp.sequences e he x

/-- An `enqueue` that gives up: when it loaded its position, its cell was not released. -/
theorem QueuePast.enqueue_fails (hp : QueuePast h s) (hk : 1 ≤ k) (hkw : k < w)
    (hr : QueueRun h s) (hbelow : SequencesBelow s) {data : T} {pos : BitVec w}
    (hcall : s.calls i = .enqueue data (.loadSeq pos))
    (hslt : ((s.queue.buffer (cellIndex pos)).sequence - pos).slt 0#w = true) :
    During h i FullOrReleasing := by
  obtain ⟨r, hring⟩ := hr.ring hk hkw
  have hlt := hring.seq_lt_of_slt hkw hbelow hslt
  have hload := hp.calls i
  rw [hcall] at hload
  obtain ⟨e, he, hi, rfl⟩ := hload
  obtain ⟨r₁, hring₁, hle⟩ := hp.ring_before hk hkw hr he
  rw [cellIndex_eq_ringIndex hkw] at hlt
  exact ⟨e, he, hi, hring₁.reason_full (lt_of_le_of_lt (hle _) hlt)⟩

/-- A `dequeue` that gives up: when it loaded its position, its cell was not published. -/
theorem QueuePast.dequeue_fails (hp : QueuePast h s) (hk : 1 ≤ k) (hkw : k < w)
    (hr : QueueRun h s) (hbelow : SequencesBelow s) {pos : BitVec w}
    (hcall : s.calls i = .dequeue (.loadSeq pos))
    (hslt : ((s.queue.buffer (cellIndex pos)).sequence - (pos + 1#w)).slt 0#w = true) :
    During h i AllTakenOrPublishing := by
  obtain ⟨r, hring⟩ := hr.ring hk hkw
  have hlt := hring.seq_lt_of_slt hkw hbelow hslt
  have hown := hring.calls i
  rw [hcall] at hown
  have hw : 2 ^ (w - 1) < 2 ^ w := Nat.pow_lt_pow_right (by omega) (by omega)
  have hpos := hbelow.positionsBelow.2
  rw [toNat_succ (lt_of_le_of_lt (Nat.succ_le_succ hown) (by omega))] at hlt
  have hload := hp.calls i
  rw [hcall] at hload
  obtain ⟨e, he, hi, rfl⟩ := hload
  obtain ⟨r₁, hring₁, hle⟩ := hp.ring_before hk hkw hr he
  rw [cellIndex_eq_ringIndex hkw] at hlt
  exact ⟨e, he, hi, hring₁.reason_empty ((hle _).trans (Nat.lt_succ_iff.mp hlt))⟩

/-- What a call that steps knows of its past afterwards. -/
theorem QueuePast.call_step (hp : QueuePast h s) (hk : 1 ≤ k) (hkw : k < w) (hr : QueueRun h s)
    (hbelow : SequencesBelow s) (hs : queueStep s a = some s') (j : ι) :
    CallPast ((s, a) :: h) j (s'.calls j) := by
  -- a call that does not step keeps its past
  have hother : ∀ {i : ι} {c : QueueCall w T}, CallPast ((s, a) :: h) i c →
      CallPast ((s, a) :: h) j (Function.update s.calls i c j) := by
    intro i c hc
    by_cases hj : j = i
    · subst hj
      rwa [Function.update_self]
    · rw [Function.update_of_ne hj]
      exact (hp.calls j).cons s a
  cases a with
  | beginEnqueue i data | beginDequeue i =>
    simp only [queueStep] at hs
    split at hs <;> cases hs
    exact hother trivial
  | step i spurious =>
    simp only [queueStep] at hs
    split at hs <;> cases hs
    · next data pc hpc hcall =>
      refine hother ?_
      have hin : (s.calls i).inProgress = true := by
        rw [hcall]
        cases pc with
        | returned pos result => exact absurd rfl (hpc pos result)
        | _ => rfl
      cases pc with
      | loadPos => exact During.now hin rfl
      -- the call fails here: the reason was there when it loaded its position
      | loadSeq pos =>
        simp only [enqStep]
        split
        · exact trivial
        · split
          · next hslt => exact (hp.enqueue_fails hk hkw hr hbelow hcall hslt).cons _ _
          · exact trivial
      | cas pos =>
        simp only [enqStep]
        split
        · exact trivial
        · exact During.now hin rfl
      | copy pos | store pos => exact trivial
      | returned pos result => exact absurd rfl (hpc pos result)
    · next pc hpc hcall =>
      refine hother ?_
      have hin : (s.calls i).inProgress = true := by
        rw [hcall]
        cases pc with
        | returned pos result => exact absurd rfl (hpc pos result)
        | _ => rfl
      cases pc with
      | loadPos => exact During.now hin rfl
      | loadSeq pos =>
        simp only [deqStep]
        split
        · exact trivial
        · split
          · next hslt => exact (hp.dequeue_fails hk hkw hr hbelow hcall hslt).cons _ _
          · exact trivial
      | cas pos =>
        simp only [deqStep]
        split
        · exact trivial
        · exact During.now hin rfl
      | copy pos | store pos => exact trivial
      | returned pos result => exact absurd rfl (hpc pos result)

/-- Every run in which no signed distance wraps around has the past that its calls infer. -/
theorem queuePast_of_run (hk : 1 ≤ k) (hkw : k < w) (hr : QueueRun h s) : QueuePast h s := by
  refine hr.invariant (P := QueuePast) ?_ ?_
  · intro s hs
    obtain rfl := hs
    exact ⟨fun i => trivial, by simp⟩
  · intro h s a s' hr hp hbelow hs
    obtain ⟨r, hring⟩ := QueueRun.ring hk hkw hr
    refine ⟨hp.call_step hk hkw hr hbelow hs, fun e he x => ?_⟩
    have hmono := hring.sequence_mono hkw hbelow.positionsBelow hs x
    rcases List.mem_cons.mp he with rfl | he
    · exact hmono
    · exact (hp.sequences e he x).trans hmono

/-- A failed call on the queue, in every run in which no signed distance wraps around. If `enqueue`
returns `false`, then at some instant during the call the queue held `buffer_size` elements that no
`dequeue` had taken, or the `dequeue` of the ticket `buffer_size` before the next one was between
its exchange and its sequence store. If `dequeue` returns `false`, then at some instant during the
call every element whose `enqueue` had returned `true` had been taken, or the `enqueue` of the
ticket that is dequeued next was between its exchange and its sequence store. -/
theorem queue_failure_reason (hk : 1 ≤ k) (hkw : k < w)
    (hr : (queueSystem w k T ι).Run (fun _ s _ => SequencesBelow s) h s) :
    (∀ i data pos, s.calls i = .enqueue data (.returned pos false) →
      During h i fun s => s.Full ∨
        ∃ j p, (s.calls j).releasing = some p ∧ p + 2 ^ k = s.enqTickets.ncard) ∧
    (∀ i pos, s.calls i = .dequeue (.returned pos none) →
      During h i fun s => s.AllTaken ∨ ∃ j, (s.calls j).publishing = some s.deqTickets.ncard) := by
  have hp := queuePast_of_run hk hkw hr
  refine ⟨fun i data pos hi => ?_, fun i pos hi => ?_⟩
  · have hpast := hp.calls i
    rwa [hi] at hpast
  · have hpast := hp.calls i
    rwa [hi] at hpast

end Run

/-- `n` steps of call `i` whose exchanges do not fail spuriously. -/
def callSteps (i n : ℕ) : List (QueueAction Bool ℕ) := List.replicate n (.step i false)

/-- Two elements go in; the `dequeue` of the first stops after its exchange, that of the second
completes; an `enqueue` follows. -/
def stalledDequeue : List (QueueAction Bool ℕ) :=
  .beginEnqueue 0 true :: callSteps 0 5 ++ .beginEnqueue 1 true :: callSteps 1 5 ++
    .beginDequeue 2 :: callSteps 2 3 ++ .beginDequeue 3 :: callSteps 3 5 ++
    .beginEnqueue 4 true :: callSteps 4 2

/-- The first `enqueue` stops after its exchange, the second completes; a `dequeue` follows. -/
def stalledEnqueue : List (QueueAction Bool ℕ) :=
  .beginEnqueue 0 true :: callSteps 0 3 ++ .beginEnqueue 1 true :: callSteps 1 5 ++
    .beginDequeue 2 :: callSteps 2 2

/-- An `enqueue` stops after it has loaded its position, while another element goes in and out. -/
def staleEnqueue : List (QueueAction Bool ℕ) :=
  .beginEnqueue 0 true :: callSteps 0 1 ++ .beginEnqueue 1 true :: callSteps 1 5 ++
    .beginDequeue 2 :: callSteps 2 5 ++ callSteps 0 1

/-- The reason that the theorem gives in the run with the stopped `dequeue`. -/
theorem queue_failure_reason_stalled :
    ∃ (h : History (QueueState 64 1 Bool ℕ) (QueueAction Bool ℕ)) (s : QueueState 64 1 Bool ℕ),
      (queueSystem 64 1 Bool ℕ).Run (fun _ s _ => SequencesBelow s) h s ∧
        s.calls 4 = .enqueue true (.returned 2 false) ∧
        During h 4 fun s => s.Full ∨
          ∃ j p, (s.calls j).releasing = some p ∧ p + 2 ^ 1 = s.enqTickets.ncard := by
  have hrun : ∃ (h : History (QueueState 64 1 Bool ℕ) (QueueAction Bool ℕ))
      (s : QueueState 64 1 Bool ℕ),
      (queueSystem 64 1 Bool ℕ).Run (fun _ s _ => SequencesBelow s) h s ∧
        s.calls 4 = .enqueue true (.returned 2 false) :=
    System.exists_run_of_trace rfl stalledDequeue (by decide +kernel)
  obtain ⟨h, s, hr, hcall⟩ := hrun
  exact ⟨h, s, hr, hcall, (queue_failure_reason (by decide) (by decide) hr).1 4 true 2 hcall⟩

/-- A failed call can be wrong about the queue. With two cells, `enqueue` returns `false` although
the queue is never full during the call, and `dequeue` although an element whose `enqueue` has
returned is there all the time. With `2 ^ 63` cells, a signed distance wraps around, and `enqueue`
returns `false` on an empty queue that no other call is using. -/
theorem queue_failure_misleading :
    (∃ (h : History (QueueState 64 1 Bool ℕ) (QueueAction Bool ℕ)) (s : QueueState 64 1 Bool ℕ),
      (queueSystem 64 1 Bool ℕ).Run (fun _ s _ => SequencesBelow s) h s ∧
        s.calls 4 = .enqueue true (.returned 2 false) ∧ ¬ During h 4 QueueState.Full) ∧
    (∃ (h : History (QueueState 64 1 Bool ℕ) (QueueAction Bool ℕ)) (s : QueueState 64 1 Bool ℕ),
      (queueSystem 64 1 Bool ℕ).Run (fun _ s _ => SequencesBelow s) h s ∧
        s.calls 2 = .dequeue (.returned 0 none) ∧ ¬ During h 2 QueueState.AllTaken) ∧
    ∃ (h : History (QueueState 64 63 Bool ℕ) (QueueAction Bool ℕ)) (s : QueueState 64 63 Bool ℕ),
      (queueSystem 64 63 Bool ℕ).Run (fun _ s _ => PositionsBelow s) h s ∧
        s.calls 0 = .enqueue true (.returned 0 false) ∧ ¬ During h 0 FullOrReleasing := by
  refine ⟨?_, ?_, ?_⟩
  · have hrun : ∃ (h : History (QueueState 64 1 Bool ℕ) (QueueAction Bool ℕ))
        (s : QueueState 64 1 Bool ℕ),
        (queueSystem 64 1 Bool ℕ).Run (fun _ s _ => SequencesBelow s) h s ∧
          s.calls 4 = .enqueue true (.returned 2 false) ∧
          ∀ e ∈ h, (e.1.calls 4).inProgress = true →
            e.1.queue.enqueuePos.toNat ≠ e.1.queue.dequeuePos.toNat + 2 ^ 1 :=
      System.exists_run_of_trace rfl stalledDequeue (by decide +kernel)
    obtain ⟨h, s, hr, hcall, hne⟩ := hrun
    refine ⟨h, s, hr, hcall, ?_⟩
    -- during the call the two positions were never a round apart
    rintro ⟨e, he, hi, hfull⟩
    obtain ⟨h₁, hr₁, -⟩ := hr.met he
    obtain ⟨r, hring⟩ := QueueRun.ring (by decide) (by decide) hr₁
    exact hne e he hi (hring.full_iff.mp hfull)
  · have hrun : ∃ (h : History (QueueState 64 1 Bool ℕ) (QueueAction Bool ℕ))
        (s : QueueState 64 1 Bool ℕ),
        (queueSystem 64 1 Bool ℕ).Run (fun _ s _ => SequencesBelow s) h s ∧
          s.calls 2 = .dequeue (.returned 0 none) ∧
          ∀ e ∈ h, (e.1.calls 2).inProgress = true →
            e.1.calls 1 = .enqueue true (.returned 1 true) ∧ e.1.queue.dequeuePos.toNat = 0 :=
      System.exists_run_of_trace rfl stalledEnqueue (by decide +kernel)
    obtain ⟨h, s, hr, hcall, hne⟩ := hrun
    refine ⟨h, s, hr, hcall, ?_⟩
    -- the element of call 1 is there all the time
    rintro ⟨e, he, hi, htaken⟩
    obtain ⟨hret, hzero⟩ := hne e he hi
    obtain ⟨h₁, hr₁, -⟩ := hr.met he
    obtain ⟨r, hring⟩ := QueueRun.ring (by decide) (by decide) hr₁
    have hlt := hring.mem_deqTickets.mp (htaken 1 1 true hret)
    omega
  · have hrun : ∃ (h : History (QueueState 64 63 Bool ℕ) (QueueAction Bool ℕ))
        (s : QueueState 64 63 Bool ℕ),
        (queueSystem 64 63 Bool ℕ).Run (fun _ s _ => PositionsBelow s) h s ∧
          s.calls 0 = .enqueue true (.returned 0 false) ∧
          ∀ e ∈ h, e.1.queue.enqueuePos.toNat < 2 ^ 63 :=
      System.exists_run_of_trace rfl staleEnqueue (by decide +kernel)
    obtain ⟨h, s, hr, hcall, hne⟩ := hrun
    refine ⟨h, s, hr, hcall, ?_⟩
    -- the queue of 2^63 cells has not been filled once
    rintro ⟨e, he, -, hreason⟩
    have hlt := hne e he
    obtain ⟨h₁, hr₁, -⟩ := hr.met he
    obtain ⟨r, hring⟩ := ringInv_of_run (by decide) (by decide) hr₁
    rcases hreason with hfull | ⟨j, p, -, hp⟩
    · have := hring.full_iff.mp hfull
      omega
    · rw [hring.ncard_enqTickets] at hp
      omega

end NomadTasks
