import NomadTasks.MpmcQueue.RingInvariant

/-!
# `mpmc_queue` is safe for any number of producers and consumers

The consequences of the ring invariant: tickets are unique, a cell is used by one call at a time,
a `dequeue` returns the element that was published under its ticket, no element is lost, and the
tickets of successive enqueues increase.
-/

namespace NomadTasks

open Transition Ticket

variable {w k : ℕ} {T ι : Type} [DecidableEq ι]

section RingInv

variable {s : QueueState w k T ι} {r : Ring k}

omit [DecidableEq ι] in
/-- Two calls that are between their exchange and their sequence store use different cells. -/
theorem RingInv.busyCell_unique (h : RingInv s r) (hkw : k < w) {i j : ι} {x : Fin (2 ^ k)}
    (hi : (s.calls i).busyCell = some x) (hj : (s.calls j).busyCell = some x) : i = j := by
  -- a busy enqueue has its cell free under its own ticket, a busy dequeue has it full
  have henq : ∀ i, (s.calls i).busyCell = some x →
      (r.full x = false ∧ (s.calls i).enqTicket = some (r.cur x)) ∨
        (r.full x = true ∧ (s.calls i).deqTicket = some (r.cur x)) := by
    intro i hi
    have hok := h.calls i
    revert hi hok
    rcases s.calls i with _ | ⟨data, pc⟩ | pc
    · simp [QueueCall.busyCell]
    all_goals
      cases pc <;> simp only [QueueCall.busyCell, reduceCtorEq, false_implies,
        cellIndex_eq_ringIndex hkw, Option.some.injEq] <;> rintro rfl hok
    · exact .inl ⟨hok.2.2, congrArg some hok.2.1.symm⟩
    · exact .inl ⟨hok.2.1.2, congrArg some hok.2.1.1.symm⟩
    · exact .inr ⟨hok.2.2, congrArg some hok.2.1.symm⟩
    · exact .inr ⟨hok.2.1.2, congrArg some hok.2.1.1.symm⟩
  rcases henq i hi with ⟨hf, ht⟩ | ⟨hf, ht⟩ <;> rcases henq j hj with ⟨hf', ht'⟩ | ⟨hf', ht'⟩
  · exact h.enqTickets.unique i j _ ht ht'
  · simp [hf] at hf'
  · simp [hf] at hf'
  · exact h.deqTickets.unique i j _ ht ht'

omit [DecidableEq ι] in
/-- A `dequeue` that is about to copy reads an element whose enqueue has completed. -/
theorem RingInv.published_of_copy (h : RingInv s r) (hkw : k < w) {j : ι} {pos : BitVec w}
    (hj : s.calls j = .dequeue (.copy pos)) :
    Published s.calls pos (s.queue.buffer (cellIndex pos)).data := by
  have hok := h.calls j
  rw [hj] at hok
  have hpub := h.published _ hok.2.2
  rwa [hok.2.1, BitVec.ofNat_toNat, BitVec.setWidth_eq, ← cellIndex_eq_ringIndex hkw] at hpub

omit [DecidableEq ι] in
/-- A completed enqueue's element has been won by exactly one `dequeue`, or is still stored under
its ticket. -/
theorem RingInv.not_lost (h : RingInv s r) (hkw : k < w) {i : ι} {pos : BitVec w} {data : T}
    (hi : s.calls i = .enqueue data (.returned pos true)) :
    (pos.toNat < s.queue.dequeuePos.toNat ∧ ∃! j, (s.calls j).deqTicket = some pos.toNat) ∨
      (s.queue.dequeuePos.toNat ≤ pos.toNat ∧
        s.queue.buffer (cellIndex pos) = { sequence := pos + 1#w, data := data }) := by
  rcases Nat.lt_or_ge pos.toNat s.queue.dequeuePos.toNat with hlt | hge
  · exact .inl ⟨hlt, h.deqTickets.existsUnique hlt⟩
  · refine .inr ⟨hge, ?_⟩
    have hok := h.calls i
    rw [hi] at hok
    rcases hok.2 with hpassed | ⟨hfull, hdata⟩
    · exact absurd (h.passed_lt _ hpassed) (not_lt.mpr hge)
    · have hseq := h.seq (ringIndex k pos.toNat)
      rw [Ring.seq, hfull.1, hfull.2, Bool.toNat_true, BitVec.ofNat_add, BitVec.ofNat_toNat,
        BitVec.setWidth_eq] at hseq
      rw [cellIndex_eq_ringIndex hkw, ← hdata, ← hseq]

end RingInv

/-! ## Tickets grow with time -/

/-- A `dequeue` step leaves the enqueue position alone. -/
private theorem deqStep_enqueuePos (q : MpmcQueue w k T) (spurious : Bool) (pc : DeqPc w T) :
    (deqStep q spurious pc).1.enqueuePos = q.enqueuePos := by
  cases pc with
  | loadSeq pos =>
    simp only [deqStep]
    split
    · rfl
    · split <;> rfl
  | cas pos =>
    simp only [deqStep]
    split <;> rfl
  | _ => rfl

/-- What a step can do to the enqueue tickets: none changes, except that the call that steps may
draw the one at the enqueue position. -/
theorem queueStep_enqTicket {s s' : QueueState w k T ι} {a : QueueAction T ι}
    (hpos : s.queue.enqueuePos.toNat + 1 < 2 ^ w) (hs : queueStep s a = some s') :
    s.queue.enqueuePos.toNat ≤ s'.queue.enqueuePos.toNat ∧
      ∀ j, (s'.calls j).enqTicket = (s.calls j).enqTicket ∨
        (s'.calls j).enqTicket = some s.queue.enqueuePos.toNat := by
  have hcalls : ∀ {i : ι} {c : QueueCall w T}, (c.enqTicket = (s.calls i).enqTicket ∨
      c.enqTicket = some s.queue.enqueuePos.toNat) → ∀ j,
      (Function.update s.calls i c j).enqTicket = (s.calls j).enqTicket ∨
        (Function.update s.calls i c j).enqTicket = some s.queue.enqueuePos.toNat := by
    intro i c hc j
    by_cases hj : j = i
    · subst hj
      rwa [Function.update_self]
    · rw [Function.update_of_ne hj]
      exact .inl rfl
  cases a with
  | beginEnqueue i data =>
    simp only [queueStep] at hs
    split at hs <;> cases hs
    next hcall => exact ⟨le_rfl, hcalls (.inl (by rw [hcall]; rfl))⟩
  | beginDequeue i =>
    simp only [queueStep] at hs
    split at hs <;> cases hs
    next hcall => exact ⟨le_rfl, hcalls (.inl (by rw [hcall]; rfl))⟩
  | step i spurious =>
    simp only [queueStep] at hs
    split at hs <;> cases hs
    · next data pc _ hcall =>
      cases pc with
      | loadPos => exact ⟨le_rfl, hcalls (.inl (by rw [hcall]; rfl))⟩
      | loadSeq pos =>
        simp only [enqStep]
        split
        · exact ⟨le_rfl, hcalls (.inl (by rw [hcall]; rfl))⟩
        · split <;> exact ⟨le_rfl, hcalls (.inl (by rw [hcall]; rfl))⟩
      | cas pos =>
        simp only [enqStep]
        split
        · next hwin =>
          obtain ⟨rfl, -⟩ := hwin
          refine ⟨?_, hcalls (.inr rfl)⟩
          simp [QueueState.setCall, toNat_succ hpos]
        · exact ⟨le_rfl, hcalls (.inl (by rw [hcall]; rfl))⟩
      | copy pos => exact ⟨le_rfl, hcalls (.inl (by rw [hcall]; rfl))⟩
      | store pos => exact ⟨le_rfl, hcalls (.inl (by rw [hcall]; rfl))⟩
      | returned pos result => simp_all
    · next pc _ hcall =>
      refine ⟨?_, hcalls (.inl (by rw [hcall]; rfl))⟩
      simp [QueueState.setCall, deqStep_enqueuePos]

/-- A ticket won after a state is at least that state's enqueue position. -/
theorem enqTicket_ge_of_notStarted [Inhabited T] (hkw : k < w)
    {h : History (QueueState w k T ι) (QueueAction T ι)} {s : QueueState w k T ι}
    (hr : (queueSystem w k T ι).Run (fun _ s _ => PositionsBelow s) h s) :
    ∀ e ∈ h, e.1.queue.enqueuePos.toNat ≤ s.queue.enqueuePos.toNat ∧
      ∀ j p, e.1.calls j = .notStarted → (s.calls j).enqTicket = some p →
        e.1.queue.enqueuePos.toNat ≤ p := by
  refine hr.invariant (P := fun h s => ∀ e ∈ h,
    e.1.queue.enqueuePos.toNat ≤ s.queue.enqueuePos.toNat ∧ ∀ j p, e.1.calls j = .notStarted →
      (s.calls j).enqTicket = some p → e.1.queue.enqueuePos.toNat ≤ p) (by simp) ?_
  intro h s a s' _ ih hpos hs e he
  have hw : 2 ^ (w - 1) < 2 ^ w := Nat.pow_lt_pow_right (by omega) (by omega)
  have hlt : s.queue.enqueuePos.toNat + 1 < 2 ^ w := Nat.lt_of_le_of_lt hpos.1 hw
  obtain ⟨hmono, htick⟩ := queueStep_enqTicket hlt hs
  rcases List.mem_cons.mp he with rfl | hold
  · refine ⟨hmono, fun j p hj hp => ?_⟩
    rcases htick j with hsame | hwon
    · rw [hsame, hj] at hp
      cases hp
    · rw [hwon, Option.some.injEq] at hp
      exact hp.le
  · obtain ⟨hle, hge⟩ := ih e hold
    refine ⟨hle.trans hmono, fun j p hj hp => ?_⟩
    rcases htick j with hsame | hwon
    · exact hge j p hj (hsame ▸ hp)
    · rw [hwon, Option.some.injEq] at hp
      exact hle.trans hp.le

/-- Safety of `mpmc_queue` in every run whose steps are taken with both positions below half the
range: each ticket is won by at most one enqueue and at most one dequeue; no two calls are between
their exchange and their sequence store on one cell; what a dequeue reads, and returns, under a
ticket is what an enqueue that had completed under that ticket put in; a completed enqueue's
element is taken by exactly one dequeue or still stored; and an enqueue that returned before
another began has the smaller ticket. -/
theorem mpmcQueue_safe [Inhabited T] (hk : 1 ≤ k) (hkw : k < w)
    {h : History (QueueState w k T ι) (QueueAction T ι)} {s : QueueState w k T ι}
    (hr : (queueSystem w k T ι).Run (fun _ s _ => PositionsBelow s) h s) :
    (∀ i j p, (s.calls i).enqTicket = some p → (s.calls j).enqTicket = some p → i = j) ∧
    (∀ i j p, (s.calls i).deqTicket = some p → (s.calls j).deqTicket = some p → i = j) ∧
    (∀ i j (x : Fin (2 ^ k)), (s.calls i).busyCell = some x → (s.calls j).busyCell = some x →
      i = j) ∧
    (∀ j pos, s.calls j = .dequeue (.copy pos) →
      Published s.calls pos (s.queue.buffer (cellIndex pos)).data) ∧
    (∀ j pos data, (s.calls j = .dequeue (.store pos data) ∨
      s.calls j = .dequeue (.returned pos (some data))) → Published s.calls pos data) ∧
    (∀ i pos data, s.calls i = .enqueue data (.returned pos true) →
      (pos.toNat < s.queue.dequeuePos.toNat ∧ ∃! j, (s.calls j).deqTicket = some pos.toNat) ∨
        (s.queue.dequeuePos.toNat ≤ pos.toNat ∧
          s.queue.buffer (cellIndex pos) = { sequence := pos + 1#w, data := data })) ∧
    (∀ e ∈ h, ∀ i j pos data q, e.1.calls i = .enqueue data (.returned pos true) →
      e.1.calls j = .notStarted → (s.calls j).enqTicket = some q → pos.toNat < q) := by
  obtain ⟨r, hinv⟩ := ringInv_of_run hk hkw hr
  refine ⟨hinv.enqTickets.unique, hinv.deqTickets.unique, fun i j x => hinv.busyCell_unique hkw,
    fun j pos => hinv.published_of_copy hkw, hinv.received, fun i pos data => hinv.not_lost hkw,
    fun e he i j pos data q hi hj hq => ?_⟩
  have hge := (enqTicket_ge_of_notStarted hkw hr e he).2 j q hj hq
  obtain ⟨h₁, hr₁⟩ := hr.before he
  obtain ⟨r₁, hinv₁⟩ := ringInv_of_run hk hkw hr₁
  have hlt := hinv₁.enqTickets.lt i pos.toNat (by rw [hi]; rfl)
  exact Nat.lt_of_lt_of_le hlt hge

/-- Two overlapping enqueues, of which the first to load its position is the second to exchange
it, and a `dequeue` that starts before either is done. -/
def overlappingCalls : List (QueueAction Bool ℕ) :=
  [.beginEnqueue 0 true, .step 0 false, .step 0 false, .beginEnqueue 1 false, .step 1 false,
    .step 1 false, .step 1 false, .step 0 false, .step 0 false, .step 0 false, .step 0 false,
    .beginDequeue 2, .step 1 false, .step 1 false, .step 2 false, .step 2 false, .step 2 true,
    .step 2 false, .step 2 false, .step 2 false, .step 2 false]

/-- The `dequeue` returns what the second enqueue put in under the ticket it won. -/
theorem mpmcQueue_safe_overlapping :
    ∃ (h : History (QueueState 3 1 Bool ℕ) (QueueAction Bool ℕ)) (s : QueueState 3 1 Bool ℕ),
      (queueSystem 3 1 Bool ℕ).Run (fun _ s _ => PositionsBelow s) h s ∧
        s.calls 2 = .dequeue (.returned 0 (some false)) ∧ Published s.calls 0 false ∧
        ∀ j, (s.calls j).deqTicket = some 0 → j = 2 := by
  have hrun : ∃ (h : History (QueueState 3 1 Bool ℕ) (QueueAction Bool ℕ))
      (s : QueueState 3 1 Bool ℕ),
      (queueSystem 3 1 Bool ℕ).Run (fun _ s _ => PositionsBelow s) h s ∧
        s.calls 2 = .dequeue (.returned 0 (some false)) :=
    System.exists_run_of_trace rfl overlappingCalls (by decide)
  obtain ⟨h, s, hr, hcall⟩ := hrun
  obtain ⟨-, hdeq, -, -, hpub, -⟩ := mpmcQueue_safe (by decide) (by decide) hr
  exact ⟨h, s, hr, hcall, hpub 2 0 false (.inr hcall),
    fun j hj => hdeq j 2 0 hj (by rw [hcall]; rfl)⟩

end NomadTasks
