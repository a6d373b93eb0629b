import NomadTasks.MpmcQueue.Concurrent

/-!
# The ring invariant is preserved

One lemma for each effect a step can have on the queue: winning a ticket (`enqWin`, `deqWin`),
copying an element in (`enqCopy`), publishing it (`enqStore`) and handing the cell on
(`deqStore`); every other step only moves its own call (`move`). `RingInv.step` puts them together,
and `ringInv_of_run` is the invariant of every run whose positions stay below half the range.
-/

namespace NomadTasks

open Transition Ticket

variable {w k : ℕ} {T ι : Type}

/-! ## What a step of one call leaves of the others' knowledge -/

/-- Progress of the others keeps what a call knows: tickets are only won, elements only taken out,
and a cell changes hands or contents only under a ticket that the call does not hold. -/
theorem CallOk.frame {r r' : Ring k} {b b' : Fin (2 ^ k) → Cell w T} {e d e' d' : ℕ}
    {c : QueueCall w T} (h : CallOk r b e d c) (he : e ≤ e') (hd : d ≤ d')
    (hfree : ∀ p, r.FreeFor p →
      (r'.FreeFor p ∧ (b' (ringIndex k p)).data = (b (ringIndex k p)).data) ∨
        (p < e ∧ c.enqTicket ≠ some p))
    (hfull : ∀ p, r.FullWith p →
      (r'.FullWith p ∧ (b' (ringIndex k p)).data = (b (ringIndex k p)).data) ∨
        (p < d ∧ r'.Passed p ∧ c.deqTicket ≠ some p))
    (hpassed : ∀ p, r.Passed p → r'.Passed p) : CallOk r' b' e' d' c := by
  -- by where the call is: what it has read of its cell still holds, or its turn has passed
  cases c with
  | notStarted => trivial
  | enqueue data pc =>
    cases pc with
    | loadPos => trivial
    | loadSeq pos => exact Nat.le_trans h he
    | cas pos =>
      refine ⟨Nat.le_trans h.1 he, ?_⟩
      rcases h.2 with hlt | hf
      · exact .inl (Nat.lt_of_lt_of_le hlt he)
      · rcases hfree _ hf with ⟨hf', _⟩ | ⟨hlt, _⟩
        · exact .inr hf'
        · exact .inl (Nat.lt_of_lt_of_le hlt he)
    | copy pos =>
      rcases hfree _ h.2 with ⟨hf', _⟩ | ⟨_, hne⟩
      · exact ⟨Nat.lt_of_lt_of_le h.1 he, hf'⟩
      · exact absurd rfl hne
    | store pos =>
      rcases hfree _ h.2.1 with ⟨hf', hdata⟩ | ⟨_, hne⟩
      · exact ⟨Nat.lt_of_lt_of_le h.1 he, hf', hdata.trans h.2.2⟩
      · exact absurd rfl hne
    | returned pos result =>
      cases result with
      | false => trivial
      | true =>
        refine ⟨Nat.lt_of_lt_of_le h.1 he, ?_⟩
        rcases h.2 with hp | ⟨hf, hdata⟩
        · exact .inl (hpassed _ hp)
        · rcases hfull _ hf with ⟨hf', hdata'⟩ | ⟨_, hp, _⟩
          · exact .inr ⟨hf', hdata'.trans hdata⟩
          · exact .inl hp
  | dequeue pc =>
    cases pc with
    | loadPos => trivial
    | loadSeq pos => exact Nat.le_trans h hd
    | cas pos =>
      refine ⟨Nat.le_trans h.1 hd, ?_⟩
      rcases h.2 with hlt | hf
      · exact .inl (Nat.lt_of_lt_of_le hlt hd)
      · rcases hfull _ hf with ⟨hf', _⟩ | ⟨hlt, _⟩
        · exact .inr hf'
        · exact .inl (Nat.lt_of_lt_of_le hlt hd)
    | copy pos =>
      rcases hfull _ h.2 with ⟨hf', _⟩ | ⟨_, _, hne⟩
      · exact ⟨Nat.lt_of_lt_of_le h.1 hd, hf'⟩
      · exact absurd rfl hne
    | store pos data =>
      rcases hfull _ h.2.1 with ⟨hf', hdata⟩ | ⟨_, _, hne⟩
      · exact ⟨Nat.lt_of_lt_of_le h.1 hd, hf', hdata.trans h.2.2⟩
      · exact absurd rfl hne
    | returned pos result =>
      cases result with
      | none => trivial
      | some data => exact ⟨Nat.lt_of_lt_of_le h.1 hd, hpassed _ h.2⟩

/-- Winning tickets alone keeps what a call knows. -/
theorem CallOk.mono {r : Ring k} {b : Fin (2 ^ k) → Cell w T} {e d e' d' : ℕ} {c : QueueCall w T}
    (h : CallOk r b e d c) (he : e ≤ e') (hd : d ≤ d') : CallOk r b e' d' c :=
  h.frame he hd (fun _ hf => .inl ⟨hf, rfl⟩) (fun _ hf => .inl ⟨hf, rfl⟩) fun _ hp => hp

section Step

variable [DecidableEq ι]

/-- The calls after call `i` has become `c`. -/
theorem Published.update {calls : ι → QueueCall w T} {pos : BitVec w} {data : T} {i : ι}
    (h : Published calls pos data) (hi : ∀ v p, calls i ≠ .enqueue v (.returned p true))
    (c : QueueCall w T) : Published (Function.update calls i c) pos data := by
  obtain ⟨j, hj⟩ := h
  have hne : j ≠ i := fun hji => hi _ _ (hji ▸ hj)
  exact ⟨j, by rwa [Function.update_of_ne hne]⟩

/-- The tickets after one call has moved. -/
theorem enqTicket_update (calls : ι → QueueCall w T) (i : ι) (c : QueueCall w T) :
    (fun j => (Function.update calls i c j).enqTicket) =
      Function.update (fun j => (calls j).enqTicket) i c.enqTicket :=
  funext fun _ => Function.apply_update (fun _ => QueueCall.enqTicket) calls i c _

theorem deqTicket_update (calls : ι → QueueCall w T) (i : ι) (c : QueueCall w T) :
    (fun j => (Function.update calls i c j).deqTicket) =
      Function.update (fun j => (calls j).deqTicket) i c.deqTicket :=
  funext fun _ => Function.apply_update (fun _ => QueueCall.deqTicket) calls i c _

/-- A step that wins no ticket keeps the tickets. -/
theorem issued_enq_update {calls : ι → QueueCall w T} {n : ℕ}
    (h : Issued (fun i => (calls i).enqTicket) n) {i : ι} {c : QueueCall w T}
    (hc : c.enqTicket = (calls i).enqTicket) :
    Issued (fun j => (Function.update calls i c j).enqTicket) n := by
  rwa [enqTicket_update, hc, Function.update_eq_self]

theorem issued_deq_update {calls : ι → QueueCall w T} {n : ℕ}
    (h : Issued (fun i => (calls i).deqTicket) n) {i : ι} {c : QueueCall w T}
    (hc : c.deqTicket = (calls i).deqTicket) :
    Issued (fun j => (Function.update calls i c j).deqTicket) n := by
  rwa [deqTicket_update, hc, Function.update_eq_self]

variable {s : QueueState w k T ι} {r : Ring k} {i : ι}

/-- A call that steps without touching the queue or winning a ticket keeps the invariant, if it
knows what it must at its new program point. -/
theorem RingInv.move (h : RingInv s r) {c : QueueCall w T}
    (hret : ∀ v p, s.calls i ≠ .enqueue v (.returned p true))
    (henq : c.enqTicket = (s.calls i).enqTicket) (hdeq : c.deqTicket = (s.calls i).deqTicket)
    (hc : CallOk r s.queue.buffer s.queue.enqueuePos.toNat s.queue.dequeuePos.toNat c)
    (hrec : ∀ pos data,
      (c = .dequeue (.store pos data) ∨ c = .dequeue (.returned pos (some data))) →
        Published s.calls pos data) : RingInv (s.setCall i c) r where
  deq_le_enq := h.deq_le_enq
  enq_le := h.enq_le
  index := h.index
  cur_lt := h.cur_lt
  full_lt := h.full_lt
  passed_lt := h.passed_lt
  seq := h.seq
  enqTickets := issued_enq_update h.enqTickets henq
  deqTickets := issued_deq_update h.deqTickets hdeq
  -- the moved call by hypothesis, the others as before
  calls j := by
    by_cases hj : j = i
    · subst hj
      simpa [QueueState.setCall] using hc
    · simpa [QueueState.setCall, Function.update_of_ne hj] using h.calls j
  published x hx := (h.published x hx).update hret c
  received j pos data hj := by
    refine Published.update ?_ hret c
    by_cases hji : j = i
    · subst hji
      simp only [QueueState.setCall, Function.update_self] at hj
      exact hrec pos data hj
    · simp only [QueueState.setCall, Function.update_of_ne hji] at hj
      exact h.received j pos data hj

/-- `enqueue` wins the ticket at the enqueue position. -/
theorem RingInv.enqWin (h : RingInv s r) {data : T}
    (hcall : s.calls i = .enqueue data (.cas s.queue.enqueuePos))
    (hlt : s.queue.enqueuePos.toNat < 2 ^ (w - 1)) (hw : 2 ^ (w - 1) < 2 ^ w) :
    RingInv ({ s with queue := { s.queue with enqueuePos := s.queue.enqueuePos + 1#w } }.setCall i
      (.enqueue data (.copy s.queue.enqueuePos))) r := by
  have hpos := @toNat_succ w s.queue.enqueuePos (by omega)
  have hret : ∀ v p, s.calls i ≠ .enqueue v (.returned p true) := by simp [hcall]
  have hown := h.calls i
  rw [hcall] at hown
  have hfree : r.FreeFor s.queue.enqueuePos.toNat := hown.2.resolve_left (lt_irrefl _)
  have hnone : (s.calls i).enqTicket = none := by rw [hcall]; rfl
  -- the exchange draws the ticket `enqueuePos`, whose cell is free
  constructor <;> try simp only [QueueState.setCall, hpos]
  · exact Nat.le_succ_of_le h.deq_le_enq
  · exact hlt
  · exact h.index
  · exact fun x => Nat.lt_of_lt_of_le (h.cur_lt x) (by omega)
  · exact fun x hx => Nat.lt_succ_of_lt (h.full_lt x hx)
  · exact h.passed_lt
  · exact h.seq
  · rw [enqTicket_update]
    exact h.enqTickets.draw hnone
  · exact issued_deq_update h.deqTickets (by rw [hcall]; rfl)
  · intro j
    by_cases hj : j = i
    · subst hj
      rw [Function.update_self]
      exact ⟨Nat.lt_succ_self _, hfree⟩
    · rw [Function.update_of_ne hj]
      exact (h.calls j).mono (Nat.le_succ _) le_rfl
  · exact fun x hx => (h.published x hx).update hret _
  · intro j pos v hj
    by_cases hji : j = i
    · subst hji; simp at hj
    · rw [Function.update_of_ne hji] at hj
      exact (h.received j pos v hj).update hret _

/-- `dequeue` wins the ticket at the dequeue position. -/
theorem RingInv.deqWin (h : RingInv s r)
    (hcall : s.calls i = .dequeue (.cas s.queue.dequeuePos))
    (hlt : s.queue.dequeuePos.toNat < 2 ^ (w - 1)) (hw : 2 ^ (w - 1) < 2 ^ w) :
    RingInv ({ s with queue := { s.queue with dequeuePos := s.queue.dequeuePos + 1#w } }.setCall i
      (.dequeue (.copy s.queue.dequeuePos))) r := by
  have hpos := @toNat_succ w s.queue.dequeuePos (by omega)
  have hret : ∀ v p, s.calls i ≠ .enqueue v (.returned p true) := by simp [hcall]
  have hown := h.calls i
  rw [hcall] at hown
  have hfull : r.FullWith s.queue.dequeuePos.toNat := hown.2.resolve_left (lt_irrefl _)
  have hnone : (s.calls i).deqTicket = none := by rw [hcall]; rfl
  have hcur := h.full_lt _ hfull.2
  rw [hfull.1] at hcur
  -- the exchange draws the ticket `dequeuePos`, whose cell is full
  constructor <;> try simp only [QueueState.setCall, hpos]
  · exact hcur
  · exact h.enq_le
  · exact h.index
  · exact h.cur_lt
  · exact h.full_lt
  · exact fun p hp => Nat.lt_succ_of_lt (h.passed_lt p hp)
  · exact h.seq
  · exact issued_enq_update h.enqTickets (by rw [hcall]; rfl)
  · rw [deqTicket_update]
    exact h.deqTickets.draw hnone
  · intro j
    by_cases hj : j = i
    · subst hj
      rw [Function.update_self]
      exact ⟨Nat.lt_succ_self _, hfull⟩
    · rw [Function.update_of_ne hj]
      exact (h.calls j).mono le_rfl (Nat.le_succ _)
  · exact fun x hx => (h.published x hx).update hret _
  · intro j pos v hj
    by_cases hji : j = i
    · subst hji; simp at hj
    · rw [Function.update_of_ne hji] at hj
      exact (h.received j pos v hj).update hret _

/-- `enqueue` copies its element into the cell of its ticket. -/
theorem RingInv.enqCopy (h : RingInv s r) {data : T} {pos : BitVec w}
    (hcall : s.calls i = .enqueue data (.copy pos)) :
    RingInv ({ s with queue := s.queue.setData (ringIndex k pos.toNat) data }.setCall i
      (.enqueue data (.store pos))) r := by
  have hret : ∀ v p, s.calls i ≠ .enqueue v (.returned p true) := by simp [hcall]
  have hown := h.calls i
  rw [hcall] at hown
  obtain ⟨hlt, hfree⟩ := hown
  have htick : (s.calls i).enqTicket = some pos.toNat := by rw [hcall]; rfl
  have hdata : ∀ x, x ≠ ringIndex k pos.toNat →
      ((s.queue.setData (ringIndex k pos.toNat) data).buffer x) = s.queue.buffer x :=
    fun x hx => Function.update_of_ne hx ..
  -- only the free cell of the ticket is written
  have hfullne : ∀ x, r.full x = true → x ≠ ringIndex k pos.toNat := by
    rintro x hx rfl
    simp [hfree.2] at hx
  constructor <;> try simp only [QueueState.setCall, MpmcQueue.setData_enqueuePos,
    MpmcQueue.setData_dequeuePos]
  · exact h.deq_le_enq
  · exact h.enq_le
  · exact h.index
  · exact h.cur_lt
  · exact h.full_lt
  · exact h.passed_lt
  · intro x
    by_cases hx : x = ringIndex k pos.toNat
    · subst hx
      simpa using h.seq (ringIndex k pos.toNat)
    · rw [hdata x hx]
      exact h.seq x
  · exact issued_enq_update h.enqTickets (by rw [hcall]; rfl)
  · exact issued_deq_update h.deqTickets (by rw [hcall]; rfl)
  · intro j
    by_cases hj : j = i
    · subst hj
      rw [Function.update_self]
      exact ⟨hlt, hfree, by simp⟩
    · rw [Function.update_of_ne hj]
      refine (h.calls j).frame le_rfl le_rfl (fun p hp => ?_) (fun p hp => ?_) fun _ hp => hp
      · by_cases hx : ringIndex k p = ringIndex k pos.toNat
        · -- the two tickets of one free cell are the same
          have hpp : p = pos.toNat := by rw [← hp.1, hx, hfree.1]
          subst hpp
          exact .inr ⟨hlt, h.enqTickets.ne_of_ne htick hj⟩
        · exact .inl ⟨hp, by rw [hdata _ hx]⟩
      · exact .inl ⟨hp, by rw [hdata _ (hfullne _ hp.2)]⟩
  · intro x hx
    rw [hdata x (hfullne x hx)]
    exact (h.published x hx).update hret _
  · intro j p v hj
    by_cases hji : j = i
    · subst hji; simp at hj
    · rw [Function.update_of_ne hji] at hj
      exact (h.received j p v hj).update hret _

/-- The ring after the element of ticket `p` has been published. -/
def Ring.publish (r : Ring k) (p : ℕ) : Ring k :=
  { r with full := Function.update r.full (ringIndex k p) true }

/-- The ring after the cell of ticket `p` has been handed on to the ticket one buffer later. -/
def Ring.release (r : Ring k) (p : ℕ) : Ring k where
  cur := Function.update r.cur (ringIndex k p) (p + 2 ^ k)
  full := Function.update r.full (ringIndex k p) false

/-- `enqueue` publishes its element. -/
theorem RingInv.enqStore (h : RingInv s r) {data : T} {pos : BitVec w}
    (hcall : s.calls i = .enqueue data (.store pos)) :
    RingInv ({ s with queue := s.queue.setSequence (ringIndex k pos.toNat) (pos + 1#w) }.setCall i
      (.enqueue data (.returned pos true))) (r.publish pos.toNat) := by
  have hret : ∀ v p, s.calls i ≠ .enqueue v (.returned p true) := by simp [hcall]
  have hown := h.calls i
  rw [hcall] at hown
  obtain ⟨hlt, hfree, hdata⟩ := hown
  have htick : (s.calls i).enqTicket = some pos.toNat := by rw [hcall]; rfl
  have hbuf : ∀ x, ((s.queue.setSequence (ringIndex k pos.toNat) (pos + 1#w)).buffer x).data =
      (s.queue.buffer x).data := by
    intro x
    by_cases hx : x = ringIndex k pos.toNat
    · subst hx; simp
    · simp [hx]
  have hfull : ∀ x, x ≠ ringIndex k pos.toNat → (r.publish pos.toNat).full x = r.full x :=
    fun x hx => Function.update_of_ne hx ..
  -- the store publishes the cell of the ticket
  have hself : (r.publish pos.toNat).full (ringIndex k pos.toNat) = true :=
    Function.update_self ..
  constructor <;> try simp only [QueueState.setCall, MpmcQueue.setSequence_enqueuePos,
    MpmcQueue.setSequence_dequeuePos]
  · exact h.deq_le_enq
  · exact h.enq_le
  · exact h.index
  · exact h.cur_lt
  · intro x hx
    by_cases hxp : x = ringIndex k pos.toNat
    · subst hxp
      exact lt_of_eq_of_lt hfree.1 hlt
    · exact h.full_lt x (hfull x hxp ▸ hx)
  · exact h.passed_lt
  · intro x
    by_cases hx : x = ringIndex k pos.toNat
    · subst hx
      simp only [MpmcQueue.setSequence_buffer, Function.update_self, Ring.seq, hself]
      rw [show (r.publish pos.toNat).cur = r.cur from rfl, hfree.1]
      simp [BitVec.ofNat_add]
    · simpa [hx, Ring.seq, Ring.publish] using h.seq x
  · exact issued_enq_update h.enqTickets (by rw [hcall]; rfl)
  · exact issued_deq_update h.deqTickets (by rw [hcall]; rfl)
  · intro j
    by_cases hj : j = i
    · subst hj
      rw [Function.update_self]
      exact ⟨hlt, .inr ⟨⟨hfree.1, hself⟩, by rw [hbuf]; exact hdata⟩⟩
    · rw [Function.update_of_ne hj]
      refine (h.calls j).frame le_rfl le_rfl (fun p hp => ?_) (fun p hp => ?_) fun _ hp => hp
      · by_cases hx : ringIndex k p = ringIndex k pos.toNat
        · have hpp : p = pos.toNat := by rw [← hp.1, hx, hfree.1]
          subst hpp
          exact .inr ⟨hlt, h.enqTickets.ne_of_ne htick hj⟩
        · exact .inl ⟨⟨hp.1, by rw [hfull _ hx, hp.2]⟩, hbuf _⟩
      -- a full cell is not the one published
      · have hx : ringIndex k p ≠ ringIndex k pos.toNat := by
          intro hx
          simp [Ring.FreeFor, ← hx, hp.2] at hfree
        exact .inl ⟨⟨hp.1, by rw [hfull _ hx, hp.2]⟩, hbuf _⟩
  · intro x hx
    rw [hbuf]
    by_cases hxp : x = ringIndex k pos.toNat
    · subst hxp
      rw [show (r.publish pos.toNat).cur = r.cur from rfl, hfree.1, hdata]
      exact ⟨i, by rw [Function.update_self, BitVec.ofNat_toNat, BitVec.setWidth_eq]⟩
    · exact (h.published x (hfull x hxp ▸ hx)).update hret _
  · intro j p v hj
    by_cases hji : j = i
    · subst hji; simp at hj
    · rw [Function.update_of_ne hji] at hj
      exact (h.received j p v hj).update hret _

/-- `dequeue` hands its cell on to the enqueue one buffer later. -/
theorem RingInv.deqStore (h : RingInv s r) {data : T} {pos : BitVec w}
    (hcall : s.calls i = .dequeue (.store pos data)) :
    RingInv
      (QueueState.setCall
        { s with queue := s.queue.setSequence (ringIndex k pos.toNat) (pos + bufferMask w k + 1#w) }
        i (.dequeue (.returned pos (some data))))
      (r.release pos.toNat) := by
  have hret : ∀ v p, s.calls i ≠ .enqueue v (.returned p true) := by simp [hcall]
  have hown := h.calls i
  rw [hcall] at hown
  obtain ⟨hlt, hfull, -⟩ := hown
  have htick : (s.calls i).deqTicket = some pos.toNat := by rw [hcall]; rfl
  have hbuf : ∀ x, ((s.queue.setSequence (ringIndex k pos.toNat)
      (pos + bufferMask w k + 1#w)).buffer x).data = (s.queue.buffer x).data := by
    intro x
    by_cases hx : x = ringIndex k pos.toNat
    · subst hx; simp
    · simp [hx]
  have hcur : ∀ x, x ≠ ringIndex k pos.toNat → (r.release pos.toNat).cur x = r.cur x :=
    fun x hx => Function.update_of_ne hx ..
  have hfull' : ∀ x, x ≠ ringIndex k pos.toNat → (r.release pos.toNat).full x = r.full x :=
    fun x hx => Function.update_of_ne hx ..
  have hself : (r.release pos.toNat).cur (ringIndex k pos.toNat) = pos.toNat + 2 ^ k :=
    Function.update_self ..
  have hself' : (r.release pos.toNat).full (ringIndex k pos.toNat) = false :=
    Function.update_self ..
  have hpassed : ∀ p, r.Passed p → (r.release pos.toNat).Passed p := by
    intro p hp
    unfold Ring.Passed at hp ⊢
    by_cases hx : ringIndex k p = ringIndex k pos.toNat
    · rw [hx, hfull.1] at hp
      rw [hx, hself]
      omega
    · rwa [hcur _ hx]
  -- the store passes the ticket, and with it frees the cell for the next round
  have hnow : (r.release pos.toNat).Passed pos.toNat := by
    unfold Ring.Passed
    rw [hself]
    exact Nat.lt_add_of_pos_right (Nat.two_pow_pos k)
  constructor <;> try simp only [QueueState.setCall, MpmcQueue.setSequence_enqueuePos,
    MpmcQueue.setSequence_dequeuePos]
  · exact h.deq_le_enq
  · exact h.enq_le
  · intro x
    by_cases hx : x = ringIndex k pos.toNat
    · subst hx
      rw [hself]
      simp [ringIndex]
    · rw [hcur x hx, h.index]
  · intro x
    by_cases hx : x = ringIndex k pos.toNat
    · subst hx
      have := h.deq_le_enq
      rw [hself]
      omega
    · rw [hcur x hx]
      exact h.cur_lt x
  · intro x hx
    by_cases hxp : x = ringIndex k pos.toNat
    · subst hxp
      simp [hself'] at hx
    · rw [hcur x hxp]
      exact h.full_lt x (hfull' x hxp ▸ hx)
  · intro p hp
    unfold Ring.Passed at hp
    by_cases hx : ringIndex k p = ringIndex k pos.toNat
    · rw [hx, hself] at hp
      -- a ticket of this cell below `pos + 2 ^ k` is at most `pos`
      have hle : p ≤ pos.toNat := by
        have hmod : p ≡ pos.toNat [MOD 2 ^ k] := congrArg Fin.val hx
        by_contra hgt
        have := (hmod.symm.add_le_of_lt (not_le.mp hgt))
        omega
      omega
    · rw [hcur _ hx] at hp
      exact h.passed_lt p hp
  · intro x
    by_cases hx : x = ringIndex k pos.toNat
    · subst hx
      have hmask : bufferMask w k + 1#w = BitVec.ofNat w (2 ^ k) := by
        rw [bufferMask, BitVec.sub_add_cancel]
      simp only [MpmcQueue.setSequence_buffer, Function.update_self, Ring.seq, hself, hself']
      rw [BitVec.add_assoc, hmask]
      simp [BitVec.ofNat_add]
    · simpa [hx, Ring.seq, hcur x hx, hfull' x hx] using h.seq x
  · exact issued_enq_update h.enqTickets (by rw [hcall]; rfl)
  · exact issued_deq_update h.deqTickets (by rw [hcall]; rfl)
  · intro j
    by_cases hj : j = i
    · subst hj
      rw [Function.update_self]
      exact ⟨hlt, hnow⟩
    · rw [Function.update_of_ne hj]
      refine (h.calls j).frame le_rfl le_rfl (fun p hp => ?_) (fun p hp => ?_) hpassed
      -- a free cell is not the one released
      · have hx : ringIndex k p ≠ ringIndex k pos.toNat := by
          intro hx
          simp [Ring.FreeFor, hx, hfull.2] at hp
        exact .inl ⟨⟨by rw [hcur _ hx, hp.1], by rw [hfull' _ hx, hp.2]⟩, hbuf _⟩
      · by_cases hx : ringIndex k p = ringIndex k pos.toNat
        · have hpp : p = pos.toNat := by rw [← hp.1, hx, hfull.1]
          subst hpp
          exact .inr ⟨hlt, hnow, h.deqTickets.ne_of_ne htick hj⟩
        · exact .inl ⟨⟨by rw [hcur _ hx, hp.1], by rw [hfull' _ hx, hp.2]⟩, hbuf _⟩
  · intro x hx
    have hxp : x ≠ ringIndex k pos.toNat := by
      rintro rfl
      simp [hself'] at hx
    rw [hbuf, hcur x hxp]
    exact (h.published x (hfull' x hxp ▸ hx)).update hret _
  · intro j p v hj
    refine Published.update ?_ hret _
    by_cases hji : j = i
    · subst hji
      rw [Function.update_self] at hj
      obtain ⟨rfl, rfl⟩ : pos = p ∧ data = v := by simpa using hj
      exact h.received j pos data (.inl hcall)
    · rw [Function.update_of_ne hji] at hj
      exact h.received j p v hj

/-! ## Every step keeps the invariant -/

/-- Consecutive positions have different cells. -/
theorem ringIndex_succ_ne (hk : 1 ≤ k) (p : ℕ) : ringIndex k (p + 1) ≠ ringIndex k p := by
  intro h
  have hmod : p + 1 ≡ p + 0 [MOD 2 ^ k] := congrArg Fin.val h
  have hsize : 2 ≤ 2 ^ k := Nat.le_self_pow (by omega) 2
  exact absurd ((hmod.add_left_cancel' p).eq_of_lt_of_lt (by omega) (by omega)) one_ne_zero

omit [DecidableEq ι] in
/-- The sequence numbers do not wrap while the positions are below half the range. -/
theorem RingInv.seq_lt (h : RingInv s r) (hkw : k < w)
    (hlt : s.queue.enqueuePos.toNat < 2 ^ (w - 1)) (x : Fin (2 ^ k)) : r.seq x < 2 ^ w := by
  have hsize : 2 ^ k ≤ 2 ^ (w - 1) := Nat.pow_le_pow_right (by omega) (by omega)
  have hw : 2 ^ w = 2 * 2 ^ (w - 1) := by rw [← pow_succ', Nat.sub_add_cancel (by omega)]
  have hcur := h.cur_lt x
  unfold Ring.seq
  cases hx : r.full x with
  | false => simp only [Bool.toNat_false]; omega
  | true =>
    have := h.full_lt x hx
    simp only [Bool.toNat_true]
    omega

omit [DecidableEq ι] in
/-- What `enqueue` learns from `dif == 0`. -/
theorem RingInv.freeFor_of_dif (h : RingInv s r) (hk : 1 ≤ k) (hkw : k < w)
    (hlt : s.queue.enqueuePos.toNat < 2 ^ (w - 1)) {pos : BitVec w}
    (hdif : (s.queue.buffer (ringIndex k pos.toNat)).sequence - pos = 0#w) :
    r.FreeFor pos.toNat := by
  have heq : r.seq (ringIndex k pos.toNat) = pos.toNat := by
    have := congrArg BitVec.toNat (eq_of_sub_eq_zero hdif)
    rwa [h.seq, BitVec.toNat_ofNat, Nat.mod_eq_of_lt (h.seq_lt hkw hlt _)] at this
  cases hx : r.full (ringIndex k pos.toNat) with
  | false => exact ⟨by simpa [Ring.seq, hx] using heq, hx⟩
  | true =>
    have hcur : r.cur (ringIndex k pos.toNat) + 1 = pos.toNat := by
      simpa [Ring.seq, hx] using heq
    have hidx := h.index (ringIndex k pos.toNat)
    exact absurd (by rw [hcur, hidx]) (ringIndex_succ_ne hk (r.cur (ringIndex k pos.toNat)))

omit [DecidableEq ι] in
/-- What `dequeue` learns from `dif == 0`. -/
theorem RingInv.fullWith_of_dif (h : RingInv s r) (hk : 1 ≤ k) (hkw : k < w)
    (hlt : s.queue.enqueuePos.toNat < 2 ^ (w - 1)) {pos : BitVec w}
    (hpos : pos.toNat < 2 ^ (w - 1))
    (hdif : (s.queue.buffer (ringIndex k pos.toNat)).sequence - (pos + 1#w) = 0#w) :
    r.FullWith pos.toNat := by
  have hw : 2 ^ (w - 1) < 2 ^ w := Nat.pow_lt_pow_right (by omega) (by omega)
  have heq : r.seq (ringIndex k pos.toNat) = pos.toNat + 1 := by
    have := congrArg BitVec.toNat (eq_of_sub_eq_zero hdif)
    rwa [h.seq, BitVec.toNat_ofNat, Nat.mod_eq_of_lt (h.seq_lt hkw hlt _),
      toNat_succ (by omega)] at this
  cases hx : r.full (ringIndex k pos.toNat) with
  | true => exact ⟨by simpa [Ring.seq, hx] using heq, hx⟩
  | false =>
    have hcur : r.cur (ringIndex k pos.toNat) = pos.toNat + 1 := by
      simpa [Ring.seq, hx] using heq
    have hidx := h.index (ringIndex k pos.toNat)
    rw [hcur] at hidx
    exact absurd hidx (ringIndex_succ_ne hk _)

/-- Every step of an `enqueue` call keeps the invariant. -/
theorem RingInv.enqStep (h : RingInv s r) (hk : 1 ≤ k) (hkw : k < w) (hpos : PositionsBelow s)
    {data : T} {pc : EnqPc w} {spurious : Bool} (hcall : s.calls i = .enqueue data pc)
    (hrun : ∀ p b, pc ≠ .returned p b) :
    ∃ r', RingInv (QueueState.setCall
      { s with queue := (NomadTasks.enqStep s.queue data spurious pc).1 } i
      (.enqueue data (NomadTasks.enqStep s.queue data spurious pc).2)) r' := by
  have hret : ∀ v p, s.calls i ≠ .enqueue v (.returned p true) := by
    intro v p hv
    rw [hcall, QueueCall.enqueue.injEq] at hv
    exact hrun p true hv.2
  have hown := h.calls i
  have hw : 2 ^ (w - 1) < 2 ^ w := Nat.pow_lt_pow_right (by omega) (by omega)
  rw [hcall] at hown
  cases pc with
  | loadPos =>
    exact ⟨r, h.move hret (by rw [hcall]; rfl) (by rw [hcall]; rfl) le_rfl (by simp)⟩
  | loadSeq pos =>
    by_cases hdif : (s.queue.buffer (cellIndex pos)).sequence - pos = 0#w
    · rw [enqStep_loadSeq_ready hdif]
      rw [cellIndex_eq_ringIndex hkw] at hdif
      exact ⟨r, h.move hret (by rw [hcall]; rfl) (by rw [hcall]; rfl)
        ⟨hown, .inr (h.freeFor_of_dif hk hkw hpos.1 hdif)⟩ (by simp)⟩
    · simp only [NomadTasks.enqStep, if_neg hdif]
      split
      · exact ⟨r, h.move hret (by rw [hcall]; rfl) (by rw [hcall]; rfl) trivial (by simp)⟩
      · exact ⟨r, h.move hret (by rw [hcall]; rfl) (by rw [hcall]; rfl) trivial (by simp)⟩
  | cas pos =>
    by_cases hwin : s.queue.enqueuePos = pos ∧ spurious = false
    · obtain ⟨rfl, rfl⟩ := hwin
      rw [enqStep_cas]
      exact ⟨r, h.enqWin hcall hpos.1 hw⟩
    · simp only [NomadTasks.enqStep, if_neg hwin]
      exact ⟨r, h.move hret (by rw [hcall]; rfl) (by rw [hcall]; rfl) le_rfl (by simp)⟩
  | copy pos =>
    simp only [NomadTasks.enqStep, cellIndex_eq_ringIndex hkw]
    exact ⟨r, h.enqCopy hcall⟩
  | store pos =>
    simp only [NomadTasks.enqStep, cellIndex_eq_ringIndex hkw]
    exact ⟨_, h.enqStore hcall⟩
  | returned pos result => exact absurd rfl (hrun pos result)

/-- Every step of a `dequeue` call keeps the invariant. -/
theorem RingInv.deqStep (h : RingInv s r) (hk : 1 ≤ k) (hkw : k < w) (hpos : PositionsBelow s)
    {pc : DeqPc w T} {spurious : Bool} (hcall : s.calls i = .dequeue pc)
    (hrun : ∀ p b, pc ≠ .returned p b) :
    ∃ r', RingInv (QueueState.setCall
      { s with queue := (NomadTasks.deqStep s.queue spurious pc).1 } i
      (.dequeue (NomadTasks.deqStep s.queue spurious pc).2)) r' := by
  have hret : ∀ v p, s.calls i ≠ .enqueue v (.returned p true) := by simp [hcall]
  have hown := h.calls i
  have hw : 2 ^ (w - 1) < 2 ^ w := Nat.pow_lt_pow_right (by omega) (by omega)
  rw [hcall] at hown
  cases pc with
  | loadPos =>
    exact ⟨r, h.move hret (by rw [hcall]; rfl) (by rw [hcall]; rfl) le_rfl
      (by simp [NomadTasks.deqStep])⟩
  | loadSeq pos =>
    by_cases hdif : (s.queue.buffer (cellIndex pos)).sequence - (pos + 1#w) = 0#w
    · rw [deqStep_loadSeq_ready hdif]
      rw [cellIndex_eq_ringIndex hkw] at hdif
      exact ⟨r, h.move hret (by rw [hcall]; rfl) (by rw [hcall]; rfl)
        ⟨hown, .inr (h.fullWith_of_dif hk hkw hpos.1 (lt_of_le_of_lt hown hpos.2) hdif)⟩
        (by simp)⟩
    · simp only [NomadTasks.deqStep, if_neg hdif]
      split
      · exact ⟨r, h.move hret (by rw [hcall]; rfl) (by rw [hcall]; rfl) trivial (by simp)⟩
      · exact ⟨r, h.move hret (by rw [hcall]; rfl) (by rw [hcall]; rfl) trivial (by simp)⟩
  | cas pos =>
    by_cases hwin : s.queue.dequeuePos = pos ∧ spurious = false
    · obtain ⟨rfl, rfl⟩ := hwin
      rw [deqStep_cas]
      exact ⟨r, h.deqWin hcall hpos.2 hw⟩
    · simp only [NomadTasks.deqStep, if_neg hwin]
      exact ⟨r, h.move hret (by rw [hcall]; rfl) (by rw [hcall]; rfl) le_rfl (by simp)⟩
  | copy pos =>
    simp only [NomadTasks.deqStep, cellIndex_eq_ringIndex hkw]
    refine ⟨r, h.move hret (by rw [hcall]; rfl) (by rw [hcall]; rfl)
      ⟨hown.1, hown.2, rfl⟩ fun p v hv => ?_⟩
    obtain ⟨rfl, rfl⟩ : pos = p ∧ (s.queue.buffer (ringIndex k pos.toNat)).data = v := by
      simpa using hv
    have hpub := h.published _ hown.2.2
    rwa [hown.2.1, BitVec.ofNat_toNat, BitVec.setWidth_eq] at hpub
  | store pos data =>
    simp only [NomadTasks.deqStep, cellIndex_eq_ringIndex hkw]
    exact ⟨_, h.deqStore hcall⟩
  | returned pos result => exact absurd rfl (hrun pos result)

/-- Every step of the interleaving keeps the invariant, as long as the positions do not reach half
the range. -/
theorem RingInv.step (h : RingInv s r) (hk : 1 ≤ k) (hkw : k < w) (hpos : PositionsBelow s)
    {a : QueueAction T ι} {s' : QueueState w k T ι} (hs : queueStep s a = some s') :
    ∃ r', RingInv s' r' := by
  cases a with
  | beginEnqueue i data =>
    simp only [queueStep] at hs
    split at hs
    · next hcall =>
      cases hs
      exact ⟨r, h.move (by simp [hcall]) (by rw [hcall]; rfl) (by rw [hcall]; rfl) trivial
        (by simp)⟩
    · cases hs
  | beginDequeue i =>
    simp only [queueStep] at hs
    split at hs
    · next hcall =>
      cases hs
      exact ⟨r, h.move (by simp [hcall]) (by rw [hcall]; rfl) (by rw [hcall]; rfl) trivial
        (by simp)⟩
    · cases hs
  | step i spurious =>
    simp only [queueStep] at hs
    split at hs
    · cases hs
    · cases hs
    · cases hs
    · next data pc hrun hcall =>
      cases hs
      exact h.enqStep hk hkw hpos hcall hrun
    · next pc hrun hcall =>
      cases hs
      exact h.deqStep hk hkw hpos hcall hrun

omit [DecidableEq ι] in
/-- Construction meets the invariant. -/
theorem ringInv_init [Inhabited T] : RingInv
    ({ queue := MpmcQueue.init w k T, calls := fun _ => .notStarted } : QueueState w k T ι)
    { cur := Fin.val, full := fun _ => false } where
  deq_le_enq := le_rfl
  enq_le := by simp [MpmcQueue.init]
  index x := by simp [ringIndex, Nat.mod_eq_of_lt x.isLt]
  cur_lt x := by simp [MpmcQueue.init, x.isLt]
  full_lt x hx := by simp at hx
  passed_lt p hp := absurd hp (not_lt.mpr (Nat.mod_le _ _))
  seq x := by simp [MpmcQueue.init, Ring.seq]
  enqTickets := Issued.none
  deqTickets := Issued.none
  calls i := trivial
  published x hx := by simp at hx
  received j pos data hj := by simp at hj

/-- Every run whose steps are taken with both positions below half the range meets the
invariant. -/
theorem ringInv_of_run [Inhabited T] (hk : 1 ≤ k) (hkw : k < w)
    {h : History (QueueState w k T ι) (QueueAction T ι)}
    (hr : (queueSystem w k T ι).Run (fun _ s _ => PositionsBelow s) h s) : ∃ r, RingInv s r := by
  refine hr.invariant (P := fun _ s => ∃ r, RingInv s r) (fun s hs => ?_) ?_
  · obtain rfl := hs
    exact ⟨_, ringInv_init⟩
  · rintro h s a s' _ ⟨r, hinv⟩ hpos hs
    exact hinv.step hk hkw hpos hs

end Step

end NomadTasks
