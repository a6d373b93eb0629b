import NomadTasks.Fifo.Bounded
import NomadTasks.MpmcQueue.Safety
import NomadTasks.Transition.Linearization

/-!
# The successful calls of `mpmc_queue` are linearizable

Under any interleaving, the calls that return `true` behave as if each of them had taken place, as
one step of the bounded first-in-first-out queue, at its successful exchange: an `enqueue` takes
effect before its element is in the buffer, a `dequeue` before it has read the element. A call that
returns `false` takes no effect and has no place in the order (`MpmcQueue.Failure` says what it
means).

* `linearizes`: the linearization points.
* `QueueState.performed`: the operation a call has performed, read off the state.
* `Holds`: the abstract queue holds what the calls with the tickets from the dequeue
  position up to the enqueue position put in.
-/

namespace NomadTasks

open Fifo Transition Ticket

variable {w k : ℕ} {T ι : Type}

/-- The ticket and the element of an `enqueue` call that has won one. -/
def QueueCall.drew : QueueCall w T → Option (ℕ × T)
  | .enqueue data (.copy pos) | .enqueue data (.store pos) | .enqueue data (.returned pos true) =>
      some (pos.toNat, data)
  | _ => none

/-- The operation that a call has performed, once it has won its ticket. -/
def QueueCall.performed (buffer : Fin (2 ^ k) → Cell w T) : QueueCall w T → Option (Event T)
  | .enqueue data (.copy _) | .enqueue data (.store _) | .enqueue data (.returned _ true) =>
      some (.enqueued data true)
  | .dequeue (.copy pos) => some (.dequeued (some (buffer (cellIndex pos)).data))
  | .dequeue (.store _ data) | .dequeue (.returned _ (some data)) => some (.dequeued (some data))
  | _ => none

/-- The operation that call `i` has performed. -/
def QueueState.performed (s : QueueState w k T ι) (i : ι) : Option (Event T) :=
  (s.calls i).performed s.queue.buffer

/-- The call that wins its ticket with a step, and the operation it performs thereby. -/
def linearizes (s : QueueState w k T ι) : QueueAction T ι → Option (ι × Event T)
  | .step i false =>
      match s.calls i with
      | .enqueue data (.cas pos) =>
          if s.queue.enqueuePos = pos then some (i, .enqueued data true) else none
      | .dequeue (.cas pos) =>
          if s.queue.dequeuePos = pos then
            some (i, .dequeued (some (s.queue.buffer (cellIndex pos)).data))
          else none
      | _ => none
  | _ => none

/-- The abstract queue holds the elements of the tickets that have been won by an `enqueue` and
not by a `dequeue`, in the order of the tickets. -/
structure Holds (s : QueueState w k T ι) (f : Bounded T (2 ^ k)) : Prop where
  length : s.queue.enqueuePos.toNat = s.queue.dequeuePos.toNat + f.elems.length
  elems : ∀ n (hn : n < f.elems.length),
    ∃ i, (s.calls i).drew = some (s.queue.dequeuePos.toNat + n, f.elems[n])

namespace QueueCall

theorem enqTicket_of_drew {c : QueueCall w T} {p : ℕ} {data : T} (h : c.drew = some (p, data)) :
    c.enqTicket = some p := by
  unfold drew at h
  split at h <;> simp_all [enqTicket]

end QueueCall

section RingInv

variable {s : QueueState w k T ι} {r : Ring k}

/-- Two elements that were put in under one ticket are the same. -/
theorem RingInv.drew_unique (h : RingInv s r) {i j : ι} {p : ℕ} {x y : T}
    (hi : (s.calls i).drew = some (p, x)) (hj : (s.calls j).drew = some (p, y)) : x = y := by
  obtain rfl := h.enqTickets.unique i j p (QueueCall.enqTicket_of_drew hi)
    (QueueCall.enqTicket_of_drew hj)
  rw [hi, Option.some.injEq, Prod.mk.injEq] at hj
  exact hj.2

theorem Published.drew {calls : ι → QueueCall w T} {pos : BitVec w} {data : T}
    (h : Published calls pos data) : ∃ i, (calls i).drew = some (pos.toNat, data) := by
  obtain ⟨i, hi⟩ := h
  exact ⟨i, by rw [hi]; rfl⟩

/-- There is room for the element of the `enqueue` whose cell is free for the next ticket. -/
theorem RingInv.room (h : RingInv s r) (hfree : r.FreeFor s.queue.enqueuePos.toNat) :
    s.queue.enqueuePos.toNat < s.queue.dequeuePos.toNat + 2 ^ k := by
  by_contra hge
  -- a full ring's next cell would still serve the ticket one buffer earlier
  obtain ⟨p, hp⟩ : ∃ p, s.queue.enqueuePos.toNat = p + 2 ^ k :=
    ⟨s.queue.enqueuePos.toNat - 2 ^ k, by omega⟩
  have hcur := hfree.1
  rw [hp, ringIndex_add_size] at hcur
  have hpassed : r.Passed p := by
    unfold Ring.Passed
    have := Nat.two_pow_pos k
    omega
  have := h.passed_lt p hpassed
  omega

end RingInv

/-! ## What one step does -/

section Step

variable [DecidableEq ι] {s s' : QueueState w k T ι} {a : QueueAction T ι}

/-- The four things that can happen. -/
theorem queueStep_cases (hs : queueStep s a = some s') :
    (∃ i data, a = .beginEnqueue i data ∧ s.calls i = .notStarted ∧
      s' = s.setCall i (.enqueue data .loadPos)) ∨
    (∃ i, a = .beginDequeue i ∧ s.calls i = .notStarted ∧ s' = s.setCall i (.dequeue .loadPos)) ∨
    (∃ i spurious data pc, a = .step i spurious ∧ s.calls i = .enqueue data pc ∧
      (∀ p b, pc ≠ .returned p b) ∧
      s' = QueueState.setCall { s with queue := (enqStep s.queue data spurious pc).1 } i
        (.enqueue data (enqStep s.queue data spurious pc).2)) ∨
    (∃ i spurious pc, a = .step i spurious ∧ s.calls i = .dequeue pc ∧
      (∀ p b, pc ≠ .returned p b) ∧
      s' = QueueState.setCall { s with queue := (deqStep s.queue spurious pc).1 } i
        (.dequeue (deqStep s.queue spurious pc).2)) := by
  cases a with
  | beginEnqueue i data =>
    simp only [queueStep] at hs
    split at hs <;> cases hs
    next hcall => exact .inl ⟨i, data, rfl, hcall, rfl⟩
  | beginDequeue i =>
    simp only [queueStep] at hs
    split at hs <;> cases hs
    next hcall => exact .inr (.inl ⟨i, rfl, hcall, rfl⟩)
  | step i spurious =>
    simp only [queueStep] at hs
    split at hs <;> cases hs
    · next data pc hrun hcall =>
      exact .inr (.inr (.inl ⟨i, spurious, data, pc, rfl, hcall, hrun, rfl⟩))
    · next pc hrun hcall => exact .inr (.inr (.inr ⟨i, spurious, pc, rfl, hcall, hrun, rfl⟩))

/-- A step that wins no ticket moves one call, which has performed afterwards what it had performed
before. -/
theorem queueStep_silent (hs : queueStep s a = some s') (hnone : linearizes s a = none) :
    s'.queue.enqueuePos = s.queue.enqueuePos ∧ s'.queue.dequeuePos = s.queue.dequeuePos ∧
      ∃ i, (∀ j, j ≠ i → s'.calls j = s.calls j) ∧ (s'.calls i).drew = (s.calls i).drew ∧
        s'.performed i = s.performed i := by
  have hmove : ∀ {q : MpmcQueue w k T} {i c s'}, s' = QueueState.setCall { s with queue := q } i c →
      q.enqueuePos = s.queue.enqueuePos → q.dequeuePos = s.queue.dequeuePos →
      c.drew = (s.calls i).drew → c.performed q.buffer = (s.calls i).performed s.queue.buffer →
      s'.queue.enqueuePos = s.queue.enqueuePos ∧ s'.queue.dequeuePos = s.queue.dequeuePos ∧
        ∃ i, (∀ j, j ≠ i → s'.calls j = s.calls j) ∧ (s'.calls i).drew = (s.calls i).drew ∧
          s'.performed i = s.performed i := by
    rintro q i c _ rfl he hd hdrew hperf
    refine ⟨he, hd, i, fun j hj => Function.update_of_ne hj .., ?_, ?_⟩
    · simpa [QueueState.setCall] using hdrew
    · simpa [QueueState.setCall, QueueState.performed] using hperf
  rcases queueStep_cases hs with ⟨i, data, rfl, hcall, hs'⟩ | ⟨i, rfl, hcall, hs'⟩ |
    ⟨i, spurious, data, pc, rfl, hcall, hrun, hs'⟩ | ⟨i, spurious, pc, rfl, hcall, hrun, hs'⟩
  · exact hmove hs' rfl rfl (by rw [hcall]; rfl) (by rw [hcall]; rfl)
  · exact hmove hs' rfl rfl (by rw [hcall]; rfl) (by rw [hcall]; rfl)
  · cases pc with
    | loadPos | copy pos | store pos =>
      exact hmove hs' rfl rfl (by rw [hcall]; rfl) (by rw [hcall]; rfl)
    | loadSeq pos =>
      simp only [enqStep] at hs'
      split at hs'
      · exact hmove hs' rfl rfl (by rw [hcall]; rfl) (by rw [hcall]; rfl)
      · split at hs' <;> exact hmove hs' rfl rfl (by rw [hcall]; rfl) (by rw [hcall]; rfl)
    | cas pos =>
      have hlost : ¬ (s.queue.enqueuePos = pos ∧ spurious = false) := by
        rintro ⟨rfl, rfl⟩
        simp [linearizes, hcall] at hnone
      simp only [enqStep, if_neg hlost] at hs'
      exact hmove hs' rfl rfl (by rw [hcall]; rfl) (by rw [hcall]; rfl)
    | returned pos result => exact absurd rfl (hrun pos result)
  · cases pc with
    | loadPos | copy pos | store pos data =>
      exact hmove hs' rfl rfl (by rw [hcall]; rfl) (by rw [hcall]; rfl)
    | loadSeq pos =>
      simp only [deqStep] at hs'
      split at hs'
      · exact hmove hs' rfl rfl (by rw [hcall]; rfl) (by rw [hcall]; rfl)
      · split at hs' <;> exact hmove hs' rfl rfl (by rw [hcall]; rfl) (by rw [hcall]; rfl)
    | cas pos =>
      have hlost : ¬ (s.queue.dequeuePos = pos ∧ spurious = false) := by
        rintro ⟨rfl, rfl⟩
        simp [linearizes, hcall] at hnone
      simp only [deqStep, if_neg hlost] at hs'
      exact hmove hs' rfl rfl (by rw [hcall]; rfl) (by rw [hcall]; rfl)
    | returned pos result => exact absurd rfl (hrun pos result)

/-- A step that wins a ticket is an exchange of the position that the call has loaded. -/
theorem queueStep_effective (hs : queueStep s a = some s') {i : ι} {e : Event T}
    (hsome : linearizes s a = some (i, e)) :
    (∃ data, e = .enqueued data true ∧ s.calls i = .enqueue data (.cas s.queue.enqueuePos) ∧
      s' = QueueState.setCall
        { s with queue := { s.queue with enqueuePos := s.queue.enqueuePos + 1#w } } i
        (.enqueue data (.copy s.queue.enqueuePos))) ∨
    (e = .dequeued (some (s.queue.buffer (cellIndex s.queue.dequeuePos)).data) ∧
      s.calls i = .dequeue (.cas s.queue.dequeuePos) ∧
      s' = QueueState.setCall
        { s with queue := { s.queue with dequeuePos := s.queue.dequeuePos + 1#w } } i
        (.dequeue (.copy s.queue.dequeuePos))) := by
  unfold linearizes at hsome
  split at hsome
  · next j =>
    split at hsome
    · next data pos hcall =>
      split at hsome <;> cases hsome
      next heq =>
      subst heq
      refine .inl ⟨data, rfl, hcall, ?_⟩
      simp only [queueStep, hcall, enqStep_cas, Option.some.injEq] at hs
      exact hs.symm
    · next pos hcall =>
      split at hsome <;> cases hsome
      next heq =>
      subst heq
      refine .inr ⟨rfl, hcall, ?_⟩
      simp only [queueStep, hcall, deqStep_cas, Option.some.injEq] at hs
      exact hs.symm
    · cases hsome
  · cases hsome

omit [DecidableEq ι] in
/-- A call that a step does not move has performed what it had performed: nobody writes to the cell
it is about to read. -/
theorem RingInv.performed_congr {r r' : Ring k} (h : RingInv s r) (h' : RingInv s' r')
    (hkw : k < w)
    (hdrew : ∀ j p, (s.calls j).drew = some p → (s'.calls j).drew = some p) {j : ι}
    (hj : s'.calls j = s.calls j) : s'.performed j = s.performed j := by
  unfold QueueState.performed
  rw [hj]
  cases hc : s.calls j with
  | notStarted => rfl
  | enqueue data pc =>
    cases pc with
    | returned pos result => cases result <;> rfl
    | _ => rfl
  | dequeue pc =>
    cases pc with
    | loadPos | loadSeq pos | cas pos | store pos data => rfl
    | returned pos result => cases result <;> rfl
    | copy pos =>
      obtain ⟨x, hx⟩ := (h.published_of_copy hkw hc).drew
      obtain ⟨y, hy⟩ := (h'.published_of_copy hkw (hj.trans hc)).drew
      simp only [QueueCall.performed, h'.drew_unique hy (hdrew x _ hx)]

/-! ## The linearization points -/

/-- An `enqueue` that wins its ticket stores its element behind the ones held. -/
theorem Holds.enqueue {r : Ring k} (h : RingInv s r) {f : Bounded T (2 ^ k)} (hf : Holds s f)
    (hpos : s.queue.enqueuePos.toNat + 1 < 2 ^ w) {i : ι} {data : T}
    (hcall : s.calls i = .enqueue data (.cas s.queue.enqueuePos)) :
    ∃ hroom : f.elems.length < 2 ^ k, Holds (QueueState.setCall
      { s with queue := { s.queue with enqueuePos := s.queue.enqueuePos + 1#w } } i
      (.enqueue data (.copy s.queue.enqueuePos))) (f.push data hroom) := by
  have hok := h.calls i
  rw [hcall] at hok
  have hfree := hok.2.resolve_left (lt_irrefl _)
  have hroom := h.room hfree
  have hlen := hf.length
  refine ⟨by omega, ?_, fun n hn => ?_⟩
  · simp only [QueueState.setCall, toNat_succ hpos, Bounded.elems_push, List.length_append,
      List.length_singleton]
    omega
  · rw [Bounded.elems_push, List.length_append, List.length_singleton] at hn
    rcases Nat.lt_succ_iff_lt_or_eq.mp hn with hlt | rfl
    · obtain ⟨j, hj⟩ := hf.elems n hlt
      have hne : j ≠ i := by
        rintro rfl
        simp [hcall, QueueCall.drew] at hj
      refine ⟨j, ?_⟩
      simp only [QueueState.setCall, Function.update_of_ne hne, hj, Bounded.elems_push,
        List.getElem_append_left hlt]
    · refine ⟨i, ?_⟩
      simp only [QueueState.setCall, Function.update_self, QueueCall.drew, Bounded.elems_push,
        List.getElem_concat_length, ← hlen]

/-- A `dequeue` that wins its ticket takes the oldest element. -/
theorem Holds.dequeue {r : Ring k} (h : RingInv s r) (hkw : k < w) {f : Bounded T (2 ^ k)}
    (hf : Holds s f) (hpos : s.queue.dequeuePos.toNat + 1 < 2 ^ w) {i : ι}
    (hcall : s.calls i = .dequeue (.cas s.queue.dequeuePos)) :
    f.elems.head? = some (s.queue.buffer (cellIndex s.queue.dequeuePos)).data ∧
      Holds (QueueState.setCall
        { s with queue := { s.queue with dequeuePos := s.queue.dequeuePos + 1#w } } i
        (.dequeue (.copy s.queue.dequeuePos))) f.pop := by
  have hok := h.calls i
  rw [hcall] at hok
  have hfull := hok.2.resolve_left (lt_irrefl _)
  have hlt := h.full_lt _ hfull.2
  rw [hfull.1] at hlt
  have hlen := hf.length
  cases hel : f.elems with
  | nil =>
    rw [hel, List.length_nil] at hlen
    omega
  | cons x xs =>
    have hpub := h.published _ hfull.2
    rw [hfull.1, BitVec.ofNat_toNat, BitVec.setWidth_eq, ← cellIndex_eq_ringIndex hkw] at hpub
    obtain ⟨j, hj⟩ := hpub.drew
    obtain ⟨j', hj'⟩ := hf.elems 0 (by simp [hel])
    simp only [hel, List.getElem_cons_zero, Nat.add_zero] at hj'
    refine ⟨by rw [List.head?_cons, h.drew_unique hj' hj], ?_, fun n hn => ?_⟩
    · simp only [QueueState.setCall, toNat_succ hpos, Bounded.elems_pop, hlen, hel, List.tail_cons,
        List.length_cons]
      omega
    · simp only [Bounded.elems_pop, hel, List.tail_cons] at hn
      obtain ⟨l, hl⟩ := hf.elems (n + 1) (by simp [hel, hn])
      have hne : l ≠ i := by
        rintro rfl
        simp [hcall, QueueCall.drew] at hl
      refine ⟨l, ?_⟩
      simp only [QueueState.setCall, Function.update_of_ne hne, hl, toNat_succ hpos,
        Bounded.elems_pop, hel, List.tail_cons, List.getElem_cons_succ]
      rw [Nat.add_right_comm, Nat.add_assoc]

/-- Every step of a run below half the range is the linearization point of the call that wins its
ticket with it, and of no other call. -/
theorem linearizationPoints [Inhabited T] [DecidableEq T] (hk : 1 ≤ k) (hkw : k < w) :
    LinearizationPoints (queueSystem w k T ι) (fun _ s _ => PositionsBelow s) linearizes
      QueueState.performed Bounded.accept Holds Bounded.empty where
  init s hs := by
    obtain rfl := hs
    exact ⟨⟨rfl, nofun⟩, fun _ => rfl⟩
  silent {h s a s'} hr hpos hs hnone := by
    obtain ⟨r, hinv⟩ := ringInv_of_run hk hkw hr
    obtain ⟨r', hinv'⟩ := hinv.step hk hkw hpos hs
    obtain ⟨he, hd, i, hothers, hdrew, hperf⟩ := queueStep_silent hs hnone
    have hdrew' : ∀ j, (s'.calls j).drew = (s.calls j).drew := by
      intro j
      by_cases hj : j = i
      · rw [hj, hdrew]
      · rw [hothers j hj]
    refine ⟨fun f hf => ⟨by rw [he, hd, hf.length], fun n hn => ?_⟩, fun j => ?_⟩
    · obtain ⟨j, hj⟩ := hf.elems n hn
      exact ⟨j, by rw [hdrew', hd, hj]⟩
    · by_cases hj : j = i
      · rw [hj, hperf]
      · exact hinv.performed_congr hinv' hkw (fun x p hp => (hdrew' x).trans hp) (hothers j hj)
  effective {h s a s' i e} hr hpos hs hsome := by
    obtain ⟨r, hinv⟩ := ringInv_of_run hk hkw hr
    obtain ⟨r', hinv'⟩ := hinv.step hk hkw hpos hs
    have hw : 2 ^ (w - 1) < 2 ^ w := Nat.pow_lt_pow_right (by omega) (by omega)
    obtain ⟨henq, hdeq⟩ := hpos
    have hdrew : (s.calls i).drew = none → (∀ j, j ≠ i → s'.calls j = s.calls j) →
        ∀ j p, (s.calls j).drew = some p → (s'.calls j).drew = some p := by
      intro hi hothers j p hp
      have hne : j ≠ i := by rintro rfl; simp [hi] at hp
      rw [hothers j hne, hp]
    have hothers : ∀ (q : MpmcQueue w k T) c j, j ≠ i →
        (QueueState.setCall { s with queue := q } i c).calls j = s.calls j :=
      fun q c j hj => Function.update_of_ne hj ..
    rcases queueStep_effective hs hsome with ⟨data, rfl, hcall, rfl⟩ | ⟨rfl, hcall, rfl⟩
    · refine ⟨fun f hf => ?_, by rw [QueueState.performed, hcall]; rfl,
        by simp [QueueState.performed, QueueState.setCall, QueueCall.performed], fun j hj => ?_⟩
      · obtain ⟨hroom, hpush⟩ := hf.enqueue hinv (by omega) hcall
        exact ⟨_, f.accept_enqueued_true data hroom, hpush⟩
      · exact hinv.performed_congr hinv' hkw (hdrew (by rw [hcall]; rfl) (hothers _ _))
          (hothers _ _ j hj)
    · refine ⟨fun f hf => ?_, by rw [QueueState.performed, hcall]; rfl,
        by simp [QueueState.performed, QueueState.setCall, QueueCall.performed], fun j hj => ?_⟩
      · obtain ⟨hhead, hpop⟩ := hf.dequeue hinv hkw (by omega) hcall
        obtain ⟨xs, hxs⟩ := List.head?_eq_some_iff.mp hhead
        exact ⟨_, Bounded.accept_dequeued_some hxs, hpop⟩
      · exact hinv.performed_congr hinv' hkw (hdrew (by rw [hcall]; rfl) (hothers _ _))
          (hothers _ _ j hj)

end Step

/-- What a call that has returned `true` has answered. -/
def QueueCall.answered : QueueCall w T → Option (Event T)
  | .enqueue data (.returned _ true) => some (.enqueued data true)
  | .dequeue (.returned _ (some data)) => some (.dequeued (some data))
  | _ => none

/-- A call has answered what it performed. -/
theorem QueueState.performed_of_answered {s : QueueState w k T ι} {i : ι} {x : Event T}
    (h : (s.calls i).answered = some x) : s.performed i = some x := by
  unfold QueueCall.answered at h
  split at h <;> simp_all [QueueState.performed, QueueCall.performed]

/-- `mpmc_queue` is linearizable: in every run whose steps are taken with both positions below half
the range, the operations of the calls that have won their tickets can be put in an order in which
the bounded queue accepts all of them and afterwards holds what the ring holds; each of these calls
occurs once, every call that has returned `true` is one of them, with the answer it gave, and a call
that returned before another began comes before it. -/
theorem mpmcQueue_linearizable [Inhabited T] [DecidableEq T] [DecidableEq ι] (hk : 1 ≤ k)
    (hkw : k < w) {h : History (QueueState w k T ι) (QueueAction T ι)} {s : QueueState w k T ι}
    (hr : (queueSystem w k T ι).Run (fun _ s _ => PositionsBelow s) h s) :
    ∃ es : List (ι × Event T),
      (∃ f : Bounded T (2 ^ k), Bounded.empty.run (es.map Prod.snd) = some f ∧ Holds s f) ∧
      (es.map Prod.fst).Nodup ∧
      (∀ i x, (i, x) ∈ es ↔ s.performed i = some x) ∧
      (∀ i x, (s.calls i).answered = some x → (i, x) ∈ es) ∧
      (∀ e ∈ h, ∀ i x j y, (e.1.calls i).answered = some x → e.1.calls j = .notStarted →
        (j, y) ∈ es → [(i, x), (j, y)].Sublist es) := by
  have hp := linearizationPoints (T := T) (ι := ι) hk hkw
  refine ⟨h.effects linearizes, hp.legal hr, hp.nodup_calls hr, fun i x => hp.mem_effects_iff hr,
    fun i x hx => (hp.mem_effects_iff hr).mpr (QueueState.performed_of_answered hx),
    fun e he i x j y hi hj hy => ?_⟩
  refine hp.sublist_of_before hr he (QueueState.performed_of_answered hi) ?_
    ((hp.mem_effects_iff hr).mp hy)
  rw [QueueState.performed, hj]
  rfl

/-- The `dequeue` that overlaps two enqueues has its place in such an order. -/
theorem mpmcQueue_linearizable_overlapping :
    ∃ (s : QueueState 3 1 Bool ℕ) (es : List (ℕ × Event Bool)),
      (∃ f : Bounded Bool (2 ^ 1), Bounded.empty.run (es.map Prod.snd) = some f ∧ Holds s f) ∧
        (2, .dequeued (some false)) ∈ es := by
  have hrun : ∃ (h : History (QueueState 3 1 Bool ℕ) (QueueAction Bool ℕ))
      (s : QueueState 3 1 Bool ℕ),
      (queueSystem 3 1 Bool ℕ).Run (fun _ s _ => PositionsBelow s) h s ∧
        s.calls 2 = .dequeue (.returned 0 (some false)) :=
    System.exists_run_of_trace rfl overlappingCalls (by decide)
  obtain ⟨h, s, hr, hcall⟩ := hrun
  obtain ⟨es, hlegal, -, -, hanswered, -⟩ := mpmcQueue_linearizable (by decide) (by decide) hr
  exact ⟨s, es, hlegal, hanswered 2 _ (by rw [hcall]; rfl)⟩

end NomadTasks
