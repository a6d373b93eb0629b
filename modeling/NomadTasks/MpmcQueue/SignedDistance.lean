import NomadTasks.MpmcQueue.Truncate

/-!
# `mpmc_queue`: the signed subtraction

`enqueue` computes `(intptr_t)seq - (intptr_t)pos` and `dequeue` computes
`(intptr_t)seq - (intptr_t)(pos + 1)`: the words are made signed before they are subtracted, not
after. Two words that are close to each other then have a distance that is out of range when the
step from `2 ^ (w - 1) - 1` to `2 ^ (w - 1)` lies between them.

* `DistanceFits`: the exact difference of the next comparison of a call is an `intptr_t`.
* `AcrossSign`: the states in which it is not, by the kind of call: a cell that is not ready for the
  next position, just behind the step, or one that has gone over it while the call was overtaken.
* `signedDistance_fits_iff`: these are all, in runs in which no call is lapped.
* `signedDistance_overflows`: a run without overlapping calls reaches one.
-/

namespace NomadTasks

open Transition Ticket Fifo

variable {w k : ℕ} {T ι : Type}

/-- The operands of the subtraction that a call makes next: the sequence number of its cell, and
what its position waits for. -/
def QueueCall.operands (q : MpmcQueue w k T) : QueueCall w T → Option (BitVec w × BitVec w)
  | .enqueue _ (.loadSeq pos) => some ((q.buffer (cellIndex pos)).sequence, pos)
  | .dequeue (.loadSeq pos) => some ((q.buffer (cellIndex pos)).sequence, pos + 1#w)
  | _ => none

/-- `x` is a value of `intptr_t`. -/
def FitsIntptr (w : ℕ) (x : ℤ) : Prop := -2 ^ (w - 1) ≤ x ∧ x < 2 ^ (w - 1)

instance (x : ℤ) : Decidable (FitsIntptr w x) := inferInstanceAs (Decidable (_ ∧ _))

/-- The subtraction that call `i` makes next does not overflow. -/
def DistanceFits (s : QueueState w k T ι) (i : ι) : Prop :=
  ∀ e ∈ (s.calls i).operands s.queue, FitsIntptr w (e.1.toInt - e.2.toInt)

/-- `waited` is `m` past `seq`, and less than `m` past the step from `2 ^ (w - 1) - 1` to
`2 ^ (w - 1)`. -/
def BehindSign (seq waited : BitVec w) (m : ℕ) : Prop :=
  waited = seq + BitVec.ofNat w m ∧ (waited - BitVec.intMin w).toNat < m

/-- The step from `2 ^ (w - 1) - 1` to `2 ^ (w - 1)` lies between the two words, on the shorter way
from one to the other. -/
def NearSign (seq waited : BitVec w) : Prop :=
  ((waited - seq).toNat ≤ 2 ^ (w - 1) ∧
      (waited - BitVec.intMin w).toNat < (waited - seq).toNat) ∨
    ((seq - waited).toNat < 2 ^ (w - 1) ∧ (seq - BitVec.intMin w).toNat < (seq - waited).toNat)

/-- Call `i` is about to compare two words on both sides of the sign. At the next position the cell
is one that is not ready: for `enqueue` that of a full queue, which is almost one buffer behind, or
one buffer if its element is still being written; for `dequeue` that of an empty queue, which is one
behind, or one buffer if its last element is still being read. A call that has been overtaken may
also find its cell ahead. -/
def AcrossSign (s : QueueState w k T ι) (i : ι) : Prop :=
  match s.calls i with
  | .enqueue _ (.loadSeq pos) =>
      let seq := (s.queue.buffer (cellIndex pos)).sequence
      if s.queue.enqueuePos = pos then
        BehindSign seq pos (2 ^ k - 1) ∨ BehindSign seq pos (2 ^ k)
      else NearSign seq pos
  | .dequeue (.loadSeq pos) =>
      let seq := (s.queue.buffer (cellIndex pos)).sequence
      if s.queue.dequeuePos = pos then
        BehindSign seq (pos + 1#w) 1 ∨ BehindSign seq (pos + 1#w) (2 ^ k)
      else NearSign seq (pos + 1#w)
  | _ => False

instance (seq waited : BitVec w) (m : ℕ) : Decidable (BehindSign seq waited m) :=
  inferInstanceAs (Decidable (_ ∧ _))

instance (seq waited : BitVec w) : Decidable (NearSign seq waited) :=
  inferInstanceAs (Decidable (_ ∨ _))

/-! ## Differences of signed words -/

section Words

variable {seq waited : BitVec w} {m : ℕ}

/-- A signed word counts from the most negative one. -/
theorem toInt_eq_sub_intMin (hw : 0 < w) (x : BitVec w) :
    x.toInt = (x - BitVec.intMin w).toNat - 2 ^ (w - 1) := by
  have hhalf : 2 ^ w = 2 * 2 ^ (w - 1) := by rw [← pow_succ', Nat.sub_add_cancel hw]
  have hlt := x.isLt
  have hpow : ((2 ^ (w - 1) : ℕ) : ℤ) = 2 ^ (w - 1) := by push_cast; rfl
  rw [BitVec.toInt_eq_toNat_cond, BitVec.toNat_sub, BitVec.toNat_intMin_of_pos hw, ← hpow]
  split
  · rw [Nat.mod_eq_of_lt (by omega)]
    omega
  · rw [Nat.mod_eq_sub_mod (by omega), Nat.mod_eq_of_lt (by omega)]
    omega

/-- A difference of words by their distances from a third one. -/
theorem toNat_sub_sub (x y z : BitVec w) :
    (x - y).toNat = if (y - z).toNat ≤ (x - z).toNat then (x - z).toNat - (y - z).toNat
      else 2 ^ w + (x - z).toNat - (y - z).toNat := by
  have hx := (x - z).isLt
  have hy := (y - z).isLt
  have hsub : x - y = x - z - (y - z) := by rw [sub_sub_sub_cancel_right]
  rw [hsub, BitVec.toNat_sub]
  split
  · rw [Nat.mod_eq_sub_mod (by omega), Nat.mod_eq_of_lt (by omega)]
    omega
  · rw [Nat.mod_eq_of_lt (by omega)]
    omega

/-- A signed difference fits unless the sign changes on the shorter way between the words. -/
theorem fitsIntptr_iff_not_nearSign (hw : 0 < w) (seq waited : BitVec w) :
    FitsIntptr w (seq.toInt - waited.toInt) ↔ ¬ NearSign seq waited := by
  have hhalf : 2 ^ w = 2 * 2 ^ (w - 1) := by rw [← pow_succ', Nat.sub_add_cancel hw]
  have hpow : (2 ^ (w - 1) : ℤ) = ((2 ^ (w - 1) : ℕ) : ℤ) := by push_cast; rfl
  have hseq := (seq - BitVec.intMin w).isLt
  have hwaited := (waited - BitVec.intMin w).isLt
  rw [NearSign, toNat_sub_sub waited seq (BitVec.intMin w),
    toNat_sub_sub seq waited (BitVec.intMin w), FitsIntptr, toInt_eq_sub_intMin hw,
    toInt_eq_sub_intMin hw, hpow]
  generalize (seq - BitVec.intMin w).toNat = a at *
  generalize (waited - BitVec.intMin w).toNat = b at *
  split <;> split <;> omega

/-- Behind by `m`, the sign changes in between when it changed less than `m` ago. -/
theorem nearSign_iff_behindSign (hkw : k < w) (hm : m ≤ 2 ^ k)
    (hwaited : waited = seq + BitVec.ofNat w m) :
    NearSign seq waited ↔ BehindSign seq waited m := by
  have hhalf : 2 ^ w = 2 * 2 ^ (w - 1) := by rw [← pow_succ', Nat.sub_add_cancel (by omega)]
  have hsize : 2 ^ k ≤ 2 ^ (w - 1) := Nat.pow_le_pow_right (by omega) (by omega)
  have hpos : 0 < 2 ^ (w - 1) := Nat.two_pow_pos _
  have hbehind : (waited - seq).toNat = m := by
    rw [hwaited, add_sub_cancel_left, BitVec.toNat_ofNat, Nat.mod_eq_of_lt (by omega)]
  have hahead : (seq - waited).toNat = if m = 0 then 0 else 2 ^ w - m := by
    rw [toNat_sub_sub seq waited seq, BitVec.sub_self, BitVec.toNat_zero, hbehind]
    split <;> split <;> omega
  rw [NearSign, BehindSign, hbehind]
  constructor
  · rintro (⟨_, hlt⟩ | ⟨hlt, hlt'⟩)
    · exact ⟨hwaited, hlt⟩
    · split at hahead <;> omega
  · rintro ⟨_, hlt⟩
    exact .inl ⟨by omega, hlt⟩

/-- A word is behind another by one distance only. -/
theorem BehindSign.eq {m' : ℕ} (h : BehindSign seq waited m')
    (hwaited : waited = seq + BitVec.ofNat w m) (hm : m < 2 ^ w) (hm' : m' < 2 ^ w) : m' = m := by
  have heq : BitVec.ofNat w m' = BitVec.ofNat w m := add_left_cancel (h.1.symm.trans hwaited)
  have hnat := congrArg BitVec.toNat heq
  rwa [BitVec.toNat_ofNat, BitVec.toNat_ofNat, Nat.mod_eq_of_lt hm', Nat.mod_eq_of_lt hm] at hnat

/-- If the only distances behind are `0`, `m` and `m'`, the sign changes in between when it changed
less than that distance ago. -/
theorem nearSign_iff_of_behind {m' n : ℕ} (hkw : k < w) (hm : 0 < m) (hle : m ≤ 2 ^ k)
    (hm' : 0 < m') (hle' : m' ≤ 2 ^ k) (hn : n = 0 ∨ n = m ∨ n = m')
    (hwaited : waited = seq + BitVec.ofNat w n) :
    NearSign seq waited ↔ BehindSign seq waited m ∨ BehindSign seq waited m' := by
  have hpow : 2 ^ k < 2 ^ w := Nat.pow_lt_pow_right (by omega) hkw
  rw [nearSign_iff_behindSign hkw (by omega) hwaited]
  constructor
  · intro h
    rcases hn with rfl | rfl | rfl
    · exact absurd h.2 (Nat.not_lt_zero _)
    · exact .inl h
    · exact .inr h
  · rintro (h | h)
    · rwa [← h.eq hwaited (by omega) (by omega)]
    · rwa [← h.eq hwaited (by omega) (by omega)]

end Words

/-! ## How far behind the cell of the next position is -/

section Ring

variable {s : QueueState w k T ι} {r : Ring k}

/-- The cell of the enqueue position is ready; or it still holds the element of one buffer earlier,
or waits for it. -/
theorem RingInv.enq_eq_seq_add (h : RingInv s r) (hk : 1 ≤ k) :
    ∃ n, (n = 0 ∨ n = 2 ^ k - 1 ∨ n = 2 ^ k) ∧
      s.queue.enqueuePos.toNat = r.seq (ringIndex k s.queue.enqueuePos.toNat) + n := by
  have hsize : 2 ≤ 2 ^ k := Nat.le_self_pow (by omega) 2
  have hle := h.seq_le_enq
  have hge := h.le_seq_of_enq le_rfl
  have hindex := h.index (ringIndex k s.queue.enqueuePos.toNat)
  have hfull := Bool.toNat_le (r.full (ringIndex k s.queue.enqueuePos.toNat))
  unfold Ring.seq at hle hge ⊢
  generalize r.cur (ringIndex k s.queue.enqueuePos.toNat) = t at *
  rcases Nat.lt_or_ge t s.queue.enqueuePos.toNat with hlt | hready
  -- the ticket of the cell is the one of one buffer earlier
  · have hearlier := add_le_of_ringIndex_eq hindex hlt
    have heq : s.queue.enqueuePos.toNat = t + 2 ^ k := by
      refine le_antisymm (not_lt.mp fun hmore => ?_) hearlier
      have := add_le_of_ringIndex_eq ((ringIndex_add_size t).trans hindex) hmore
      omega
    cases hx : r.full (ringIndex k s.queue.enqueuePos.toNat) with
    | true => exact ⟨2 ^ k - 1, .inr (.inl rfl), by rw [Bool.toNat_true]; omega⟩
    | false => exact ⟨2 ^ k, .inr (.inr rfl), by rw [Bool.toNat_false]; omega⟩
  · exact ⟨0, .inl rfl, by omega⟩

/-- The cell of the dequeue position is ready; or it waits for its element, or still holds the one
of one buffer earlier. -/
theorem RingInv.deq_eq_seq_add (h : RingInv s r) (hk : 1 ≤ k) :
    ∃ n, (n = 0 ∨ n = 1 ∨ n = 2 ^ k) ∧
      s.queue.dequeuePos.toNat + 1 = r.seq (ringIndex k s.queue.dequeuePos.toNat) + n := by
  have hsize : 2 ≤ 2 ^ k := Nat.le_self_pow (by omega) 2
  have hle := h.seq_le_deq
  have hge := h.le_seq_of_deq le_rfl
  have hindex := h.index (ringIndex k s.queue.dequeuePos.toNat)
  have hfull := Bool.toNat_le (r.full (ringIndex k s.queue.dequeuePos.toNat))
  unfold Ring.seq at hle hge ⊢
  generalize r.cur (ringIndex k s.queue.dequeuePos.toNat) = t at *
  rcases Nat.lt_trichotomy t s.queue.dequeuePos.toNat with hlt | heq | hlater
  -- the element of one buffer earlier has not been released
  · have hearlier := add_le_of_ringIndex_eq hindex hlt
    exact ⟨2 ^ k, .inr (.inr rfl), by omega⟩
  · cases hx : r.full (ringIndex k s.queue.dequeuePos.toNat) with
    | true => exact ⟨0, .inl rfl, by rw [Bool.toNat_true, heq]⟩
    | false => exact ⟨1, .inr (.inl rfl), by rw [Bool.toNat_false, heq, Nat.add_zero]⟩
  · have := add_le_of_ringIndex_eq hindex.symm hlater
    omega

section Follows

variable {W : ℕ} {s : QueueState w k T ι} {S : QueueState W k T ι} {r : Ring k}

/-- The same over words that wrap: `enqueue`. -/
theorem QueueState.Follows.enq_eq_seq_add (h : s.Follows S) (hinv : RingInv S r) (hk : 1 ≤ k)
    (hkw : k < w) (hwW : w < W) :
    ∃ n, (n = 0 ∨ n = 2 ^ k - 1 ∨ n = 2 ^ k) ∧ s.queue.enqueuePos =
      (s.queue.buffer (cellIndex s.queue.enqueuePos)).sequence + BitVec.ofNat w n := by
  obtain ⟨n, hn, heq⟩ := hinv.enq_eq_seq_add hk
  refine ⟨n, hn, ?_⟩
  rw [h.queue]
  simp only [MpmcQueue.truncate, Cell.truncate, cellIndex_truncate hkw hwW,
    cellIndex_eq_ringIndex (hkw.trans hwW), hinv.seq, BitVec.setWidth_ofNat_of_le hwW.le]
  rw [← BitVec.ofNat_add, ← heq, BitVec.ofNat_toNat]

/-- The same over words that wrap: `dequeue`. -/
theorem QueueState.Follows.deq_eq_seq_add (h : s.Follows S) (hinv : RingInv S r) (hk : 1 ≤ k)
    (hkw : k < w) (hwW : w < W) :
    ∃ n, (n = 0 ∨ n = 1 ∨ n = 2 ^ k) ∧ s.queue.dequeuePos + 1#w =
      (s.queue.buffer (cellIndex s.queue.dequeuePos)).sequence + BitVec.ofNat w n := by
  obtain ⟨n, hn, heq⟩ := hinv.deq_eq_seq_add hk
  refine ⟨n, hn, ?_⟩
  rw [h.queue]
  simp only [MpmcQueue.truncate, Cell.truncate, cellIndex_truncate hkw hwW,
    cellIndex_eq_ringIndex (hkw.trans hwW), hinv.seq, BitVec.setWidth_ofNat_of_le hwW.le]
  rw [← BitVec.ofNat_add, ← heq, NomadTasks.ofNat_succ S.queue.dequeuePos.toNat,
    BitVec.ofNat_toNat]

/-- Which calls are about to overflow. -/
theorem QueueState.Follows.distanceFits_iff (h : s.Follows S) (hinv : RingInv S r) (hk : 1 ≤ k)
    (hkw : k < w) (hwW : w < W) (i : ι) : DistanceFits s i ↔ ¬ AcrossSign s i := by
  have hsize : 2 ≤ 2 ^ k := Nat.le_self_pow (by omega) 2
  have hw : 0 < w := by omega
  unfold DistanceFits AcrossSign
  cases s.calls i with
  | notStarted => simp [QueueCall.operands]
  | enqueue data pc =>
    cases pc with
    | loadSeq pos =>
      simp only [QueueCall.operands, Option.mem_some_iff, forall_eq',
        fitsIntptr_iff_not_nearSign hw]
      split
      · next hnext =>
        obtain ⟨n, hn, heq⟩ := h.enq_eq_seq_add hinv hk hkw hwW
        rw [hnext] at heq
        rw [nearSign_iff_of_behind hkw (by omega) (by omega) (by omega) le_rfl hn heq]
      · rfl
    | _ => simp [QueueCall.operands]
  | dequeue pc =>
    cases pc with
    | loadSeq pos =>
      simp only [QueueCall.operands, Option.mem_some_iff, forall_eq',
        fitsIntptr_iff_not_nearSign hw]
      split
      · next hnext =>
        obtain ⟨n, hn, heq⟩ := h.deq_eq_seq_add hinv hk hkw hwW
        rw [hnext] at heq
        rw [nearSign_iff_of_behind hkw one_pos (by omega) (by omega) le_rfl hn heq]
      · rfl
    | _ => simp [QueueCall.operands]

end Follows

end Ring

/-- In every state of every run in which no call is lapped, however often the words have wrapped:
the signed subtractions that are made next fit unless one is made across the sign. -/
theorem signedDistance_fits_iff [DecidableEq ι] [Inhabited T] (hk : 1 ≤ k) (hkw : k < w)
    {h : History (QueueState w k T ι) (QueueAction T ι)} {s : QueueState w k T ι}
    (hr : (queueSystem w k T ι).Run (fun _ s _ => NotLapped s) h s) :
    (∀ i, DistanceFits s i) ↔ ∀ i, ¬ AcrossSign s i := by
  obtain ⟨W, S, r, hwW, hfollows, hinv, -⟩ := follows_ringInv_of_run hk hkw hr
  exact forall_congr' fun i => hfollows.distanceFits_iff hinv hk hkw hwW i

/-- An `enqueue` and a `dequeue` over two-bit words, then a `dequeue` that finds the queue empty. -/
def emptyAtSign (ι : Type) [OfNat ι 0] [OfNat ι 1] [OfNat ι 2] : List (QueueAction Bool ι) :=
  .beginEnqueue 0 true :: List.replicate 5 (.step 0 false) ++
    .beginDequeue 1 :: List.replicate 5 (.step 1 false) ++ [.beginDequeue 2, .step 2 false]

/-- It computes `1 - (-2)`. -/
theorem signedDistance_fits_iff_empty :
    ∃ (h : History (QueueState 2 1 Bool (Fin 3)) (QueueAction Bool (Fin 3)))
      (s : QueueState 2 1 Bool (Fin 3)),
      (queueSystem 2 1 Bool (Fin 3)).Run (fun _ s _ => NotLapped s) h s ∧
        (s.calls 2).operands s.queue = some (1#2, 2#2) ∧
          ((∀ i, DistanceFits s i) ↔ ∀ i, ¬ AcrossSign s i) := by
  have hrun : ∃ (h : History (QueueState 2 1 Bool (Fin 3)) (QueueAction Bool (Fin 3)))
      (s : QueueState 2 1 Bool (Fin 3)),
      (queueSystem 2 1 Bool (Fin 3)).Run (fun _ s _ => NotLapped s) h s ∧
        (s.calls 2).operands s.queue = some (1#2, 2#2) :=
    System.exists_run_of_trace rfl (emptyAtSign (Fin 3)) (by decide +kernel)
  obtain ⟨h, s, hr, hoperands⟩ := hrun
  exact ⟨h, s, hr, hoperands, signedDistance_fits_iff (by decide) (by decide) hr⟩

/-! ## A run that overflows -/

section Overflow

/-- The state in which call `i` has taken the queue to `q` and has become `c`. -/
def QueueState.moved [DecidableEq ι] (s : QueueState w k T ι) (i : ι) (q : MpmcQueue w k T)
    (c : QueueCall w T) : QueueState w k T ι := { s with queue := q }.setCall i c

section Path

variable [DecidableEq ι] {s : QueueState w k T ι} {i : ι} {data : T}

/-- The other calls have not moved. -/
theorem QueueState.moved_calls_of_ne {j : ι} (q : MpmcQueue w k T) (c : QueueCall w T)
    (hj : j ≠ i) : (s.moved i q c).calls j = s.calls j := Function.update_of_ne hj ..

/-- A call of `enqueue` can start. -/
theorem reachable_beginEnqueue [Inhabited T] (hs : (queueSystem w k T ι).Reachable s)
    (hfree : s.calls i = .notStarted) (data : T) :
    (queueSystem w k T ι).Reachable (s.moved i s.queue (.enqueue data .loadPos)) := by
  have hbegin : queueStep s (.beginEnqueue i data) =
      some (s.moved i s.queue (.enqueue data .loadPos)) := by
    simp [queueStep, hfree, QueueState.moved]
  exact hs.step (a := .beginEnqueue i data) hbegin

/-- A call of `dequeue` can start. -/
theorem reachable_beginDequeue [Inhabited T] (hs : (queueSystem w k T ι).Reachable s)
    (hfree : s.calls i = .notStarted) :
    (queueSystem w k T ι).Reachable (s.moved i s.queue (.dequeue .loadPos)) := by
  have hbegin : queueStep s (.beginDequeue i) =
      some (s.moved i s.queue (.dequeue .loadPos)) := by
    simp [queueStep, hfree, QueueState.moved]
  exact hs.step (a := .beginDequeue i) hbegin

/-- A step of an undisturbed `enqueue` is one of the interleaving, or stays where it is. -/
theorem EnqStepRel.queueStep {c c' : MpmcQueue w k T × EnqPc w} (hc : EnqStepRel data c c')
    (hq : s.queue = c.1) (hcall : s.calls i = .enqueue data c.2) :
    c' = c ∨ ∃ a, NomadTasks.queueStep s a = some (s.moved i c'.1 (.enqueue data c'.2)) := by
  obtain ⟨q, pc⟩ := c
  obtain ⟨spurious, rfl⟩ := hc
  obtain rfl : s.queue = q := hq
  by_cases hret : ∃ p b, pc = .returned p b
  · obtain ⟨p, b, rfl⟩ := hret
    exact .inl rfl
  · exact .inr ⟨_, queueStep_enqueue hcall fun p b hp => hret ⟨p, b, hp⟩⟩

/-- A step of an undisturbed `dequeue` is one of the interleaving, or stays where it is. -/
theorem DeqStepRel.queueStep {c c' : MpmcQueue w k T × DeqPc w T} (hc : DeqStepRel c c')
    (hq : s.queue = c.1) (hcall : s.calls i = .dequeue c.2) :
    c' = c ∨ ∃ a, NomadTasks.queueStep s a = some (s.moved i c'.1 (.dequeue c'.2)) := by
  obtain ⟨q, pc⟩ := c
  obtain ⟨spurious, rfl⟩ := hc
  obtain rfl : s.queue = q := hq
  by_cases hret : ∃ p b, pc = .returned p b
  · obtain ⟨p, b, rfl⟩ := hret
    exact .inl rfl
  · exact .inr ⟨_, queueStep_dequeue hcall fun p b hp => hret ⟨p, b, hp⟩⟩

/-- Steps of call `i` alone, given as steps of the queue and of its program point. -/
theorem reachable_of_path [Inhabited T] {Pc : Type}
    {R : MpmcQueue w k T × Pc → MpmcQueue w k T × Pc → Prop} {call : Pc → QueueCall w T}
    (hR : ∀ c c', R c c' → ∀ s : QueueState w k T ι, s.queue = c.1 → s.calls i = call c.2 →
      c' = c ∨ ∃ a, queueStep s a = some (s.moved i c'.1 (call c'.2)))
    {c c' : MpmcQueue w k T × Pc} (hpath : Relation.ReflTransGen R c c')
    (hs : (queueSystem w k T ι).Reachable (s.moved i c.1 (call c.2))) :
    (queueSystem w k T ι).Reachable (s.moved i c'.1 (call c'.2)) := by
  induction hpath with
  | refl => exact hs
  | @tail c₁ c₂ _ hstep ih =>
    have hnow := hR c₁ c₂ hstep (s.moved i c₁.1 (call c₁.2)) rfl
      (QueueState.setCall_calls_self ..)
    rcases hnow with rfl | ⟨a, ha⟩
    · exact ih
    · have hmoved : (s.moved i c₁.1 (call c₁.2)).moved i c₂.1 (call c₂.2) =
          s.moved i c₂.1 (call c₂.2) := by
        simp [QueueState.moved, QueueState.setCall]
      rw [hmoved] at ha
      exact ih.step ha

end Path

/-- Every run without overlapping calls is a run of the interleaving, in which it leaves room for
further calls. -/
theorem SequentialRun.reachable [Inhabited T] {es : List (Event T)} {q : MpmcQueue w k T}
    (hr : SequentialRun es q) :
    ∃ (s : QueueState w k T ℕ) (n : ℕ), (queueSystem w k T ℕ).Reachable s ∧ s.queue = q ∧
      ∀ i, n ≤ i → s.calls i = .notStarted := by
  induction hr with
  | init => exact ⟨_, 0, .of_init rfl, rfl, fun _ _ => rfl⟩
  | @enqueue es q q' data result _ hc ih =>
    obtain ⟨s, n, hs, rfl, hfree⟩ := ih
    obtain ⟨pos, hpath⟩ := hc
    have hstart := reachable_beginEnqueue hs (hfree n le_rfl) data
    refine ⟨_, n + 1, reachable_of_path (fun c c' hR s hq hcall => hR.queueStep hq hcall) hpath
      hstart, rfl, fun i hi => ?_⟩
    rw [QueueState.moved_calls_of_ne _ _ (by omega), hfree i (by omega)]
  | @dequeue es q q' result _ hc ih =>
    obtain ⟨s, n, hs, rfl, hfree⟩ := ih
    obtain ⟨pos, hpath⟩ := hc
    have hstart := reachable_beginDequeue hs (hfree n le_rfl)
    refine ⟨_, n + 1, reachable_of_path (fun c c' hR s hq hcall => hR.queueStep hq hcall) hpath
      hstart, rfl, fun i hi => ?_⟩
    rw [QueueState.moved_calls_of_ne _ _ (by omega), hfree i (by omega)]

/-- `d` elements put in and taken out, one after the other. -/
theorem exists_sequentialRun_empty [Inhabited T] (hk : 1 ≤ k) (hkw : k < w) (d : ℕ) :
    ∃ (es : List (Event T)) (q : MpmcQueue w k T), SequentialRun es q ∧
      Represents q Bounded.empty d := by
  induction d with
  | zero => exact ⟨[], _, .init, represents_init⟩
  | succ d ih =>
    obtain ⟨es, q, hr, hrep⟩ := ih
    have hroom : (Bounded.empty : Bounded T (2 ^ k)).elems.length < 2 ^ k := Nat.two_pow_pos k
    have hput : EnqueueCompletes q default true (q.enqueued default) :=
      (enqueueCompletes_iff hrep hk hkw).mpr (.inl ⟨rfl, hroom, rfl⟩)
    have hstored := hrep.enqueued hkw default hroom
    have htake : DequeueCompletes (q.enqueued default) (some default)
        (q.enqueued default).dequeued :=
      (dequeueCompletes_iff hstored hk hkw).mpr (.inl ⟨default, rfl, rfl, rfl⟩)
    exact ⟨_, _, .dequeue (.enqueue hr hput) htake, hstored.dequeued hkw (by simp)⟩

/-- When as many elements as fit half the range have been put in and taken out, less one, a
`dequeue` that finds the queue empty makes the greatest difference there is. -/
theorem exists_operands_empty [Inhabited T] (hk : 1 ≤ k) (hkw : k < w) :
    ∃ (s : QueueState w k T ℕ) (i : ℕ), (queueSystem w k T ℕ).Reachable s ∧
      (s.calls i).operands s.queue =
        some (BitVec.ofNat w (2 ^ (w - 1) - 1), BitVec.ofNat w (2 ^ (w - 1))) := by
  obtain ⟨es, q, hr, hrep⟩ := exists_sequentialRun_empty (T := T) hk hkw (2 ^ (w - 1) - 1)
  obtain ⟨s, n, hs, rfl, hfree⟩ := hr.reachable
  have hload : queueStep (s.moved n s.queue (.dequeue .loadPos)) (.step n false) =
      some (s.moved n s.queue (.dequeue (.loadSeq s.queue.dequeuePos))) := by
    simp [queueStep, QueueState.moved, QueueState.setCall, deqStep]
  have hstart := reachable_beginDequeue hs (hfree n le_rfl)
  have hloaded : (queueSystem w k T ℕ).Reachable
      (s.moved n s.queue (.dequeue (.loadSeq s.queue.dequeuePos))) :=
    hstart.step (a := .step n false) hload
  have hpos : 0 < 2 ^ (w - 1) := Nat.two_pow_pos _
  refine ⟨_, n, hloaded, ?_⟩
  have hcell := hrep.free 0 (by simp) (Nat.two_pow_pos k)
  rw [Nat.add_zero] at hcell
  simp only [QueueState.moved, QueueState.setCall_calls_self, QueueState.setCall_queue,
    QueueCall.operands, hrep.dequeuePos, cellIndex_ofNat hkw, hcell]
  rw [← NomadTasks.ofNat_succ, Nat.sub_add_cancel hpos]

/-- The subtraction overflows in both builds, with the default queue for jobs of high priority: when
`2 ^ (w - 1) - 1` jobs have been put in and taken out, one after the other, and the next `dequeue`
finds the queue empty. -/
theorem signedDistance_overflows :
    (∃ (s : QueueState 32 9 Bool ℕ) (i : ℕ), (queueSystem 32 9 Bool ℕ).Reachable s ∧
      (s.calls i).operands s.queue = some (0x7fffffff#32, 0x80000000#32) ∧ ¬ DistanceFits s i) ∧
    ∃ (s : QueueState 64 9 Bool ℕ) (i : ℕ), (queueSystem 64 9 Bool ℕ).Reachable s ∧
      (s.calls i).operands s.queue = some (0x7fffffffffffffff#64, 0x8000000000000000#64) ∧
        ¬ DistanceFits s i := by
  obtain ⟨s, i, hs, hoperands⟩ := exists_operands_empty (w := 32) (k := 9) (T := Bool) (by decide)
    (by decide)
  obtain ⟨s', i', hs', hoperands'⟩ := exists_operands_empty (w := 64) (k := 9) (T := Bool)
    (by decide) (by decide)
  refine ⟨⟨s, i, hs, hoperands, fun hfits => ?_⟩, ⟨s', i', hs', hoperands', fun hfits => ?_⟩⟩
  · exact absurd (hfits _ hoperands) (by decide)
  · exact absurd (hfits _ hoperands') (by decide)

end Overflow

end NomadTasks
