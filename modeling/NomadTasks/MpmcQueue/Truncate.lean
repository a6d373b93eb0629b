import NomadTasks.MpmcQueue.Alone

/-!
# `mpmc_queue`: words that wrap

The invariant of the interleaving speaks of positions that do not wrap. A run in which they do is
the truncation of a run over wider words, in which they do not, as long as no call is lapped: the
word of its position must not come round again while it is in its loop. So what the invariant says
of the wider run holds of the run itself, modulo `2 ^ w`.

* `QueueState.Follows s S`: `s` is the truncation of `S`, up to calls that gave up for good because
  the wrapped difference was negative where the unwrapped one is not.
* `NotLapped`: no call in its loop has been overtaken by nearly `2 ^ w` calls of its kind.
* `QueueState.Follows.step`: a step over `w`-bit words is a step over wider ones.
* `exists_wide_run`: every run in which no call is lapped follows a run without wrapping.
-/

namespace NomadTasks

open Transition Ticket

variable {w W k : ℕ} {T ι : Type}

/-! ## Truncation -/

/-- The cell with its sequence number cut to `w` bits. -/
def Cell.truncate (w : ℕ) (c : Cell W T) : Cell w T :=
  { sequence := c.sequence.setWidth w, data := c.data }

/-- The queue with every word cut to `w` bits. -/
def MpmcQueue.truncate (w : ℕ) (q : MpmcQueue W k T) : MpmcQueue w k T where
  buffer i := (q.buffer i).truncate w
  enqueuePos := q.enqueuePos.setWidth w
  dequeuePos := q.dequeuePos.setWidth w

/-- The program point with its position cut to `w` bits. -/
def EnqPc.truncate (w : ℕ) : EnqPc W → EnqPc w
  | .loadPos => .loadPos
  | .loadSeq pos => .loadSeq (pos.setWidth w)
  | .cas pos => .cas (pos.setWidth w)
  | .copy pos => .copy (pos.setWidth w)
  | .store pos => .store (pos.setWidth w)
  | .returned pos result => .returned (pos.setWidth w) result

@[inherit_doc EnqPc.truncate]
def DeqPc.truncate (w : ℕ) : DeqPc W T → DeqPc w T
  | .loadPos => .loadPos
  | .loadSeq pos => .loadSeq (pos.setWidth w)
  | .cas pos => .cas (pos.setWidth w)
  | .copy pos => .copy (pos.setWidth w)
  | .store pos data => .store (pos.setWidth w) data
  | .returned pos result => .returned (pos.setWidth w) result

/-- A call over `w`-bit words follows one over wider words: it is its truncation, or it returned
without an element where the other one goes round its loop again. -/
inductive QueueCall.Follows : QueueCall w T → QueueCall W T → Prop
  | notStarted : Follows .notStarted .notStarted
  | enqueue (data : T) (pc : EnqPc W) : Follows (.enqueue data (pc.truncate w)) (.enqueue data pc)
  | dequeue (pc : DeqPc W T) : Follows (.dequeue (pc.truncate w)) (.dequeue pc)
  | enqueueGaveUp (data : T) (pos : BitVec w) :
      Follows (.enqueue data (.returned pos false)) (.enqueue data .loadPos)
  | dequeueGaveUp (pos : BitVec w) : Follows (.dequeue (.returned pos none)) (.dequeue .loadPos)

/-- The state over `w`-bit words follows the one over wider words. -/
structure QueueState.Follows (s : QueueState w k T ι) (S : QueueState W k T ι) : Prop where
  queue : s.queue = S.queue.truncate w
  calls : ∀ i, (s.calls i).Follows (S.calls i)

/-- By how many calls of its kind a call in its loop has been overtaken since it loaded its
position, modulo `2 ^ w`. -/
def QueueCall.lag (q : MpmcQueue w k T) : QueueCall w T → ℕ
  | .enqueue _ (.loadSeq pos) | .enqueue _ (.cas pos) => (q.enqueuePos - pos).toNat
  | .dequeue (.loadSeq pos) | .dequeue (.cas pos) => (q.dequeuePos - pos).toNat
  | _ => 0

/-- No call in its loop has been overtaken by more than `2 ^ w - 2 ^ k` calls of its kind. -/
def NotLapped (s : QueueState w k T ι) : Prop := ∀ i, (s.calls i).lag s.queue + 2 ^ k ≤ 2 ^ w

instance [Fintype ι] (s : QueueState w k T ι) : Decidable (NotLapped s) :=
  inferInstanceAs (Decidable (∀ i, (s.calls i).lag s.queue + 2 ^ k ≤ 2 ^ w))

section Truncate

variable {q : MpmcQueue W k T}

/-- Cutting a position keeps its cell. -/
theorem cellIndex_truncate (hkw : k < w) (hwW : w < W) (pos : BitVec W) :
    (cellIndex (pos.setWidth w) : Fin (2 ^ k)) = cellIndex pos := by
  rw [cellIndex_eq_ringIndex hkw, cellIndex_eq_ringIndex (hkw.trans hwW), BitVec.toNat_setWidth]
  exact Fin.ext (Nat.mod_mod_of_dvd _ (Nat.pow_dvd_pow 2 hkw.le))

theorem setWidth_succ (hwW : w < W) (pos : BitVec W) :
    (pos + 1#W).setWidth w = pos.setWidth w + 1#w := by
  rw [BitVec.setWidth_add _ _ hwW.le, BitVec.setWidth_ofNat_of_le hwW.le]

/-- Cutting commutes with wrapped differences. -/
theorem setWidth_sub (hwW : w < W) (x y : BitVec W) :
    (x - y).setWidth w = x.setWidth w - y.setWidth w := by
  have hadd : (x - y).setWidth w + y.setWidth w = x.setWidth w := by
    rw [← BitVec.setWidth_add _ _ hwW.le, BitVec.sub_add_cancel]
  rw [← hadd, BitVec.add_sub_cancel]

theorem setWidth_bufferMask (hwW : w < W) :
    (bufferMask W k).setWidth w = bufferMask w k := by
  rw [bufferMask, setWidth_sub hwW, BitVec.setWidth_ofNat_of_le hwW.le,
    BitVec.setWidth_ofNat_of_le hwW.le, bufferMask]

@[simp] theorem truncate_setData (i : Fin (2 ^ k)) (data : T) :
    (q.setData i data).truncate w = (q.truncate w).setData i data := by
  refine MpmcQueue.ext (funext fun j => ?_) rfl rfl
  by_cases hj : j = i
  · subst hj
    simp [MpmcQueue.truncate, Cell.truncate]
  · simp [MpmcQueue.truncate, hj]

@[simp] theorem truncate_setSequence (i : Fin (2 ^ k)) (seq : BitVec W) :
    (q.setSequence i seq).truncate w = (q.truncate w).setSequence i (seq.setWidth w) := by
  refine MpmcQueue.ext (funext fun j => ?_) rfl rfl
  by_cases hj : j = i
  · subst hj
    simp [MpmcQueue.truncate, Cell.truncate]
  · simp [MpmcQueue.truncate, hj]

end Truncate

/-! ## How far a call has been overtaken -/

section Lag

variable {q q' : MpmcQueue w k T}

theorem toNat_add_one_le (x : BitVec w) : (x + 1#w).toNat ≤ x.toNat + 1 := by
  rw [BitVec.toNat_add, BitVec.toNat_ofNat]
  exact (Nat.mod_le _ _).trans (Nat.add_le_add_left (Nat.mod_le _ _) _)

/-- A call falls behind by at most one when a position advances by at most one. -/
theorem QueueCall.lag_le (henq : q'.enqueuePos = q.enqueuePos ∨ q'.enqueuePos = q.enqueuePos + 1#w)
    (hdeq : q'.dequeuePos = q.dequeuePos ∨ q'.dequeuePos = q.dequeuePos + 1#w)
    (c : QueueCall w T) : c.lag q' ≤ c.lag q + 1 := by
  have hle : ∀ {x x' : BitVec w} (pos : BitVec w), x' = x ∨ x' = x + 1#w →
      (x' - pos).toNat ≤ (x - pos).toNat + 1 := by
    rintro x x' pos (rfl | rfl)
    · exact Nat.le_succ _
    · rw [add_sub_right_comm]
      exact toNat_add_one_le _
  cases c with
  | notStarted => exact Nat.zero_le _
  | enqueue data pc =>
    cases pc with
    | loadSeq | cas => exact hle _ henq
    | _ => exact Nat.zero_le _
  | dequeue pc =>
    cases pc with
    | loadSeq | cas => exact hle _ hdeq
    | _ => exact Nat.zero_le _

/-- `enqueue` moves no position but its own, and that by at most one. -/
theorem enqStep_positions (q : MpmcQueue w k T) (data : T) (spurious : Bool) (pc : EnqPc w) :
    ((enqStep q data spurious pc).1.enqueuePos = q.enqueuePos ∨
        (enqStep q data spurious pc).1.enqueuePos = q.enqueuePos + 1#w) ∧
      (enqStep q data spurious pc).1.dequeuePos = q.dequeuePos := by
  fun_cases enqStep q data spurious pc with
  | case5 pos hwin => exact ⟨.inr (by rw [hwin.1]), rfl⟩
  | _ => exact ⟨.inl rfl, rfl⟩

/-- `dequeue` moves no position but its own, and that by at most one. -/
theorem deqStep_positions (q : MpmcQueue w k T) (spurious : Bool) (pc : DeqPc w T) :
    (deqStep q spurious pc).1.enqueuePos = q.enqueuePos ∧
      ((deqStep q spurious pc).1.dequeuePos = q.dequeuePos ∨
        (deqStep q spurious pc).1.dequeuePos = q.dequeuePos + 1#w) := by
  fun_cases deqStep q spurious pc with
  | case5 pos hwin => exact ⟨rfl, .inr (by rw [hwin.1])⟩
  | _ => exact ⟨rfl, .inl rfl⟩

/-- A position that an `enqueue` call loads is the one that is next. -/
theorem enqStep_lag (q : MpmcQueue w k T) (data : T) (spurious : Bool) (pc : EnqPc w) :
    (QueueCall.enqueue data (enqStep q data spurious pc).2 : QueueCall w T).lag
      (enqStep q data spurious pc).1 ≤ (QueueCall.enqueue data pc : QueueCall w T).lag q := by
  fun_cases enqStep q data spurious pc <;> simp [QueueCall.lag]

/-- A position that a `dequeue` call loads is the one that is next. -/
theorem deqStep_lag (q : MpmcQueue w k T) (spurious : Bool) (pc : DeqPc w T) :
    (QueueCall.dequeue (deqStep q spurious pc).2 : QueueCall w T).lag (deqStep q spurious pc).1 ≤
      (QueueCall.dequeue pc : QueueCall w T).lag q := by
  fun_cases deqStep q spurious pc <;> simp [QueueCall.lag]

variable [DecidableEq ι]

/-- One step of the interleaving advances each position by at most one. -/
theorem queueStep_positions {s s' : QueueState w k T ι} {a : QueueAction T ι}
    (hs : queueStep s a = some s') :
    (s'.queue.enqueuePos = s.queue.enqueuePos ∨
        s'.queue.enqueuePos = s.queue.enqueuePos + 1#w) ∧
      (s'.queue.dequeuePos = s.queue.dequeuePos ∨
        s'.queue.dequeuePos = s.queue.dequeuePos + 1#w) := by
  cases a with
  | beginEnqueue i data | beginDequeue i =>
    simp only [queueStep] at hs
    split at hs <;> cases hs
    exact ⟨.inl rfl, .inl rfl⟩
  | step i spurious =>
    simp only [queueStep] at hs
    split at hs
    · cases hs
    · cases hs
    · cases hs
    · next data pc _ _ =>
      cases hs
      obtain ⟨henq, hdeq⟩ := enqStep_positions s.queue data spurious pc
      exact ⟨henq, .inl hdeq⟩
    · next pc _ _ =>
      cases hs
      obtain ⟨henq, hdeq⟩ := deqStep_positions s.queue spurious pc
      exact ⟨.inl henq, hdeq⟩

/-- One step of the interleaving overtakes a call at most once. -/
theorem queueStep_lag {s s' : QueueState w k T ι} {a : QueueAction T ι}
    (hs : queueStep s a = some s') (j : ι) :
    (s'.calls j).lag s'.queue ≤ (s.calls j).lag s.queue + 1 := by
  obtain ⟨henq, hdeq⟩ := queueStep_positions hs
  -- the call that moves by what its own step does, the others by the positions
  have hupdate : ∀ {i : ι} {c : QueueCall w T}, s'.calls = Function.update s.calls i c →
      c.lag s'.queue ≤ (s.calls i).lag s.queue + 1 →
        (s'.calls j).lag s'.queue ≤ (s.calls j).lag s.queue + 1 := by
    intro i c hcalls hc
    rw [hcalls]
    by_cases hj : j = i
    · subst hj
      rwa [Function.update_self]
    · rw [Function.update_of_ne hj]
      exact QueueCall.lag_le henq hdeq _
  cases a with
  | beginEnqueue i data | beginDequeue i =>
    simp only [queueStep] at hs
    split at hs <;> cases hs
    exact hupdate rfl (Nat.zero_le _)
  | step i spurious =>
    simp only [queueStep] at hs
    split at hs
    · cases hs
    · cases hs
    · cases hs
    · next data pc _ hcall =>
      cases hs
      refine hupdate rfl ?_
      rw [hcall]
      exact Nat.le_succ_of_le (enqStep_lag s.queue data spurious pc)
    · next pc _ hcall =>
      cases hs
      refine hupdate rfl ?_
      rw [hcall]
      exact Nat.le_succ_of_le (deqStep_lag s.queue spurious pc)

end Lag

/-! ## One step over narrower words -/

section Simulation

variable {s s' : QueueState w k T ι} {S : QueueState W k T ι} {r : Ring k} {i : ι}

/-- Cutting the words keeps how far a call has been overtaken, modulo `2 ^ w`. -/
theorem QueueCall.Follows.lag {c : QueueCall w T} {C : QueueCall W T} (h : c.Follows C)
    (hwW : w < W) (q : MpmcQueue W k T) : c.lag (q.truncate w) = C.lag q % 2 ^ w := by
  have hsub : ∀ x pos : BitVec W,
      (x.setWidth w - pos.setWidth w).toNat = (x - pos).toNat % 2 ^ w := by
    intro x pos
    rw [← setWidth_sub hwW, BitVec.toNat_setWidth]
  cases h with
  | notStarted | enqueueGaveUp | dequeueGaveUp => rfl
  | enqueue data pc =>
    cases pc with
    | loadSeq | cas => exact hsub _ _
    | _ => rfl
  | dequeue pc =>
    cases pc with
    | loadSeq | cas => exact hsub _ _
    | _ => rfl

/-- The comparison of a loaded sequence number, as it is made over `w`-bit words, is the one made
over wider words, except that being ahead can look like being behind. -/
def AgreesOn (w : ℕ) (dif : BitVec W) : Prop :=
  (dif.setWidth w = 0#w ↔ dif = 0#W) ∧ (dif.slt 0#W = true → (dif.setWidth w).slt 0#w = true)

/-- They agree while the cell is at most one buffer behind what the call waits for, and less than
`2 ^ w` ahead of it. -/
theorem AgreesOn.of_near {seq p : ℕ} (hkw : k < w) (hwW : w < W) (hge : p ≤ seq + 2 ^ k)
    (hlt : seq < p + 2 ^ w) : AgreesOn w (BitVec.ofNat W seq - BitVec.ofNat W p) := by
  have hhalf : 2 * 2 ^ k ≤ 2 ^ w := by
    rw [← pow_succ']
    exact Nat.pow_le_pow_right (by omega) hkw
  have hhalf' : 2 * 2 ^ w ≤ 2 ^ W := by
    rw [← pow_succ']
    exact Nat.pow_le_pow_right (by omega) hwW
  rw [AgreesOn, setWidth_sub hwW, BitVec.setWidth_ofNat_of_le hwW.le,
    BitVec.setWidth_ofNat_of_le hwW.le]
  rcases Nat.le_total seq p with hle | hle
  -- ready, or behind and seen to be so
  · obtain ⟨m, rfl⟩ := Nat.exists_eq_add_of_le hle
    rcases Nat.eq_zero_or_pos m with rfl | hm
    · simp [BitVec.slt_zero_eq_msb]
    · have hnarrow := slt_zero_of_behind (w := w) hm (by omega) seq
      have hwide := slt_zero_of_behind (w := W) hm (by omega) seq
      exact ⟨iff_of_false hnarrow.2 hwide.2, fun _ => hnarrow.1⟩
  -- ahead by `n`
  · obtain ⟨n, rfl⟩ := Nat.exists_eq_add_of_le hle
    have hdif : ∀ v, BitVec.ofNat v (p + n) - BitVec.ofNat v p = BitVec.ofNat v n := by
      intro v
      rw [BitVec.ofNat_add, add_sub_cancel_left]
    have hzero : ∀ v, 2 ^ w ≤ 2 ^ v → (BitVec.ofNat v n = 0#v ↔ n = 0) := by
      intro v hv
      rw [← BitVec.toNat_inj, BitVec.toNat_ofNat, BitVec.toNat_ofNat, Nat.zero_mod,
        Nat.mod_eq_of_lt (by omega)]
    have hpos : (BitVec.ofNat W n).slt 0#W = false := by
      have hW : 2 ^ W = 2 * 2 ^ (W - 1) := by rw [← pow_succ', Nat.sub_add_cancel (by omega)]
      rw [BitVec.slt_zero_eq_msb, BitVec.msb_eq_decide, BitVec.toNat_ofNat,
        Nat.mod_eq_of_lt (by omega), decide_eq_false_iff_not]
      omega
    rw [hdif w, hdif W, hzero w le_rfl, hzero W (by omega), hpos]
    exact ⟨Iff.rfl, nofun⟩

/-- The three branches after a sequence load, over `w`-bit words and over wider ones. -/
theorem AgreesOn.branches {dif : BitVec W} (h : AgreesOn w dif) :
    (dif.setWidth w = 0#w ∧ dif = 0#W) ∨
      (dif.setWidth w ≠ 0#w ∧ dif ≠ 0#W ∧
        ((dif.setWidth w).slt 0#w = dif.slt 0#W ∨
          (dif.setWidth w).slt 0#w = true ∧ dif.slt 0#W = false)) := by
  by_cases hdif : dif = 0#W
  · exact .inl ⟨h.1.mpr hdif, hdif⟩
  · refine .inr ⟨mt h.1.mp hdif, hdif, ?_⟩
    cases hwide : dif.slt 0#W with
    | true => exact .inl (h.2 hwide)
    | false =>
      cases hnarrow : (dif.setWidth w).slt 0#w with
      | true => exact .inr ⟨rfl, rfl⟩
      | false => exact .inl rfl

/-- One step of `enqueue` over `w`-bit words follows the step over wider ones, if the comparisons
agree. -/
theorem enqStep_follows (hkw : k < w) (hwW : w < W) {q : MpmcQueue W k T} {data : T}
    (spurious : Bool) {pc : EnqPc W}
    (hdif : ∀ pos, pc = .loadSeq pos → AgreesOn w ((q.buffer (cellIndex pos)).sequence - pos))
    (hcas : ∀ pos, pc = .cas pos → q.enqueuePos.setWidth w = pos.setWidth w → q.enqueuePos = pos) :
    (enqStep (q.truncate w) data spurious (pc.truncate w)).1 =
        (enqStep q data spurious pc).1.truncate w ∧
      QueueCall.Follows
        (.enqueue data (enqStep (q.truncate w) data spurious (pc.truncate w)).2 : QueueCall w T)
        (.enqueue data (enqStep q data spurious pc).2) := by
  cases pc with
  | loadPos => exact ⟨rfl, .enqueue data (.loadSeq q.enqueuePos)⟩
  | loadSeq pos =>
    have hword : ((q.truncate w).buffer (cellIndex (pos.setWidth w))).sequence - pos.setWidth w =
        ((q.buffer (cellIndex pos)).sequence - pos).setWidth w := by
      rw [cellIndex_truncate hkw hwW, setWidth_sub hwW]
      rfl
    simp only [EnqPc.truncate, enqStep, hword]
    rcases (hdif pos rfl).branches with ⟨hn, hw⟩ | ⟨hn, hw, hs | ⟨hsn, hsw⟩⟩
    · rw [if_pos hn, if_pos hw]
      exact ⟨rfl, .enqueue data (.cas pos)⟩
    · rw [if_neg hn, if_neg hw, hs]
      split
      · exact ⟨rfl, .enqueue data (.returned pos false)⟩
      · exact ⟨rfl, .enqueue data .loadPos⟩
    -- the wrapped difference is negative although the cell is ahead
    · rw [if_neg hn, if_neg hw, if_pos hsn, if_neg (by simp [hsw])]
      exact ⟨rfl, .enqueueGaveUp data _⟩
  | cas pos =>
    have hiff : q.enqueuePos.setWidth w = pos.setWidth w ↔ q.enqueuePos = pos :=
      ⟨hcas pos rfl, fun h => by rw [h]⟩
    simp only [EnqPc.truncate, enqStep, MpmcQueue.truncate, hiff]
    split
    · exact ⟨by rw [setWidth_succ hwW], .enqueue data (.copy pos)⟩
    · exact ⟨rfl, .enqueue data (.loadSeq q.enqueuePos)⟩
  | copy pos =>
    simp only [EnqPc.truncate, enqStep, cellIndex_truncate hkw hwW, truncate_setData]
    exact ⟨trivial, .enqueue data (.store pos)⟩
  | store pos =>
    simp only [EnqPc.truncate, enqStep, cellIndex_truncate hkw hwW, truncate_setSequence,
      setWidth_succ hwW]
    exact ⟨trivial, .enqueue data (.returned pos true)⟩
  | returned pos result => exact ⟨rfl, .enqueue data (.returned pos result)⟩

/-- One step of `dequeue` over `w`-bit words follows the step over wider ones, if the comparisons
agree. -/
theorem deqStep_follows (hkw : k < w) (hwW : w < W) {q : MpmcQueue W k T} (spurious : Bool)
    {pc : DeqPc W T}
    (hdif : ∀ pos, pc = .loadSeq pos →
      AgreesOn w ((q.buffer (cellIndex pos)).sequence - (pos + 1#W)))
    (hcas : ∀ pos, pc = .cas pos → q.dequeuePos.setWidth w = pos.setWidth w → q.dequeuePos = pos) :
    (deqStep (q.truncate w) spurious (pc.truncate w)).1 =
        (deqStep q spurious pc).1.truncate w ∧
      QueueCall.Follows (.dequeue (deqStep (q.truncate w) spurious (pc.truncate w)).2)
        (.dequeue (deqStep q spurious pc).2) := by
  cases pc with
  | loadPos => exact ⟨rfl, .dequeue (.loadSeq q.dequeuePos)⟩
  | loadSeq pos =>
    have hword : ((q.truncate w).buffer (cellIndex (pos.setWidth w))).sequence -
        (pos.setWidth w + 1#w) =
        ((q.buffer (cellIndex pos)).sequence - (pos + 1#W)).setWidth w := by
      rw [cellIndex_truncate hkw hwW, setWidth_sub hwW, setWidth_succ hwW]
      rfl
    simp only [DeqPc.truncate, deqStep, hword]
    rcases (hdif pos rfl).branches with ⟨hn, hw⟩ | ⟨hn, hw, hs | ⟨hsn, hsw⟩⟩
    · rw [if_pos hn, if_pos hw]
      exact ⟨rfl, .dequeue (.cas pos)⟩
    · rw [if_neg hn, if_neg hw, hs]
      split
      · exact ⟨rfl, .dequeue (.returned pos none)⟩
      · exact ⟨rfl, .dequeue .loadPos⟩
    -- the wrapped difference is negative although the cell is ahead
    · rw [if_neg hn, if_neg hw, if_pos hsn, if_neg (by simp [hsw])]
      exact ⟨rfl, .dequeueGaveUp _⟩
  | cas pos =>
    have hiff : q.dequeuePos.setWidth w = pos.setWidth w ↔ q.dequeuePos = pos :=
      ⟨hcas pos rfl, fun h => by rw [h]⟩
    simp only [DeqPc.truncate, deqStep, MpmcQueue.truncate, hiff]
    split
    · exact ⟨by rw [setWidth_succ hwW], .dequeue (.copy pos)⟩
    · exact ⟨rfl, .dequeue (.loadSeq q.dequeuePos)⟩
  | copy pos =>
    simp only [DeqPc.truncate, deqStep, cellIndex_truncate hkw hwW]
    exact ⟨trivial, .dequeue (.store pos (q.buffer (cellIndex pos)).data)⟩
  | store pos data =>
    simp only [DeqPc.truncate, deqStep, cellIndex_truncate hkw hwW, truncate_setSequence,
      setWidth_succ hwW, BitVec.setWidth_add _ _ hwW.le, setWidth_bufferMask hwW]
    exact ⟨trivial, .dequeue (.returned pos (some data))⟩
  | returned pos result => exact ⟨rfl, .dequeue (.returned pos result)⟩

/-- A call that is not lapped compares its cell as over wider words: `enqueue`. -/
theorem RingInv.agreesOn_enq (h : RingInv S r) (hkw : k < w) (hwW : w < W) {data : T}
    {pos : BitVec W} (hcall : S.calls i = .enqueue data (.loadSeq pos))
    (hlag : (S.calls i).lag S.queue + 2 ^ k ≤ 2 ^ w) :
    AgreesOn w ((S.queue.buffer (cellIndex pos)).sequence - pos) := by
  have hle : pos.toNat ≤ S.queue.enqueuePos.toNat := by
    have := h.calls i
    rwa [hcall] at this
  have hseq := h.seq_lt_add (ringIndex k pos.toNat)
  rw [hcall] at hlag
  simp only [QueueCall.lag, BitVec.toNat_sub_of_le (BitVec.le_def.mpr hle)] at hlag
  have hnear := AgreesOn.of_near hkw hwW (h.le_seq_of_enq hle) (by omega)
  rwa [BitVec.ofNat_toNat, BitVec.setWidth_eq, ← h.seq,
    ← cellIndex_eq_ringIndex (hkw.trans hwW)] at hnear

/-- A call that is not lapped compares its cell as over wider words: `dequeue`. -/
theorem RingInv.agreesOn_deq (h : RingInv S r) (hkw : k < w) (hwW : w < W)
    {pos : BitVec W} (hcall : S.calls i = .dequeue (.loadSeq pos))
    (hlag : (S.calls i).lag S.queue + 2 ^ k ≤ 2 ^ w) :
    AgreesOn w ((S.queue.buffer (cellIndex pos)).sequence - (pos + 1#W)) := by
  have hle : pos.toNat ≤ S.queue.dequeuePos.toNat := by
    have := h.calls i
    rwa [hcall] at this
  have hseq := h.seq_le_deq_add (ringIndex k pos.toNat)
  rw [hcall] at hlag
  simp only [QueueCall.lag, BitVec.toNat_sub_of_le (BitVec.le_def.mpr hle)] at hlag
  have hnear := AgreesOn.of_near hkw hwW (h.le_seq_of_deq hle) (by omega)
  rwa [NomadTasks.ofNat_succ, BitVec.ofNat_toNat, BitVec.setWidth_eq, ← h.seq,
    ← cellIndex_eq_ringIndex (hkw.trans hwW)] at hnear

/-- A call that is not lapped finds its position in the cut word only if it is there in the wider
one. -/
theorem eq_of_setWidth_eq (hwW : w < W) {x pos : BitVec W} (hlt : (x - pos).toNat < 2 ^ w)
    (heq : x.setWidth w = pos.setWidth w) : x = pos := by
  have hzero : (x - pos).toNat = 0 := by
    rw [← Nat.mod_eq_of_lt hlt, ← BitVec.toNat_setWidth, setWidth_sub hwW, heq, BitVec.sub_self,
      BitVec.toNat_zero]
  exact eq_of_sub_eq_zero (BitVec.eq_of_toNat_eq (hzero.trans BitVec.toNat_zero.symm))

section System

variable [DecidableEq ι]

/-- Two calls that follow each other replace two that do. -/
theorem QueueState.Follows.setCall {q : MpmcQueue w k T} {Q : MpmcQueue W k T} {c : QueueCall w T}
    {C : QueueCall W T} (h : s.Follows S) (hq : q = Q.truncate w) (hc : c.Follows C) :
    ({ s with queue := q }.setCall i c).Follows ({ S with queue := Q }.setCall i C) where
  queue := hq
  calls j := by
    by_cases hj : j = i
    · subst hj
      simpa [QueueState.setCall] using hc
    · simpa [QueueState.setCall, hj] using h.calls j

omit [DecidableEq ι] in
/-- What a running `enqueue` follows. -/
theorem QueueCall.Follows.of_enqueue {data : T} {pc : EnqPc w} {C : QueueCall W T}
    (h : QueueCall.Follows (.enqueue data pc) C) (hrun : ∀ p b, pc ≠ .returned p b) :
    ∃ PC : EnqPc W, pc = PC.truncate w ∧ C = .enqueue data PC := by
  cases h with
  | enqueue _ PC => exact ⟨PC, rfl, rfl⟩
  | enqueueGaveUp _ pos => exact absurd rfl (hrun pos false)

omit [DecidableEq ι] in
/-- What a running `dequeue` follows. -/
theorem QueueCall.Follows.of_dequeue {pc : DeqPc w T} {C : QueueCall W T}
    (h : QueueCall.Follows (.dequeue pc) C) (hrun : ∀ p b, pc ≠ .returned p b) :
    ∃ PC : DeqPc W T, pc = PC.truncate w ∧ C = .dequeue PC := by
  cases h with
  | dequeue PC => exact ⟨PC, rfl, rfl⟩
  | dequeueGaveUp pos => exact absurd rfl (hrun pos none)

/-- A step over `w`-bit words is a step over wider ones, if no call is lapped. -/
theorem QueueState.Follows.step (h : s.Follows S) (hinv : RingInv S r) (hkw : k < w)
    (hwW : w < W) (hlag : ∀ i, (S.calls i).lag S.queue + 2 ^ k ≤ 2 ^ w) {a : QueueAction T ι}
    (hs : queueStep s a = some s') : ∃ S', queueStep S a = some S' ∧ s'.Follows S' := by
  have hbelow : ∀ i, (S.calls i).lag S.queue < 2 ^ w := fun i => by
    have := hlag i
    have := Nat.two_pow_pos k
    omega
  cases a with
  | beginEnqueue i data =>
    have hcall := h.calls i
    simp only [queueStep] at hs
    split at hs <;> cases hs
    next hnot =>
    rw [hnot] at hcall
    generalize hC : S.calls i = C at hcall
    cases hcall
    exact ⟨_, by simp only [queueStep, hC], h.setCall h.queue (.enqueue data .loadPos)⟩
  | beginDequeue i =>
    have hcall := h.calls i
    simp only [queueStep] at hs
    split at hs <;> cases hs
    next hnot =>
    rw [hnot] at hcall
    generalize hC : S.calls i = C at hcall
    cases hcall
    exact ⟨_, by simp only [queueStep, hC], h.setCall h.queue (.dequeue .loadPos)⟩
  | step i spurious =>
    have hcall := h.calls i
    simp only [queueStep] at hs
    split at hs
    · cases hs
    · cases hs
    · cases hs
    · next data pc hrun hnow =>
      cases hs
      rw [hnow] at hcall
      obtain ⟨PC, rfl, hC⟩ := hcall.of_enqueue hrun
      have hcas : ∀ pos, PC = .cas pos →
          S.queue.enqueuePos.setWidth w = pos.setWidth w → S.queue.enqueuePos = pos := by
        rintro pos rfl
        have hlt := hbelow i
        rw [hC] at hlt
        exact eq_of_setWidth_eq hwW hlt
      have hdif : ∀ pos, PC = .loadSeq pos →
          AgreesOn w ((S.queue.buffer (cellIndex pos)).sequence - pos) := by
        rintro pos rfl
        exact hinv.agreesOn_enq hkw hwW hC (hlag i)
      obtain ⟨hq, hc⟩ := enqStep_follows hkw hwW spurious hdif hcas
      rw [← h.queue] at hq hc
      exact ⟨_, queueStep_enqueue hC fun p b hp => hrun (p.setWidth w) b (by rw [hp]; rfl),
        h.setCall hq hc⟩
    · next pc hrun hnow =>
      cases hs
      rw [hnow] at hcall
      obtain ⟨PC, rfl, hC⟩ := hcall.of_dequeue hrun
      have hcas : ∀ pos, PC = .cas pos →
          S.queue.dequeuePos.setWidth w = pos.setWidth w → S.queue.dequeuePos = pos := by
        rintro pos rfl
        have hlt := hbelow i
        rw [hC] at hlt
        exact eq_of_setWidth_eq hwW hlt
      have hdif : ∀ pos, PC = .loadSeq pos →
          AgreesOn w ((S.queue.buffer (cellIndex pos)).sequence - (pos + 1#W)) := by
        rintro pos rfl
        exact hinv.agreesOn_deq hkw hwW hC (hlag i)
      obtain ⟨hq, hc⟩ := deqStep_follows hkw hwW spurious hdif hcas
      rw [← h.queue] at hq hc
      exact ⟨_, queueStep_dequeue hC fun p b hp => hrun (p.setWidth w) b (by rw [hp]; rfl),
        h.setCall hq hc⟩

end System

end Simulation

/-! ## Runs over narrower words -/

section Run

variable [DecidableEq ι] [Inhabited T] {s : QueueState w k T ι}
  {h : History (QueueState w k T ι) (QueueAction T ι)}

omit [DecidableEq ι] in
/-- Construction over `w`-bit words follows construction over wider ones. -/
theorem follows_init (hwW : w < W) :
    QueueState.Follows
      ({ queue := MpmcQueue.init w k T, calls := fun _ => .notStarted } : QueueState w k T ι)
      ({ queue := MpmcQueue.init W k T, calls := fun _ => .notStarted } : QueueState W k T ι) where
  queue := by
    have hzero : (0 : BitVec W).setWidth w = 0 := BitVec.setWidth_ofNat_of_le hwW.le 0
    simp only [MpmcQueue.init, MpmcQueue.truncate, Cell.truncate,
      BitVec.setWidth_ofNat_of_le hwW.le, hzero]
  calls _ := .notStarted

/-- A run in which no call is lapped follows one over wider words whose positions do not wrap, if
they are wide enough for its length. -/
theorem exists_wide_run (hk : 1 ≤ k) (hkw : k < w) (hwW : w < W)
    (hr : (queueSystem w k T ι).Run (fun _ s _ => NotLapped s) h s)
    (hlength : h.length ≤ 2 ^ (W - 1)) :
    ∃ (H : History (QueueState W k T ι) (QueueAction T ι)) (S : QueueState W k T ι),
      (queueSystem W k T ι).Run (fun _ S _ => PositionsBelow S) H S ∧ s.Follows S ∧
        S.queue.enqueuePos.toNat ≤ h.length ∧ ∀ i, (S.calls i).lag S.queue < 2 ^ w := by
  induction hr with
  | init hs =>
    obtain rfl := hs
    exact ⟨[], _, .init rfl, follows_init hwW, by simp [MpmcQueue.init],
      fun i => Nat.two_pow_pos w⟩
  | @step h s s' a hr hok hs ih =>
    rw [List.length_cons] at hlength ⊢
    obtain ⟨H, S, hR, hfollows, henq, hlag⟩ := ih (Nat.le_of_succ_le hlength)
    obtain ⟨r, hinv⟩ := ringInv_of_run hk (hkw.trans hwW) hR
    have hbelow : PositionsBelow S :=
      ⟨by omega, lt_of_le_of_lt hinv.deq_le_enq (by omega)⟩
    -- below `2 ^ w` the cut distance is the distance
    have hnot : ∀ i, (S.calls i).lag S.queue + 2 ^ k ≤ 2 ^ w := by
      intro i
      have hle := hok i
      rwa [hfollows.queue, (hfollows.calls i).lag hwW, Nat.mod_eq_of_lt (hlag i)] at hle
    obtain ⟨S', hS, hfollows'⟩ := hfollows.step hinv hkw hwW hnot hs
    refine ⟨_, S', .step hR hbelow hS, hfollows', ?_, fun i => ?_⟩
    · rcases (queueStep_positions hS).1 with heq | heq
      · rw [heq]; omega
      · rw [heq]
        exact (toNat_add_one_le _).trans (Nat.add_le_add_right henq 1)
    · have hstep := queueStep_lag hS i
      have hle := hnot i
      have hsize : 2 ≤ 2 ^ k := Nat.le_self_pow (by omega) 2
      omega

/-- What the invariant without wrapping says about a run with wrapping: in every state of a run in
which no call is lapped, the words are those of a state with the invariant. -/
theorem follows_ringInv_of_run (hk : 1 ≤ k) (hkw : k < w)
    (hr : (queueSystem w k T ι).Run (fun _ s _ => NotLapped s) h s) :
    ∃ (W : ℕ) (S : QueueState W k T ι) (r : Ring k), w < W ∧ s.Follows S ∧ RingInv S r ∧
      ∀ i, (S.calls i).lag S.queue < 2 ^ w := by
  have hwW : w < w + h.length + 1 := by omega
  have hlength : h.length ≤ 2 ^ (w + h.length + 1 - 1) :=
    Nat.lt_two_pow_self.le.trans (Nat.pow_le_pow_right (by omega) (by omega))
  obtain ⟨H, S, hR, hfollows, -, hlag⟩ := exists_wide_run hk hkw hwW hr hlength
  obtain ⟨r, hinv⟩ := ringInv_of_run hk (hkw.trans hwW) hR
  exact ⟨_, S, r, hwW, hfollows, hinv, hlag⟩

end Run

end NomadTasks
