import NomadTasks.Counter.Delivered
import NomadTasks.Counter.Refusal
import NomadTasks.Counter.Sequential
import NomadTasks.Counter.WakeUp

/-!
# The calls of a counter end, and what they leave

`AddWaitingFiber`, `Increment` and `Decrement` have no loop but the one over the slots: a call ends
after a bounded number of its own steps, whatever the other calls do in between. When all calls have
ended, the counter is a waiting room again in which nobody waits for the value that is there.

* `CounterCall.rank`: the steps a call has left, at most.
* `call_steps_le`: the calls are wait-free.
* `quiescent_represents_room`: what any interleaving leaves once no call is in progress.
-/

namespace NomadTasks

open Transition Ownership Waiting

variable {ι : Type}

/-- At most so many steps of `AddWaitingFiber` are left, with `n` slots. -/
def AddPc.rank (n : ℕ) : AddPc → ℕ
  | .casFree i => n - i + 10
  | .setFiberIndex _ => 9
  | .setFiberStored _ => 8
  | .setTargetValue _ => 7
  | .publish _ => 6
  | .loadCounter _ => 5
  | .loadInUse _ _ => 4
  | .compareTarget _ _ => 3
  | .casInUse _ => 2
  | .release _ => 1
  | .returned _ | .threw => 0

/-- At most so many steps of `CheckWaitingFibers` are left, with `n` slots. -/
def ScanPc.rank (n : ℕ) : ScanPc → ℕ
  | .loadFree i => 7 * (n - i) + 2
  | .loadInUse i => 7 * (n - (i + 1)) + 8
  | .compareTarget i => 7 * (n - (i + 1)) + 7
  | .casInUse i => 7 * (n - (i + 1)) + 6
  | .loadFiberIndex i => 7 * (n - (i + 1)) + 5
  | .push i _ => 7 * (n - (i + 1)) + 4
  | .release i => 7 * (n - (i + 1)) + 3
  | .done => 1

namespace CounterCall

/-- At most so many steps of the call are left. -/
def rank (n : ℕ) : CounterCall → ℕ
  | .notStarted => 0
  | .addWaiting _ pc => pc.rank n
  | .modify _ .fetch => 7 * n + 3
  | .modify _ (.check _ _ pc) => pc.rank n
  | .modify _ (.returned _) => 0

/-- At most so many steps are taken by the call, from its beginning to its end. -/
def budget (n : ℕ) : CounterCall → ℕ
  | .notStarted => 0
  | .addWaiting _ _ => n + 10
  | .modify _ _ => 7 * n + 3

/-- Every step of a call brings it nearer to its end, whatever it finds in the slots. -/
theorem rank_next {b : BaseCounter} {c c' : CounterCall} {eff : Effect}
    (hn : c.next b = some (eff, c')) :
    c'.rank b.numWaitingFibers < c.rank b.numWaitingFibers ∧
      c'.budget b.numWaitingFibers = c.budget b.numWaitingFibers := by
  rcases c with _ | ⟨reg, pc⟩ | ⟨op, _ | ⟨prev, value, pc⟩ | prev⟩
  · cases hn
  · revert hn
    simp only [next]
    fun_cases AddPc.next b reg pc <;> rintro ⟨⟩ <;> refine ⟨?_, rfl⟩ <;>
      simp only [rank, AddPc.rank] <;> omega
  · cases hn
    refine ⟨?_, rfl⟩
    simp only [rank, ScanPc.rank]
    omega
  · revert hn
    simp only [next, ModifyPc.next]
    fun_cases ScanPc.next b value pc <;> rintro ⟨⟩ <;> refine ⟨?_, rfl⟩ <;>
      simp only [rank, ScanPc.rank] <;> omega
  · cases hn

end CounterCall

section Run

variable [DecidableEq ι]

/-- The action is a step of call `x`. -/
def CounterAction.isStepOf (x : ι) : CounterAction ι → Bool
  | .step y => decide (y = x)
  | _ => false

/-- The steps of call `x` in a run. -/
def stepsOfCall (x : ι) (h : History (CounterState ι) (CounterAction ι)) : ℕ :=
  h.countP fun e => e.2.isStepOf x

variable {n : ℕ} {ok : History (CounterState ι) (CounterAction ι) → CounterState ι →
  CounterAction ι → Prop} {h : History (CounterState ι) (CounterAction ι)} {s : CounterState ι}

/-- The steps taken and the steps left are within the budget of the call. -/
theorem stepsOfCall_add_rank_le (hr : (counterSystem n ι).Run ok h s) (x : ι) :
    stepsOfCall x h + (s.calls x).rank n ≤ (s.calls x).budget n := by
  refine hr.invariant (P := fun h s => stepsOfCall x h + (s.calls x).rank n ≤
    (s.calls x).budget n) ?_ ?_
  · rintro s rfl
    exact le_rfl
  · intro h s a s' hr ih _ hs
    have hbegin : ∀ {y c}, s.calls y = .notStarted → a.isStepOf x = false →
        c.rank n ≤ c.budget n → s' = s.setCall y c →
        stepsOfCall x ((s, a) :: h) + (s'.calls x).rank n ≤ (s'.calls x).budget n := by
      rintro y c hy ha hc rfl
      have hsteps : stepsOfCall x ((s, a) :: h) = stepsOfCall x h := by simp [stepsOfCall, ha]
      rw [hsteps]
      by_cases hyx : x = y
      · subst hyx
        rw [hy] at ih
        simp only [CounterCall.rank, CounterCall.budget] at ih
        rw [CounterState.setCall_calls, Function.update_self]
        omega
      · rwa [CounterState.setCall_calls, Function.update_of_ne hyx]
    cases a with
    | beginAddWaiting y reg =>
      simp only [counterSystem, counterStep, Option.ite_none_right_eq_some,
        Option.some.injEq] at hs
      exact hbegin hs.1 rfl le_rfl hs.2.symm
    | beginModify y op =>
      simp only [counterSystem, counterStep, Option.ite_none_right_eq_some,
        Option.some.injEq] at hs
      exact hbegin hs.1 rfl le_rfl hs.2.symm
    | step y =>
      simp only [counterSystem, counterStep, Option.map_eq_some_iff] at hs
      obtain ⟨⟨eff, c⟩, hn, rfl⟩ := hs
      by_cases hyx : y = x
      · subst hyx
        obtain ⟨hrank, hbudget⟩ := CounterCall.rank_next hn
        rw [numWaitingFibers_of_reachable hr.reachable] at hrank hbudget
        have hsteps : stepsOfCall y ((s, .step y) :: h) = stepsOfCall y h + 1 := by
          simp [stepsOfCall, CounterAction.isStepOf]
        rw [hsteps]
        simp only [CounterState.perform_calls, Function.update_self, hbudget]
        omega
      · have hsteps : stepsOfCall x ((s, .step y) :: h) = stepsOfCall x h := by
          simp [stepsOfCall, CounterAction.isStepOf, hyx]
        rw [hsteps]
        simpa [Ne.symm hyx] using ih

/-- The calls of a counter are wait-free: in every run, under any interleaving, an `AddWaitingFiber`
has taken at most `n + 10` steps and an `Increment` or `Decrement` at most `7 * n + 3`, with `n`
slots, and a call that has not ended can take its next step, which brings it nearer to its end. -/
theorem call_steps_le (hr : (counterSystem n ι).Run ok h s) (x : ι) :
    (∀ reg pc, s.calls x = .addWaiting reg pc → stepsOfCall x h ≤ n + 10) ∧
    (∀ op pc, s.calls x = .modify op pc → stepsOfCall x h ≤ 7 * n + 3) ∧
    ((s.calls x).inProgress = true → ∃ s', counterStep s (.step x) = some s' ∧
      (s'.calls x).rank n < (s.calls x).rank n) := by
  have hle := stepsOfCall_add_rank_le hr x
  refine ⟨fun reg pc hx => ?_, fun op pc hx => ?_, fun hx => ?_⟩
  · rw [hx] at hle
    exact le_trans (Nat.le_add_right _ _) hle
  · rw [hx] at hle
    exact le_trans (Nat.le_add_right _ _) hle
  · obtain ⟨eff, c, hn⟩ := CounterCall.exists_next (b := s.ctr) hx
    refine ⟨s.perform x eff c, by simp [counterStep, hn], ?_⟩
    have hrank := (CounterCall.rank_next hn).1
    rw [numWaitingFibers_of_reachable hr.reachable] at hrank
    simpa using hrank

end Run

/-- Fiber 7 waits for one, and the value goes from zero to two. -/
def passedOver (ι : Type) [OfNat ι 0] [OfNat ι 1] : List (CounterAction ι) :=
  [.beginAddWaiting 0 { fiberIndex := 7, targetValue := 1, fiberStored := 100 }] ++
    List.replicate 8 (.step 0) ++ [.beginModify 1 (.increment 2)] ++ List.replicate 6 (.step 1)

/-- With one slot, the two calls take eight steps and six. -/
theorem call_steps_le_passedOver :
    ∃ (h : History (CounterState (Fin 2)) (CounterAction (Fin 2))) (s : CounterState (Fin 2)),
      (counterSystem 1 (Fin 2)).Run (fun _ _ _ => True) h s ∧
        stepsOfCall 0 h = 8 ∧ stepsOfCall 0 h ≤ 1 + 10 := by
  have hrun : ∃ (h : History (CounterState (Fin 2)) (CounterAction (Fin 2)))
      (s : CounterState (Fin 2)), (counterSystem 1 (Fin 2)).Run (fun _ _ _ => True) h s ∧
        stepsOfCall 0 h = 8 ∧ s.calls 0 = .addWaiting ⟨7, 1, 100⟩ (.returned false) :=
    System.exists_run_of_trace rfl (passedOver (Fin 2)) (by decide)
  obtain ⟨h, s, hr, hsteps, hcall⟩ := hrun
  exact ⟨h, s, hr, hsteps, (call_steps_le hr 0).1 _ _ hcall⟩

/-! ## When all calls have ended -/

/-- Only a call in progress has a slot to itself. -/
theorem CounterCall.inProgress_of_holds {c : CounterCall} {i : ℕ} (h : c.holds = some i) :
    c.inProgress = true := by
  revert h
  fun_cases CounterCall.holds c <;> simp [inProgress]

/-- Only a call in progress has an entry in hand. -/
theorem CounterCall.inHand_of_not_inProgress {b : BaseCounter} {c : CounterCall}
    (h : c.inProgress = false) : c.inHand b = [] := by
  rcases c with _ | ⟨reg, pc⟩ | ⟨op, _ | ⟨prev, value, pc⟩ | prev⟩
  · rfl
  · rfl
  · rfl
  · cases h
  · rfl

/-- The room that the slots show when no call is in progress. -/
def BaseCounter.room (b : BaseCounter) : Room CounterUnit ReadyFiber where
  value := b.counter
  places := (List.range b.numWaitingFibers).map fun i =>
    if b.freeWaitingSlots i then none
    else some ((b.waitingFibers i).targetValue, (b.waitingFibers i).entry)

section Quiescent

variable [DecidableEq ι] {n : ℕ} {s : CounterState ι}

/-- When no call is in progress, a slot that is not free is published, and holds the registration of
its occupant, for another value. -/
theorem published_of_quiescent (hr : (counterSystem n ι).Reachable s)
    (hquiet : ∀ x, (s.calls x).inProgress = false) {i : ℕ} (hi : i < n)
    (htaken : s.ctr.freeWaitingSlots i = false) :
    (s.ctr.waitingFibers i).inUse = false ∧
      (s.ctr.waitingFibers i).targetValue ≠ s.ctr.counter ∧
      ∃ a reg, s.occupant i = some a ∧ (s.calls a).registration = some reg ∧
        reg.Matches (s.ctr.waitingFibers i) := by
  obtain ⟨hfree, hslots, hocc⟩ := notFreeInv_of_reachable hr
  obtain ⟨⟨a, ha⟩, hheld⟩ := hfree i htaken
  have huse : (s.ctr.waitingFibers i).inUse = false := by
    by_contra huse
    obtain ⟨z, hz⟩ := hheld (by simpa using huse)
    have hprog := CounterCall.inProgress_of_holds hz
    rw [hquiet z] at hprog
    cases hprog
  refine ⟨huse, fun htarget => ?_, ?_⟩
  · obtain ⟨x, hx⟩ := (caredFor_of_reachable hr).2 i
      (by rwa [numWaitingFibers_of_reachable hr]) ⟨htaken, huse⟩ htarget
    have hprog := CounterCall.inProgress_of_caresFor hx
    rw [hquiet x] at hprog
    cases hprog
  · have hok := (hocc.occupant_ok i a ha).2
    have hend := hquiet a
    cases hcall : s.calls a with
    | notStarted | modify op pc =>
      rw [hcall] at hok
      cases hok
    | addWaiting reg pc =>
      rw [hcall] at hok hend
      cases pc with
      | returned result => exact ⟨a, reg, ha, by rw [hcall]; rfl, hok⟩
      | threw => cases hok
      | _ => cases hend

omit [DecidableEq ι] in
/-- What place `i` of the room shows. -/
theorem BaseCounter.room_getElem? {b : BaseCounter} {i : ℕ}
    {p : Option (CounterUnit × ReadyFiber)} (h : b.room.places[i]? = some p) :
    i < b.numWaitingFibers ∧
      (b.freeWaitingSlots i = true ∧ p = none ∨
        b.freeWaitingSlots i = false ∧
          p = some ((b.waitingFibers i).targetValue, (b.waitingFibers i).entry)) := by
  simp only [room, List.getElem?_map, Option.map_eq_some_iff] at h
  obtain ⟨j, hj, rfl⟩ := h
  obtain ⟨hlt, rfl⟩ : i < b.numWaitingFibers ∧ i = j := by
    simpa [List.getElem?_eq_some_iff] using hj
  cases hfree : b.freeWaitingSlots i <;> simp [hlt]

/-- Whatever interleaving has led there, a counter on which no call is in progress is a waiting room
in which nobody waits for the value that is there: every slot is free, or holds the whole
registration of a call, for another value. -/
theorem quiescent_represents_room (hr : (counterSystem n ι).Reachable s)
    (hquiet : ∀ x, (s.calls x).inProgress = false) :
    s.ctr.Represents s.ctr.room ∧ s.ctr.room.Settled ∧ s.ctr.room.places.length = n ∧
      ∀ i p, s.ctr.room.places[i]? = some (some p) → ∃ a reg, s.occupant i = some a ∧
        (s.calls a).registration = some reg ∧ p = (reg.targetValue, reg.entry) := by
  have hn := numWaitingFibers_of_reachable hr
  refine ⟨⟨rfl, by simp [BaseCounter.room], fun i p hp => ?_⟩, fun target who hmem => ?_,
    by simp [BaseCounter.room, hn], fun i p hp => ?_⟩
  · obtain ⟨hi, ⟨hfree, rfl⟩ | ⟨htaken, rfl⟩⟩ := BaseCounter.room_getElem? hp
    · exact hfree
    · exact ⟨htaken, (published_of_quiescent hr hquiet (hn ▸ hi) htaken).1, rfl, rfl⟩
  · obtain ⟨i, hget⟩ := List.mem_iff_getElem?.mp hmem
    obtain ⟨hi, ⟨-, hp⟩ | ⟨htaken, hp⟩⟩ := BaseCounter.room_getElem? hget
    · cases hp
    · obtain ⟨rfl, -⟩ := Prod.mk.inj (Option.some.inj hp)
      exact (published_of_quiescent hr hquiet (hn ▸ hi) htaken).2.1
  · obtain ⟨hi, ⟨-, hp⟩ | ⟨htaken, hp⟩⟩ := BaseCounter.room_getElem? hp
    · cases hp
    · obtain ⟨-, -, a, reg, ha, hreg, hmatch⟩ := published_of_quiescent hr hquiet (hn ▸ hi) htaken
      refine ⟨a, reg, ha, hreg, ?_⟩
      rw [Option.some.inj hp, hmatch.entry_eq, hmatch.2.2]

/-- The value has passed over fiber 7, which is left in the room. -/
theorem quiescent_represents_room_passedOver :
    ∃ s : CounterState (Fin 2), s.ctr.room.value = 2 ∧
      s.ctr.room.places = [some (1, (7, 100))] ∧ s.ctr.Represents s.ctr.room ∧
      s.ctr.room.Settled := by
  have hrun : ∃ (h : History (CounterState (Fin 2)) (CounterAction (Fin 2)))
      (s : CounterState (Fin 2)), (counterSystem 1 (Fin 2)).Run (fun _ _ _ => True) h s ∧
        (∀ x, (s.calls x).inProgress = false) ∧ s.ctr.room.value = 2 ∧
        s.ctr.room.places = [some (1, (7, 100))] :=
    System.exists_run_of_trace rfl (passedOver (Fin 2)) (by decide)
  obtain ⟨h, s, hr, hquiet, hvalue, hplaces⟩ := hrun
  obtain ⟨hrep, hset, -⟩ := quiescent_represents_room hr.reachable hquiet
  exact ⟨s, hvalue, hplaces, hrep, hset⟩

/-- The registration of call `a` is on a place of the room. -/
def InRoom (s : CounterState ι) (a : ι) (reg : Registration) : Prop :=
  ∃ i, s.occupant i = some a ∧
    s.ctr.room.places[i]? = some (some (reg.targetValue, reg.entry))

/-- Nobody has claimed a registration that is on a place. -/
theorem CounterInv.not_claimed_of_inRoom (h : CounterInv s) (hr : (counterSystem n ι).Reachable s)
    (hquiet : ∀ x, (s.calls x).inProgress = false) {a : ι} {reg : Registration}
    (hin : InRoom s a reg) (x : ι) : a ∉ s.claims x := by
  obtain ⟨i, hocc, hplace⟩ := hin
  obtain ⟨hi, ⟨-, hp⟩ | ⟨htaken, -⟩⟩ := BaseCounter.room_getElem? hplace
  · cases hp
  · have huse := (published_of_quiescent hr hquiet
      (numWaitingFibers_of_reachable hr ▸ hi) htaken).1
    obtain ⟨a', ha', -, hun⟩ := h.claims.published i huse
    obtain rfl : a' = a := Option.some.inj (ha'.symm.trans hocc)
    exact hun x

/-- Another call has told its fiber to wait, with the same index and the same flag. -/
def SharesEntry (s : CounterState ι) (a : ι) (reg : Registration) : Prop :=
  ∃ b, b ≠ a ∧ ∃ reg', s.calls b = .addWaiting reg' (.returned false) ∧ reg'.entry = reg.entry

omit [DecidableEq ι] in
/-- When no call is in progress, an entry of a ready list is that of a call that has told its fiber
to wait, at the same position among the claims. -/
theorem CounterInv.pushed_of_quiescent (h : CounterInv s)
    (hquiet : ∀ x, (s.calls x).inProgress = false) {x : ι} {k : ℕ} {entry : ReadyFiber}
    (hk : (s.pushed x)[k]? = some entry) :
    ∃ b reg', (s.claims x)[k]? = some b ∧ s.calls b = .addWaiting reg' (.returned false) ∧
      reg'.entry = entry := by
  have hmod : (s.calls x).isModify = true := by
    by_contra hmod
    rw [h.pushed_of_not_isModify (by simpa using hmod)] at hk
    cases hk
  have hlist := h.pushes x
  rw [CounterCall.inHand_of_not_inProgress (hquiet x), List.append_nil, if_pos hmod] at hlist
  rw [hlist, List.getElem?_map, Option.map_eq_some_iff] at hk
  obtain ⟨b, hb, hentry⟩ := hk
  have hmem := List.mem_of_getElem? hb
  have hreg := h.claims.registered b x hmem
  have hown := h.not_ownResolved_of_claimed hmod hmem
  have hend := hquiet b
  cases hcall : s.calls b with
  | addWaiting reg' pc =>
    rw [hcall] at hreg hown hend hentry
    cases pc with
    | returned result =>
      cases result with
      | false => exact ⟨b, reg', hb, hcall, hentry⟩
      | true => cases hown
    | threw => cases hreg
    | _ => cases hend
  | _ =>
    rw [hcall] at hreg
    cases hreg

/-- In a run without a stale claim, when no call is in progress, every fiber that was told to wait
is on a place of the room, for a value that is not there, or exactly one `Increment` or `Decrement`
has pushed it, exactly once; and no fiber is in the room, or pushed, that was told to go on. An
entry that looks like that of a call, but is another's, has the index and the flag of a call that
was told to wait. -/
theorem quiescent_waiters {h : History (CounterState ι) (CounterAction ι)}
    (hr : (counterSystem n ι).Run NoStaleClaim h s)
    (hquiet : ∀ x, (s.calls x).inProgress = false) {a : ι} {reg : Registration} {result : Bool}
    (ha : s.calls a = .addWaiting reg (.returned result)) :
    (result = false ∧ InRoom s a reg ∧ reg.targetValue ≠ s.ctr.counter ∧
      (∀ x, a ∉ s.claims x) ∧ ∀ x, reg.entry ∈ s.pushed x → SharesEntry s a reg) ∨
    (result = false ∧ ¬ InRoom s a reg ∧ ∃ (x : ι) (k : ℕ), (s.calls x).isModify = true ∧
      a ∈ s.claims x ∧ (∀ y, a ∈ s.claims y → y = x) ∧ (s.pushed x)[k]? = some reg.entry ∧
      ∀ (y : ι) (j : ℕ), (s.pushed y)[j]? = some reg.entry →
        (y = x ∧ j = k) ∨ SharesEntry s a reg) ∨
    (result = true ∧ ¬ InRoom s a reg ∧ (∀ x, (s.calls x).isModify = true → a ∉ s.claims x) ∧
      ∀ x, reg.entry ∈ s.pushed x → SharesEntry s a reg) := by
  have hinv := counterInv_of_run hr
  have hreach := hr.reachable
  have hclaimed : ∀ x, a ∈ s.claims x → ¬ InRoom s a reg :=
    fun x hx hin => hinv.not_claimed_of_inRoom hreach hquiet hin x hx
  have hown : (s.calls a).ownResolved = result := by rw [ha]; cases result <;> rfl
  have hentry : (s.calls a).entry = reg.entry := by rw [ha]; rfl
  -- what looks like the entry of the call comes from the call itself, or shares its entry
  have hlike : ∀ (x : ι) (k : ℕ), (s.pushed x)[k]? = some reg.entry →
      (s.claims x)[k]? = some a ∨ SharesEntry s a reg := by
    intro x k hk
    obtain ⟨b, reg', hb, hcall, heq⟩ := hinv.pushed_of_quiescent hquiet hk
    by_cases hba : b = a
    · exact .inl (hba ▸ hb)
    · exact .inr ⟨b, hba, reg', hcall, heq⟩
  have hshares : (∀ x, (s.calls x).isModify = true → a ∉ s.claims x) →
      ∀ x, reg.entry ∈ s.pushed x → SharesEntry s a reg := by
    intro hno x hx
    obtain ⟨k, hk⟩ := List.mem_iff_getElem?.mp hx
    refine (hlike x k hk).resolve_left fun hclaim => ?_
    refine hno x ?_ (List.mem_of_getElem? hclaim)
    by_contra hmod
    rw [hinv.pushed_of_not_isModify (by simpa using hmod)] at hx
    cases hx
  obtain ⟨hresolved, hclaimer, hnodup, hpushed, -⟩ := hinv.resolvedOnce
  rcases hresolved a reg _ ha rfl with ⟨hpend, hres, hnone⟩ | ⟨-, hres, hnone⟩ |
    ⟨-, hres, x, hx, hunique⟩ <;> rw [hown] at hres
  · -- pending in its slot, which shows the place
    obtain ⟨i, hi, hocc, htaken, hslot⟩ := hpend
    have hnum := numWaitingFibers_of_reachable hreach
    refine .inl ⟨hres, ⟨i, hocc, ?_⟩, ?_, fun x hx => ?_,
      hshares fun x hmod hx => hnone x ⟨hmod, hx⟩⟩
    · simp [BaseCounter.room, hi, htaken, hslot, WaitingFibers.entry, Registration.entry]
    · have hne := (published_of_quiescent hreach hquiet (hnum ▸ hi) htaken).2.1
      rwa [hslot] at hne
    · rcases hclaimer a x hx with hmod | rfl
      · exact hnone x ⟨hmod, hx⟩
      · rw [(hinv.claims.own a).mp hx] at hown
        rw [← hown] at hres
        cases hres
  · have hno : ∀ x, (s.calls x).isModify = true → a ∉ s.claims x := fun x hmod hx =>
      hnone x ⟨hmod, hx⟩
    exact .inr (.inr ⟨hres, hclaimed a ((hinv.claims.own a).mpr (hown.trans hres)), hno,
      hshares hno⟩)
  · obtain ⟨k, hk⟩ := List.mem_iff_getElem?.mp hx.2
    refine .inr (.inl ⟨hres, hclaimed x hx.2, x, k, hx.1, hx.2,
      fun y hy => hinv.claims.unique a y x hy hx.2, ?_, fun y j hj => ?_⟩)
    · -- a scan that has ended has nothing in hand
      have hlist := hpushed x hx.1
      rw [CounterCall.inHand_of_not_inProgress (hquiet x), List.append_nil] at hlist
      rw [hlist, List.getElem?_map, hk, ← hentry]
      rfl
    · refine (hlike y j hj).imp_left fun hclaim => ?_
      obtain rfl := hinv.claims.unique a y x (List.mem_of_getElem? hclaim) hx.2
      -- a scan claims a registration once
      have hlt := (List.getElem?_eq_some_iff.mp hclaim).1
      exact ⟨rfl, (List.getElem?_inj hlt (hnodup y)).mp (hclaim.trans hk.symm)⟩

/-- Fiber 7 is left in the room of a counter that has passed over its value. -/
theorem quiescent_waiters_passedOver :
    ∃ s : CounterState (Fin 2), (counterSystem 1 (Fin 2)).Reachable s ∧
      InRoom s 0 ⟨7, 1, 100⟩ := by
  have hrun : ∃ (h : History (CounterState (Fin 2)) (CounterAction (Fin 2)))
      (s : CounterState (Fin 2)), (counterSystem 1 (Fin 2)).Run NoStaleClaim h s ∧
        (∀ x, (s.calls x).inProgress = false) ∧
        s.calls 0 = .addWaiting ⟨7, 1, 100⟩ (.returned false) ∧ s.pushed 1 = [] ∧
        (s.calls 0).isModify = false :=
    System.exists_run_of_trace rfl (passedOver (Fin 2)) (by decide)
  obtain ⟨h, s, hr, hquiet, hcall, hpushed, hmod⟩ := hrun
  refine ⟨s, hr.reachable, ?_⟩
  rcases quiescent_waiters hr hquiet hcall with ⟨-, hin, -⟩ | ⟨-, -, x, k, hx, -, -, hentry, -⟩ |
    ⟨h, -⟩
  · exact hin
  · obtain rfl : x = 1 := by
      rcases Fin.exists_fin_two.mp ⟨x, rfl⟩ with rfl | rfl
      · rw [hmod] at hx
        cases hx
      · rfl
    simp [hpushed] at hentry
  · cases h

end Quiescent

end NomadTasks
