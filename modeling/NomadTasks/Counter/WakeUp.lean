import NomadTasks.Counter.System

/-!
# No missed wake-up

A registration whose target the counter has reached is always in somebody's care: the call that
registered it has yet to compare the target with the value it loads or has loaded, or a modifier
that announces this very value has not scanned past the slot. Publishing the slot puts it in the
care of the registering call, and changing the value puts every slot in the care of the modifier.
Hence no such registration is left when all calls have ended.
-/

namespace NomadTasks

open Transition

variable {ι : Type} [DecidableEq ι]

/-- The scan has yet to look at slot `i`. -/
def ScanPc.ahead (i : ℕ) : ScanPc → Prop
  | .loadFree j | .loadInUse j | .compareTarget j | .casInUse j => j ≤ i
  | .loadFiberIndex j | .push j _ | .release j => j < i
  | .done => False

/-- The call will resolve slot `i`, if the slot's target is `value` and nobody else does so
before. -/
def CounterCall.CaresFor (value : CounterUnit) (i : ℕ) : CounterCall → Prop
  | .addWaiting _ (.loadCounter j) | .addWaiting _ (.casInUse j) => j = i
  | .addWaiting _ (.loadInUse j counter) | .addWaiting _ (.compareTarget j counter) =>
      j = i ∧ counter = value
  | .modify _ (.check _ announced pc) => announced = value ∧ pc.ahead i
  | _ => False

/-- A call that is not in progress cares for no slot. -/
theorem CounterCall.inProgress_of_caresFor {value : CounterUnit} {i : ℕ} {c : CounterCall}
    (h : c.CaresFor value i) : c.inProgress = true := by
  rcases c with _ | ⟨reg, pc⟩ | ⟨op, pc⟩
  · cases h
  · cases pc <;> first | rfl | cases h
  · cases pc <;> first | rfl | cases h

/-- Every published slot whose target is the counter's value is in some call's care. -/
def CaredFor (s : CounterState ι) : Prop :=
  ∀ i, i < s.ctr.numWaitingFibers → s.ctr.Published i →
    (s.ctr.waitingFibers i).targetValue = s.ctr.counter →
      ∃ x, (s.calls x).CaresFor s.ctr.counter i

omit [DecidableEq ι] in
/-- A step leaves the value and slot `i` as they are, or leaves slot `i` not published, or puts it
in the care of the call that takes the step. -/
theorem SlotInv.perform_slot {s : CounterState ι} (h : SlotInv s) {x : ι} {eff : Effect}
    {c : CounterCall} (hn : (s.calls x).next s.ctr = some (eff, c)) (i : ℕ) :
    ((s.ctr.apply eff).counter = s.ctr.counter ∧
      (s.ctr.apply eff).waitingFibers i = s.ctr.waitingFibers i ∧
      (s.ctr.apply eff).freeWaitingSlots i = s.ctr.freeWaitingSlots i) ∨
    ¬ (s.ctr.apply eff).Published i ∨ c.CaresFor (s.ctr.apply eff).counter i := by
  have hok := CounterCall.holdsOk hn
  -- a change of the value restarts a scan, and a change of the slot takes or frees it
  cases eff with
  | none | push entry => exact .inl ⟨rfl, rfl, rfl⟩
  | fetch value =>
    obtain ⟨op, -, -, rfl⟩ := CounterCall.next_fetch hn
    exact .inr (.inr ⟨rfl, Nat.zero_le i⟩)
  | acquire j =>
    by_cases hij : i = j
    · subst hij
      refine .inr (.inl fun hp => ?_)
      simpa [BaseCounter.apply, BaseCounter.setFree, h.free_inUse i hok.1] using hp.2
    · exact .inl ⟨rfl, rfl, by simp [BaseCounter.apply, BaseCounter.setFree, hij]⟩
  | write j slot =>
    by_cases hij : i = j
    · subst hij
      refine .inr (.inl fun hp => ?_)
      have huse := (h.held x i hok.1).2
      simpa [BaseCounter.apply, BaseCounter.setSlot, hok.2.2, huse] using hp.2
    · exact .inl ⟨rfl, by simp [BaseCounter.apply, BaseCounter.setSlot, hij], rfl⟩
  | publish j =>
    by_cases hij : i = j
    · obtain ⟨reg, -, rfl⟩ := CounterCall.next_publish hn
      exact .inr (.inr hij.symm)
    · exact .inl ⟨rfl, by simp [BaseCounter.apply, BaseCounter.setSlot, hij], rfl⟩
  | claim j =>
    by_cases hij : i = j
    · refine .inr (.inl fun hp => ?_)
      simpa [BaseCounter.apply, BaseCounter.setSlot, hij] using hp.2
    · exact .inl ⟨rfl, by simp [BaseCounter.apply, BaseCounter.setSlot, hij], rfl⟩
  | release j =>
    by_cases hij : i = j
    · refine .inr (.inl fun hp => ?_)
      simpa [BaseCounter.apply, BaseCounter.setFree, hij] using hp.1
    · exact .inl ⟨rfl, rfl, by simp [BaseCounter.apply, BaseCounter.setFree, hij]⟩

/-- A registering call keeps caring for its slot, unless it claims it. -/
private theorem caresFor_add_next {b : BaseCounter} {reg : Registration} {pc pc' : AddPc}
    {eff : Effect} {i : ℕ} (h : (CounterCall.addWaiting reg pc).CaresFor b.counter i)
    (huse : (b.waitingFibers i).inUse = false)
    (htarget : (b.waitingFibers i).targetValue = b.counter)
    (hn : pc.next b reg = some (eff, pc')) :
    (CounterCall.addWaiting reg pc').CaresFor b.counter i ∨ eff = .claim i := by
  -- the call goes on with the slot from its load up to its last exchange
  cases pc with
  | loadCounter j =>
    obtain rfl : j = i := h
    cases hn
    exact .inl ⟨rfl, rfl⟩
  | loadInUse j counter =>
    obtain ⟨rfl, rfl⟩ := h
    simp only [AddPc.next, huse, Bool.false_eq_true, if_false, Option.some.injEq,
      Prod.mk.injEq] at hn
    obtain ⟨-, rfl⟩ := hn
    exact .inl ⟨rfl, rfl⟩
  | compareTarget j counter =>
    obtain ⟨rfl, rfl⟩ := h
    simp only [AddPc.next, htarget, ne_eq, not_true_eq_false, if_false, Option.some.injEq,
      Prod.mk.injEq] at hn
    obtain ⟨-, rfl⟩ := hn
    exact .inl rfl
  | casInUse j =>
    obtain rfl : j = i := h
    simp only [AddPc.next, huse, Bool.false_eq_true, if_false, Option.some.injEq,
      Prod.mk.injEq] at hn
    exact .inr hn.1.symm
  | _ => cases h

/-- A scan that has yet to look at a published slot with its value stays so, unless it claims
it. -/
private theorem ahead_next {b : BaseCounter} {pc pc' : ScanPc} {eff : Effect} {i : ℕ}
    (h : pc.ahead i) (hi : i < b.numWaitingFibers) (hpub : b.Published i)
    (htarget : (b.waitingFibers i).targetValue = b.counter)
    (hn : pc.next b b.counter = some (eff, pc')) : pc'.ahead i ∨ eff = .claim i := by
  obtain ⟨hfree, huse⟩ := hpub
  -- a slot is passed only when it is free, in use, or has another target
  have hpass : ∀ j, j ≤ i → j ≠ i → (ScanPc.loadFree (j + 1)).ahead i :=
    fun j hle hne => Nat.lt_of_le_of_ne hle hne
  revert hn
  fun_cases ScanPc.next b b.counter pc <;> rintro ⟨⟩
  case case1 j hj hfreej =>
    exact .inl (hpass j h (by rintro rfl; simp [hfree] at hfreej))
  case case3 j hj =>
    exact absurd (Nat.lt_of_le_of_lt h hi) hj
  case case4 j husej => exact .inl (hpass j h (by rintro rfl; simp [huse] at husej))
  case case6 j hne => exact .inl (hpass j h (by rintro rfl; exact hne htarget))
  case case8 j husej => exact .inl (hpass j h (by rintro rfl; simp [huse] at husej))
  case case9 j husej =>
    rcases Nat.eq_or_lt_of_le h with rfl | hlt
    · exact .inr rfl
    · exact .inl hlt
  all_goals exact .inl h

/-- A call keeps caring for a published slot whose target is the value, unless it claims it. -/
theorem CounterCall.CaresFor.next {b : BaseCounter} {c c' : CounterCall} {eff : Effect} {i : ℕ}
    (h : c.CaresFor b.counter i) (hi : i < b.numWaitingFibers) (hpub : b.Published i)
    (htarget : (b.waitingFibers i).targetValue = b.counter) (hn : c.next b = some (eff, c')) :
    c'.CaresFor b.counter i ∨ eff = .claim i := by
  rcases c with _ | ⟨reg, pc⟩ | ⟨op, _ | ⟨prev, announced, pc⟩ | prev⟩
  · cases h
  · simp only [CounterCall.next, Option.map_eq_some_iff, Prod.exists, Prod.mk.injEq] at hn
    obtain ⟨eff', pc', hpc, rfl, rfl⟩ := hn
    exact caresFor_add_next h hpub.2 htarget hpc
  · cases h
  · obtain ⟨rfl, hahead⟩ := h
    cases hpc : pc.next b b.counter with
    | none =>
      rw [ScanPc.next_eq_none hpc] at hahead
      cases hahead
    | some r =>
      simp only [CounterCall.next, ModifyPc.next, hpc, Option.map_some, Option.some.injEq,
        Prod.mk.injEq] at hn
      obtain ⟨rfl, rfl⟩ := hn
      exact (ahead_next hahead hi hpub htarget hpc).imp_left fun h' => ⟨rfl, h'⟩
  · cases h

/-- Every step of a call leaves each slot that needs care in somebody's care. -/
theorem CaredFor.perform {s : CounterState ι} (h : CaredFor s) (hslots : SlotInv s) {x : ι}
    {eff : Effect} {c : CounterCall} (hn : (s.calls x).next s.ctr = some (eff, c)) :
    CaredFor (s.perform x eff c) := by
  intro i hi hpub htarget
  rw [CounterState.perform_ctr, BaseCounter.apply_numWaitingFibers] at hi
  rw [CounterState.perform_ctr] at hpub htarget ⊢
  rcases hslots.perform_slot hn i with ⟨hvalue, hslot, hfree⟩ | hnot | hcares
  · have hpub₀ : s.ctr.Published i := by
      rwa [BaseCounter.Published, hslot, hfree] at hpub
    rw [hslot, hvalue] at htarget
    obtain ⟨y, hy⟩ := h i hi hpub₀ htarget
    rw [hvalue]
    by_cases hyx : y = x
    · subst hyx
      rcases hy.next hi hpub₀ htarget hn with hcares | rfl
      · exact ⟨y, by rwa [CounterState.perform_calls, Function.update_self]⟩
      · -- a claimed slot is not published
        simp [BaseCounter.Published, BaseCounter.apply, BaseCounter.setSlot] at hpub
    · exact ⟨y, by rwa [CounterState.perform_calls, Function.update_of_ne hyx]⟩
  · exact absurd hpub hnot
  · exact ⟨x, by rwa [CounterState.perform_calls, Function.update_self]⟩

/-- A call that begins takes no slot out of anybody's care. -/
theorem CaredFor.setCall {s : CounterState ι} (h : CaredFor s) {x : ι} {c : CounterCall}
    (hx : s.calls x = .notStarted) : CaredFor (s.setCall x c) := by
  intro i hi hpub htarget
  obtain ⟨y, hy⟩ := h i hi hpub htarget
  have hyx : y ≠ x := by
    rintro rfl
    rw [hx] at hy
    cases hy
  exact ⟨y, by rwa [CounterState.setCall_calls, Function.update_of_ne hyx]⟩

/-- In every reachable state each registration whose target the counter has reached is in some
call's care. -/
theorem caredFor_of_reachable {n : ℕ} {s : CounterState ι}
    (hr : (counterSystem n ι).Reachable s) : SlotInv s ∧ CaredFor s := by
  refine hr.invariant (P := fun s => SlotInv s ∧ CaredFor s) ?_ ?_
  · rintro s rfl
    exact ⟨SlotsOk.construct n, fun i _ hpub => by cases hpub.1⟩
  · rintro s a s' ⟨hslots, hcared⟩ hs
    refine ⟨hslots.step hs, ?_⟩
    rcases counterStep_cases hs with ⟨x, c, hx, -, rfl⟩ | ⟨x, c, hx, -, rfl⟩ |
      ⟨x, eff, c, rfl, hn, rfl⟩
    · exact hcared.setCall hx
    · exact hcared.setCall hx
    · exact hcared.perform hslots hn

/-- No wake-up is missed: in a reachable state in which no call is in progress, no slot that is
registered and unclaimed waits for the value that the counter has. -/
theorem no_missed_wakeup {n : ℕ} {s : CounterState ι} (hr : (counterSystem n ι).Reachable s)
    (hquiet : ∀ x, (s.calls x).inProgress = false) (i : ℕ) (hi : i < n)
    (hpub : s.ctr.Published i) : (s.ctr.waitingFibers i).targetValue ≠ s.ctr.counter := by
  intro htarget
  rw [← numWaitingFibers_of_reachable hr] at hi
  obtain ⟨x, hx⟩ := (caredFor_of_reachable hr).2 i hi hpub htarget
  exact Bool.false_ne_true ((hquiet x).symm.trans (CounterCall.inProgress_of_caresFor hx))

/-- An `Increment` overtakes an `AddWaitingFiber` between its publication and its load. -/
def overtakenWait (ι : Type) [OfNat ι 0] [OfNat ι 1] : List (CounterAction ι) :=
  [.beginAddWaiting 0 { fiberIndex := 3, targetValue := 0, fiberStored := 7 }, .beginModify 1
    (.increment 1)] ++ List.replicate 5 (.step 0) ++ List.replicate 6 (.step 1) ++
    List.replicate 3 (.step 0)

/-- The wait is left registered, for a value that the counter does not have. -/
theorem no_missed_wakeup_overtaken :
    ∃ s : CounterState (Fin 2), (counterSystem 1 (Fin 2)).Reachable s ∧ s.ctr.Published 0 ∧
      (s.ctr.waitingFibers 0).targetValue ≠ s.ctr.counter := by
  have hrun : ∃ (h : History (CounterState (Fin 2)) (CounterAction (Fin 2)))
      (s : CounterState (Fin 2)), (counterSystem 1 (Fin 2)).Run (fun _ _ _ => True) h s ∧
        (∀ x, (s.calls x).inProgress = false) ∧ s.ctr.Published 0 :=
    System.exists_run_of_trace rfl (overtakenWait (Fin 2)) (by decide)
  obtain ⟨h, s, hr, hquiet, hpub⟩ := hrun
  exact ⟨s, hr.reachable, hpub, no_missed_wakeup hr.reachable hquiet 0 Nat.one_pos hpub⟩

end NomadTasks
