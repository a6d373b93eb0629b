import NomadTasks.Counter.Occupant

/-!
# When `AddWaitingFiber` refuses a fiber

`AddWaitingFiber` tries the slots one after another, and throws `EX_COUNTER_WAITINGS_SLOTS_FULL`
when it has come to the end. A slot is taken from the exchange that acquires it until it is given
back, which is after its fiber has been put into a ready list; and a slot that was taken when the
call tried it can be given back while the call tries the next one.

* `Taken`: a slot is taken by the registration of another call.
* `FullAtOnce`: all slots are taken, by registrations that are not resolved, in one state.
* `refused_of_each_taken`: a call that throws has found each slot taken when it tried it.
-/

namespace NomadTasks

open Transition Ownership

variable {ι : Type}

/-- Slot `i` is not free because of another call than `x`: it has acquired the slot last, and its
registration is pending, or some call has the slot to itself. -/
structure Taken (s : CounterState ι) (x : ι) (i : ℕ) : Prop where
  notFree : s.ctr.freeWaitingSlots i = false
  occupied : ∃ y, y ≠ x ∧ s.occupant i = some y
  stage : (s.ctr.waitingFibers i).inUse = false ∨ ∃ z, z ≠ x ∧ (s.calls z).holds = some i

/-- The registration of call `y` has been neither claimed by the call itself nor pushed to a ready
list. -/
def Unresolved (s : CounterState ι) (y : ι) : Prop :=
  (s.calls y).ownResolved = false ∧
    ∀ reg ∈ (s.calls y).registration, ∀ z, reg.entry ∉ s.pushed z

/-- In some state during call `x`, all slots were taken by registrations that were not resolved. -/
def FullAtOnce (n : ℕ) (h : History (CounterState ι) (CounterAction ι)) (x : ι) : Prop :=
  ∃ e ∈ h, (e.1.calls x).inProgress = true ∧ ∀ i < n, e.1.ctr.freeWaitingSlots i = false ∧
    ∃ y, y ≠ x ∧ e.1.occupant i = some y ∧ Unresolved e.1 y

/-! ## Why a slot is not free -/

/-- A slot that is not free has been acquired by some call, and is in use only while a call has it
to itself. -/
def NotFreeInv (s : CounterState ι) : Prop :=
  ∀ i, s.ctr.freeWaitingSlots i = false → (∃ y, s.occupant i = some y) ∧
    ((s.ctr.waitingFibers i).inUse = true → ∃ z, (s.calls z).holds = some i)

namespace NotFreeInv

variable [DecidableEq ι] {s : CounterState ι} {x : ι} {c : CounterCall}

/-- A call that begins holds nothing, as before. -/
theorem setCall (hi : NotFreeInv s) (hc : c.holds = (s.calls x).holds) :
    NotFreeInv (s.setCall x c) := by
  intro i hfree
  obtain ⟨hocc, hheld⟩ := hi i hfree
  refine ⟨hocc, fun huse => ?_⟩
  obtain ⟨z, hz⟩ := hheld huse
  exact ⟨z, (s.update_congr _ hc z).trans hz⟩

/-- Every step of a call. -/
theorem perform (hi : NotFreeInv s) {eff : Effect} (hn : (s.calls x).next s.ctr = some (eff, c)) :
    NotFreeInv (s.perform x eff c) := by
  have hok := CounterCall.holdsOk hn
  intro i hfree
  -- the call still holds what it held, unless the step concerns this slot
  have hkeep : (∃ y, s.occupant i = some y) ∧
      ((s.ctr.waitingFibers i).inUse = true → ∃ z, (s.calls z).holds = some i) →
      ((s.calls x).holds = some i → c.holds = some i) →
      (s.ctr.waitingFibers i).inUse = true →
      ∃ z, (Function.update s.calls x c z).holds = some i := by
    rintro ⟨-, hheld⟩ hx huse
    obtain ⟨z, hz⟩ := hheld huse
    refine ⟨z, ?_⟩
    by_cases hzx : z = x
    · subst hzx
      rw [Function.update_self]
      exact hx hz
    · rwa [Function.update_of_ne hzx]
  cases eff with
  | none | fetch value | push entry =>
    exact ⟨(hi i hfree).1, fun huse => hkeep (hi i hfree) (fun hx => hok.trans hx) huse⟩
  -- the call that acquires the slot is its occupant, and holds it
  | acquire j =>
    obtain ⟨-, hnone, hj⟩ := hok
    by_cases hij : i = j
    · subst hij
      exact ⟨⟨x, by simp [CounterState.perform, CounterState.occupantAfter]⟩,
        fun _ => ⟨x, by simpa using hj⟩⟩
    · have hold : s.ctr.freeWaitingSlots i = false := by
        simpa [BaseCounter.apply, BaseCounter.setFree, hij] using hfree
      refine ⟨by simpa [CounterState.perform, CounterState.occupantAfter, hij] using (hi i hold).1,
        fun huse => hkeep (hi i hold) (fun hx => ?_) huse⟩
      rw [hnone] at hx
      cases hx
  | write j slot =>
    obtain ⟨hbefore, hafter, huse'⟩ := hok
    refine ⟨(hi i hfree).1, fun huse => hkeep (hi i hfree)
      (fun hx => hafter.trans (hbefore.symm.trans hx)) ?_⟩
    by_cases hij : i = j
    · subst hij
      simpa [BaseCounter.apply, BaseCounter.setSlot, huse'] using huse
    · simpa [BaseCounter.apply, BaseCounter.setSlot, hij] using huse
  -- a slot that is given up is either not in use, or free
  | publish j =>
    obtain ⟨hbefore, -⟩ := hok
    refine ⟨(hi i hfree).1, fun huse => ?_⟩
    have hij : i ≠ j := by
      rintro rfl
      simp [BaseCounter.apply, BaseCounter.setSlot] at huse
    refine hkeep (hi i hfree) (fun hx => ?_)
      (by simpa [BaseCounter.apply, BaseCounter.setSlot, hij] using huse)
    exact absurd (Option.some.inj (hx.symm.trans hbefore)) hij
  | claim j =>
    obtain ⟨-, hnone, hj⟩ := hok
    refine ⟨(hi i hfree).1, fun huse => ?_⟩
    by_cases hij : i = j
    · subst hij
      exact ⟨x, by simpa using hj⟩
    · refine hkeep (hi i hfree) (fun hx => ?_)
        (by simpa [BaseCounter.apply, BaseCounter.setSlot, hij] using huse)
      rw [hnone] at hx
      cases hx
  | release j =>
    obtain ⟨hbefore, -⟩ := hok
    have hij : i ≠ j := by
      rintro rfl
      simp [BaseCounter.apply, BaseCounter.setFree] at hfree
    have hold : s.ctr.freeWaitingSlots i = false := by
      simpa [BaseCounter.apply, BaseCounter.setFree, hij] using hfree
    refine ⟨(hi i hold).1, fun huse => hkeep (hi i hold) (fun hx => ?_) huse⟩
    exact absurd (Option.some.inj (hx.symm.trans hbefore)) hij

/-- Every step of the interleaving. -/
theorem step (hi : NotFreeInv s) {a : CounterAction ι} {s' : CounterState ι}
    (hs : counterStep s a = some s') : NotFreeInv s' := by
  rcases counterStep_cases hs with ⟨x, c, hx, ⟨reg, rfl⟩, rfl⟩ | ⟨x, c, hx, ⟨op, rfl⟩, rfl⟩ |
    ⟨x, eff, c, rfl, hn, rfl⟩
  · exact hi.setCall (by rw [hx]; rfl)
  · exact hi.setCall (by rw [hx]; rfl)
  · exact hi.perform hn

end NotFreeInv

variable [DecidableEq ι] {n : ℕ} {ok : History (CounterState ι) (CounterAction ι) →
  CounterState ι → CounterAction ι → Prop} {h : History (CounterState ι) (CounterAction ι)}
  {s s' : CounterState ι} {x : ι} {reg : Registration}

/-- It holds in every reachable state, together with what the occupants have written. -/
theorem notFreeInv_of_reachable (hr : (counterSystem n ι).Reachable s) :
    NotFreeInv s ∧ SlotInv s ∧ OccupantInv s := by
  refine hr.invariant (P := fun s => NotFreeInv s ∧ SlotInv s ∧ OccupantInv s) ?_ ?_
  · rintro s rfl
    refine ⟨fun i hfree => ?_, .construct n, .idle _⟩
    cases hfree
  · rintro s a s' ⟨hi, hslots, hocc⟩ hs
    exact ⟨hi.step hs, hslots.step hs, hocc.step hslots hs⟩

/-- A slot that a call finds taken is taken by another call. -/
theorem taken_of_not_free (hr : (counterSystem n ι).Reachable s) {i j : ℕ}
    (hx : s.calls x = .addWaiting reg (.casFree j)) (hfree : s.ctr.freeWaitingSlots i = false) :
    Taken s x i := by
  obtain ⟨hi, -, hocc⟩ := notFreeInv_of_reachable hr
  obtain ⟨⟨y, hy⟩, hheld⟩ := hi i hfree
  refine ⟨hfree, ⟨y, ?_, hy⟩, ?_⟩
  -- a call that is still trying slots occupies none, and holds none
  · rintro rfl
    have hok := (hocc.occupant_ok i y hy).2
    rw [hx] at hok
    exact hok
  · by_cases huse : (s.ctr.waitingFibers i).inUse = false
    · exact .inl huse
    · obtain ⟨z, hz⟩ := hheld (by simpa using huse)
      refine .inr ⟨z, ?_, hz⟩
      rintro rfl
      rw [hx] at hz
      cases hz

/-! ## Whole runs -/

/-- How many slots a call has found taken. -/
def AddPc.tried (n : ℕ) : AddPc → ℕ
  | .casFree i => i
  | .threw => n
  | _ => 0

/-- Each slot that a call has tried in vain was taken when the call tried it. -/
def TriedInv (n : ℕ) (h : History (CounterState ι) (CounterAction ι)) (s : CounterState ι) : Prop :=
  ∀ x reg pc, s.calls x = .addWaiting reg pc → ∀ i < pc.tried n, ∃ e ∈ h, e.2 = .step x ∧
    e.1.calls x = .addWaiting reg (.casFree i) ∧ Taken e.1 x i

/-- A step of `AddWaitingFiber` tries the next slot, or has come to the end. -/
theorem AddPc.tried_next {b : BaseCounter} {pc pc' : AddPc} {eff : Effect}
    (hn : pc.next b reg = some (eff, pc')) :
    pc'.tried b.numWaitingFibers ≤ pc.tried b.numWaitingFibers ∨
      ∃ i, pc = .casFree i ∧ pc' = .casFree (i + 1) ∧ b.freeWaitingSlots i = false := by
  revert hn
  fun_cases AddPc.next b reg pc <;> rintro ⟨⟩ <;> simp_all [AddPc.tried]

omit [DecidableEq ι] in
/-- A call that is not the one that moves. -/
theorem TriedInv.mono (hi : TriedInv n h s) {a : CounterAction ι}
    (hcall : ∀ x reg pc, s'.calls x = .addWaiting reg pc → 0 < pc.tried n →
      s.calls x = .addWaiting reg pc) : TriedInv n ((s, a) :: h) s' := by
  intro x reg pc hx i hlt
  obtain ⟨e, he, hstep⟩ := hi x reg pc (hcall x reg pc hx (by omega)) i hlt
  exact ⟨e, List.mem_cons_of_mem _ he, hstep⟩

/-- It holds at the end of every run. -/
theorem triedInv_of_run (hr : (counterSystem n ι).Run ok h s) : TriedInv n h s := by
  refine hr.invariant (P := TriedInv n) ?_ ?_
  · rintro s rfl x reg pc ⟨⟩
  · intro h s a s' hr hi _ hs
    have hslots := numWaitingFibers_of_reachable hr.reachable
    rcases counterStep_cases hs with ⟨x, c, -, ⟨reg, rfl⟩, rfl⟩ | ⟨x, c, -, ⟨op, rfl⟩, rfl⟩ |
      ⟨x, eff, c, rfl, hn, rfl⟩
    -- a call that begins has tried no slot
    · refine hi.mono fun y reg' pc hy hpos => ?_
      by_cases hyx : y = x
      · subst hyx
        obtain ⟨rfl, rfl⟩ : reg = reg' ∧ AddPc.casFree 0 = pc := by simpa using hy
        cases hpos
      · simpa [hyx] using hy
    · refine hi.mono fun y reg' pc hy hpos => ?_
      by_cases hyx : y = x
      · subst hyx
        simp at hy
      · simpa [hyx] using hy
    · intro y reg pc' hy i hlt
      by_cases hyx : y = x
      · subst hyx
        obtain rfl : c = .addWaiting reg pc' := by simpa using hy
        rcases hcall : s.calls y with _ | ⟨reg', pc⟩ | ⟨op, pc⟩
        · rw [hcall] at hn
          cases hn
        · simp only [hcall, CounterCall.next, Option.map_eq_some_iff, Prod.exists, Prod.mk.injEq,
            CounterCall.addWaiting.injEq] at hn
          obtain ⟨eff', pc'', hpc, rfl, rfl, rfl⟩ := hn
          have htried := AddPc.tried_next hpc
          rw [hslots] at htried
          rcases htried with hle | ⟨j, rfl, rfl, hfree⟩
          · obtain ⟨e, he, hstep⟩ := hi y reg' pc hcall i (hlt.trans_le hle)
            exact ⟨e, List.mem_cons_of_mem _ he, hstep⟩
          -- the slot of this step is tried in the state before it
          · rcases Nat.lt_succ_iff_lt_or_eq.mp hlt with hlt | rfl
            · obtain ⟨e, he, hstep⟩ := hi y reg' _ hcall i hlt
              exact ⟨e, List.mem_cons_of_mem _ he, hstep⟩
            · exact ⟨_, List.mem_cons_self, rfl, hcall, taken_of_not_free hr.reachable hcall hfree⟩
        · simp only [hcall, CounterCall.next, Option.map_eq_some_iff, Prod.exists,
            Prod.mk.injEq] at hn
          obtain ⟨_, _, -, -, heq⟩ := hn
          cases heq
      -- another call has tried what it had tried
      · obtain ⟨e, he, hstep⟩ := hi y reg pc' (by simpa [hyx] using hy) i hlt
        exact ⟨e, List.mem_cons_of_mem _ he, hstep⟩

/-- In every run, a call that throws `EX_COUNTER_WAITINGS_SLOTS_FULL` has tried each slot, and has
found it taken by another call at that moment. -/
theorem refused_of_each_taken (hr : (counterSystem n ι).Run ok h s)
    (hx : s.calls x = .addWaiting reg .threw) {i : ℕ} (hi : i < n) :
    ∃ e ∈ h, e.2 = .step x ∧ e.1.calls x = .addWaiting reg (.casFree i) ∧ Taken e.1 x i :=
  triedInv_of_run hr x reg .threw hx i hi

/-- Fiber 7 waits for one, and a call of `Increment` comes to the exchange that claims its slot. -/
def waitForOne (ι : Type) [OfNat ι 0] [OfNat ι 1] : List (CounterAction ι) :=
  [.beginAddWaiting 0 { fiberIndex := 7, targetValue := 1, fiberStored := 100 }] ++
    List.replicate 8 (.step 0) ++ [.beginModify 1 (.increment 1)] ++ List.replicate 4 (.step 1)

/-- The only slot: the call of `Increment` has pushed fiber 7, and has not given back the slot, when
fiber 8 wants to wait. -/
def refusedAfterPush : List (CounterAction (Fin 3)) :=
  waitForOne (Fin 3) ++ List.replicate 3 (.step 1) ++
    [.beginAddWaiting 2 { fiberIndex := 8, targetValue := 2, fiberStored := 200 }, .step 2, .step 2]

/-- Two slots: while fiber 9 is between the first and the second one, the first is given back, and
fiber 8 takes the second. -/
def refusedBetween : List (CounterAction (Fin 4)) :=
  waitForOne (Fin 4) ++
    [.beginAddWaiting 2 { fiberIndex := 8, targetValue := 2, fiberStored := 200 }, .step 2,
      .beginAddWaiting 3 { fiberIndex := 9, targetValue := 2, fiberStored := 300 }, .step 3] ++
    List.replicate 4 (.step 1) ++ [.step 2, .step 3, .step 3]

theorem refused_of_each_taken_first :
    ∃ h s, (counterSystem 1 (Fin 3)).Run (fun _ _ _ => True) h s ∧
      s.calls 2 = .addWaiting ⟨8, 2, 200⟩ .threw ∧
      ∃ e ∈ h, e.2 = .step 2 ∧ e.1.calls 2 = .addWaiting ⟨8, 2, 200⟩ (.casFree 0) ∧
        Taken e.1 2 0 := by
  have hrun : ∃ (h : History (CounterState (Fin 3)) (CounterAction (Fin 3)))
      (s : CounterState (Fin 3)), (counterSystem 1 (Fin 3)).Run (fun _ _ _ => True) h s ∧
        s.calls 2 = .addWaiting ⟨8, 2, 200⟩ .threw :=
    System.exists_run_of_trace rfl refusedAfterPush (by decide)
  obtain ⟨h, s, hr, hx⟩ := hrun
  exact ⟨h, s, hr, hx, refused_of_each_taken hr hx (by decide)⟩

/-- A call throws although the fiber in the only slot is in a ready list all the time; and a call
throws although in each state in which it is in progress one of the two slots is free. -/
theorem refused_without_full :
    (∃ h s, (counterSystem 1 (Fin 3)).Run (fun _ _ _ => True) h s ∧
      s.calls 2 = .addWaiting ⟨8, 2, 200⟩ .threw ∧ ¬ FullAtOnce 1 h 2) ∧
    ∃ h s, (counterSystem 2 (Fin 4)).Run (fun _ _ _ => True) h s ∧
      s.calls 3 = .addWaiting ⟨9, 2, 300⟩ .threw ∧ ¬ FullAtOnce 2 h 3 ∧
      ∀ e ∈ h, (e.1.calls 3).inProgress = true → ∃ i < 2, e.1.ctr.freeWaitingSlots i = true := by
  have hpushed : ∃ (h : History (CounterState (Fin 3)) (CounterAction (Fin 3)))
      (s : CounterState (Fin 3)), (counterSystem 1 (Fin 3)).Run (fun _ _ _ => True) h s ∧
        s.calls 2 = .addWaiting ⟨8, 2, 200⟩ .threw ∧
        ∀ e ∈ h, (e.1.calls 2).inProgress = true → e.1.occupant 0 = some 0 ∧
          (e.1.calls 0).registration = some ⟨7, 1, 100⟩ ∧ (7, 100) ∈ e.1.pushed 1 :=
    System.exists_run_of_trace rfl refusedAfterPush (by decide)
  have hbetween : ∃ (h : History (CounterState (Fin 4)) (CounterAction (Fin 4)))
      (s : CounterState (Fin 4)), (counterSystem 2 (Fin 4)).Run (fun _ _ _ => True) h s ∧
        s.calls 3 = .addWaiting ⟨9, 2, 300⟩ .threw ∧
        ∀ e ∈ h, (e.1.calls 3).inProgress = true → ∃ i < 2, e.1.ctr.freeWaitingSlots i = true :=
    System.exists_run_of_trace rfl refusedBetween (by decide)
  constructor
  · obtain ⟨h, s, hr, hx, hall⟩ := hpushed
    refine ⟨h, s, hr, hx, ?_⟩
    rintro ⟨e, he, hprogress, hfull⟩
    obtain ⟨-, y, -, hy, -, hun⟩ := hfull 0 (by decide)
    obtain ⟨hocc, hreg, hmem⟩ := hall e he hprogress
    obtain rfl : 0 = y := Option.some.inj (hocc.symm.trans hy)
    exact hun _ hreg 1 hmem
  · obtain ⟨h, s, hr, hx, hall⟩ := hbetween
    refine ⟨h, s, hr, hx, ?_, hall⟩
    rintro ⟨e, he, hprogress, hfull⟩
    obtain ⟨i, hi, hfree⟩ := hall e he hprogress
    rw [(hfull i hi).1] at hfree
    cases hfree

end NomadTasks
