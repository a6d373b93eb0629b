import NomadTasks.Counter.System

/-!
# Who registered what in which slot

The occupant of a slot is the call that acquired it last. It is the only call that writes the
slot's fields, and its program point says which of them it has written; they keep their values
until another call acquires the slot.
-/

namespace NomadTasks

open Transition Ownership

variable {ι : Type}

/-- The fields of the slot are those of the registration. -/
def Registration.Matches (reg : Registration) (slot : WaitingFibers) : Prop :=
  slot.fiberIndex = reg.fiberIndex ∧ slot.fiberStored = reg.fiberStored ∧
    slot.targetValue = reg.targetValue

/-- The call has published its registration. -/
def AddPc.registered : AddPc → Bool
  | .loadCounter _ | .loadInUse _ _ | .compareTarget _ _ | .casInUse _ | .release _
  | .returned _ => true
  | _ => false

namespace CounterCall

/-- What the call registers, if it is an `AddWaitingFiber`. -/
def registration : CounterCall → Option Registration
  | .addWaiting reg _ => some reg
  | _ => none

/-- The call has published a registration. -/
def registered : CounterCall → Bool
  | .addWaiting _ pc => pc.registered
  | _ => false

/-- The call has claimed a registration in `AddWaitingFiber`: it returns `true`. -/
def ownResolved : CounterCall → Bool
  | .addWaiting _ (.release _) | .addWaiting _ (.returned true) => true
  | _ => false

/-- The slot that the call has acquired and not yet published. -/
def setupSlot : CounterCall → Option ℕ
  | .addWaiting _ (.setFiberIndex i) | .addWaiting _ (.setFiberStored i)
  | .addWaiting _ (.setTargetValue i) | .addWaiting _ (.publish i) => some i
  | _ => none

/-- What the call has written to slot `i`, whose occupant it is. -/
def OccupantOk (i : ℕ) (slot : WaitingFibers) : CounterCall → Prop
  | .addWaiting _ (.setFiberIndex j) => j = i
  | .addWaiting reg (.setFiberStored j) => j = i ∧ slot.fiberIndex = reg.fiberIndex
  | .addWaiting reg (.setTargetValue j) =>
      j = i ∧ slot.fiberIndex = reg.fiberIndex ∧ slot.fiberStored = reg.fiberStored
  | .addWaiting reg (.publish j) | .addWaiting reg (.loadCounter j)
  | .addWaiting reg (.loadInUse j _) | .addWaiting reg (.compareTarget j _)
  | .addWaiting reg (.casInUse j) | .addWaiting reg (.release j) => j = i ∧ reg.Matches slot
  | .addWaiting reg (.returned _) => reg.Matches slot
  | _ => False

/-- A slot being set up is held. -/
theorem holds_of_setupSlot {c : CounterCall} {i : ℕ} (h : c.setupSlot = some i) :
    c.holds = some i := by
  rcases c with _ | ⟨reg, pc⟩ | ⟨op, pc⟩
  · cases h
  · cases pc <;> first | exact h | cases h
  · cases h

/-- The occupant of a slot is an `AddWaitingFiber`, and its registration is in the slot once it has
published it. -/
theorem OccupantOk.matches {c : CounterCall} {i : ℕ} {slot : WaitingFibers}
    (h : c.OccupantOk i slot) (hreg : c.registered = true) :
    ∃ reg, c.registration = some reg ∧ reg.Matches slot := by
  rcases c with _ | ⟨reg, pc⟩ | ⟨op, pc⟩
  · cases h
  · refine ⟨reg, rfl, ?_⟩
    cases pc <;> first | exact h.2 | exact h | cases hreg
  · cases h

/-- Who occupies a slot depends on its fields only. -/
theorem OccupantOk.congr {c : CounterCall} {i : ℕ} {slot slot' : WaitingFibers}
    (h : c.OccupantOk i slot) (hindex : slot'.fiberIndex = slot.fiberIndex)
    (hstored : slot'.fiberStored = slot.fiberStored)
    (htarget : slot'.targetValue = slot.targetValue) : c.OccupantOk i slot' := by
  rcases c with _ | ⟨reg, pc⟩ | ⟨op, pc⟩
  · cases h
  · cases pc <;> simp_all [OccupantOk, Registration.Matches]
  · cases h

/-- Only a call that sets a slot up writes it. -/
theorem next_write {b : BaseCounter} {c c' : CounterCall} {i : ℕ} {slot : WaitingFibers}
    (h : c.next b = some (.write i slot, c')) : c.setupSlot = some i := by
  rcases c with _ | ⟨reg, pc⟩ | ⟨op, _ | ⟨prev, announced, pc⟩ | prev⟩
  · cases h
  · revert h
    simp only [CounterCall.next]
    fun_cases AddPc.next b reg pc <;> simp [setupSlot] <;> rintro rfl _ _ <;> rfl
  · cases h
  · revert h
    simp only [CounterCall.next, ModifyPc.next]
    fun_cases ScanPc.next b announced pc <;> simp
  · cases h

end CounterCall

/-- An effect changes the fields of a slot only by a store to it. -/
theorem BaseCounter.apply_fields (b : BaseCounter) (eff : Effect) (i : ℕ)
    (h : ∀ slot, eff ≠ .write i slot) :
    ((b.apply eff).waitingFibers i).fiberIndex = (b.waitingFibers i).fiberIndex ∧
      ((b.apply eff).waitingFibers i).fiberStored = (b.waitingFibers i).fiberStored ∧
      ((b.apply eff).waitingFibers i).targetValue = (b.waitingFibers i).targetValue := by
  cases eff with
  | write j slot =>
    have hij : i ≠ j := by
      rintro rfl
      exact h slot rfl
    simp [BaseCounter.apply, BaseCounter.setSlot, hij]
  | publish j | claim j =>
    by_cases hij : i = j
    · subst hij
      simp [BaseCounter.apply, BaseCounter.setSlot]
    · simp [BaseCounter.apply, BaseCounter.setSlot, hij]
  | _ => exact ⟨rfl, rfl, rfl⟩

/-- The occupant of a slot has written to it what its program point says, however it steps. -/
theorem CounterCall.OccupantOk.next {b : BaseCounter} {c c' : CounterCall} {eff : Effect} {i : ℕ}
    (h : c.OccupantOk i (b.waitingFibers i)) (hn : c.next b = some (eff, c')) :
    c'.OccupantOk i ((b.apply eff).waitingFibers i) := by
  rcases c with _ | ⟨reg, pc⟩ | ⟨op, pc⟩
  · cases hn
  · revert hn h
    simp only [CounterCall.next]
    fun_cases AddPc.next b reg pc <;> rintro h ⟨⟩ <;>
      simp_all [CounterCall.OccupantOk, Registration.Matches, BaseCounter.apply,
        BaseCounter.setSlot, BaseCounter.setFree]
  · cases h

/-- A slot is being set up after a step other than an acquisition only if it was before. -/
theorem CounterCall.setupSlot_next {b : BaseCounter} {c c' : CounterCall} {eff : Effect} {i : ℕ}
    (hn : c.next b = some (eff, c')) (hset : c'.setupSlot = some i) :
    c.setupSlot = some i ∨ eff = .acquire i := by
  rcases c with _ | ⟨reg, pc⟩ | ⟨op, pc⟩
  · cases hn
  · revert hn hset
    simp only [next]
    fun_cases AddPc.next b reg pc <;> rintro hset ⟨⟩ <;> simp_all [setupSlot]
  · simp only [next, Option.map_eq_some_iff, Prod.exists, Prod.mk.injEq] at hn
    obtain ⟨eff', pc', -, -, rfl⟩ := hn
    cases hset

/-- Every occupied slot has an occupant whose program point says what is in it, no call occupies
two slots, and a slot that is being set up is occupied by the call that does so. -/
structure OccupantInv (s : CounterState ι) : Prop where
  occupant_ok : ∀ i a, s.occupant i = some a →
    i < s.ctr.numWaitingFibers ∧ (s.calls a).OccupantOk i (s.ctr.waitingFibers i)
  exclusive : Exclusive s.occupant
  setup : ∀ a i, (s.calls a).setupSlot = some i → s.occupant i = some a

namespace OccupantInv

variable [DecidableEq ι] {s : CounterState ι}

/-- A call that begins occupies no slot. -/
theorem setCall (h : OccupantInv s) {x : ι} {c : CounterCall} (hx : s.calls x = .notStarted)
    (hc : c.setupSlot = none) : OccupantInv (s.setCall x c) where
  occupant_ok i a ha := by
    obtain ⟨hi, hok⟩ := h.occupant_ok i a ha
    have hax : a ≠ x := by
      rintro rfl
      rw [hx] at hok
      cases hok
    exact ⟨hi, by rwa [CounterState.setCall_calls, Function.update_of_ne hax]⟩
  exclusive := h.exclusive
  setup a i ha := by
    by_cases hax : a = x
    · subst hax
      rw [CounterState.setCall_calls, Function.update_self, hc] at ha
      cases ha
    · rw [CounterState.setCall_calls, Function.update_of_ne hax] at ha
      exact h.setup a i ha

/-- A step that acquires no slot changes no occupant. -/
private theorem perform_other (h : OccupantInv s) {x : ι} {eff : Effect} {c : CounterCall}
    (hn : (s.calls x).next s.ctr = some (eff, c)) (hacq : ∀ i, eff ≠ .acquire i) :
    OccupantInv (s.perform x eff c) := by
  have hocc : (s.perform x eff c).occupant = s.occupant := by
    cases eff <;> first | rfl | exact absurd rfl (hacq _)
  refine ⟨fun i a ha => ?_, hocc ▸ h.exclusive, fun a i ha => ?_⟩
  · rw [hocc] at ha
    obtain ⟨hi, hok⟩ := h.occupant_ok i a ha
    rw [CounterState.perform_ctr, BaseCounter.apply_numWaitingFibers]
    refine ⟨hi, ?_⟩
    rw [CounterState.perform_calls]
    by_cases hax : a = x
    · subst hax
      rw [Function.update_self]
      exact hok.next hn
    · rw [Function.update_of_ne hax]
      -- only its occupant writes a slot
      have hfields := s.ctr.apply_fields eff i fun slot heq => hax (by
        subst heq
        have hset := h.setup x i (CounterCall.next_write hn)
        rw [ha] at hset
        exact Option.some.inj hset)
      exact hok.congr hfields.1 hfields.2.1 hfields.2.2
  · rw [hocc]
    rw [CounterState.perform_calls] at ha
    -- a call that starts to write a slot has acquired it, and this step acquires none
    by_cases hax : a = x
    · subst hax
      rw [Function.update_self] at ha
      rcases CounterCall.setupSlot_next hn ha with hset | heq
      · exact h.setup a i hset
      · exact absurd heq (hacq i)
    · rw [Function.update_of_ne hax] at ha
      exact h.setup a i ha

/-- A call that acquires a slot becomes its occupant, and occupied none before. -/
private theorem perform_acquire (h : OccupantInv s) (hslots : SlotInv s) {x : ι} {i : ℕ}
    {c : CounterCall} (hn : (s.calls x).next s.ctr = some (.acquire i, c)) :
    OccupantInv (s.perform x (.acquire i) c) := by
  obtain ⟨reg, hx, rfl, hi, hfree⟩ := CounterCall.next_acquire hn
  -- a call that is about to take a slot occupies none
  have hnew : ∀ j, s.occupant j ≠ some x := by
    intro j hj
    have hok := (h.occupant_ok j x hj).2
    rw [hx] at hok
    cases hok
  refine ⟨fun j a ha => ?_, h.exclusive.acquire hnew, fun a j ha => ?_⟩
  · change Function.update s.occupant i (some x) j = some a at ha
    rw [CounterState.perform_calls]
    by_cases hji : j = i
    · subst hji
      rw [Function.update_self, Option.some.injEq] at ha
      subst ha
      rw [Function.update_self]
      exact ⟨hi, rfl⟩
    · rw [Function.update_of_ne hji] at ha
      have hax : a ≠ x := by
        rintro rfl
        exact hnew j ha
      rw [Function.update_of_ne hax]
      exact h.occupant_ok j a ha
  · change Function.update s.occupant i (some x) j = some a
    rw [CounterState.perform_calls] at ha
    by_cases hax : a = x
    · subst hax
      rw [Function.update_self] at ha
      obtain rfl : i = j := Option.some.inj ha
      rw [Function.update_self]
    · rw [Function.update_of_ne hax] at ha
      -- the slot was free, so that nobody was writing it
      have hji : j ≠ i := by
        rintro rfl
        exact hslots.not_holds_free hfree a (CounterCall.holds_of_setupSlot ha)
      rw [Function.update_of_ne hji]
      exact h.setup a j ha

/-- Every step of a call keeps the occupants in line. -/
theorem perform (h : OccupantInv s) (hslots : SlotInv s) {x : ι} {eff : Effect} {c : CounterCall}
    (hn : (s.calls x).next s.ctr = some (eff, c)) : OccupantInv (s.perform x eff c) := by
  by_cases hacq : ∃ i, eff = .acquire i
  · obtain ⟨i, rfl⟩ := hacq
    exact h.perform_acquire hslots hn
  · exact h.perform_other hn fun i heq => hacq ⟨i, heq⟩

/-- Every step of the interleaving keeps the occupants in line. -/
theorem step (h : OccupantInv s) (hslots : SlotInv s) {a : CounterAction ι} {s' : CounterState ι}
    (hs : counterStep s a = some s') : OccupantInv s' := by
  rcases counterStep_cases hs with ⟨x, c, hx, ⟨reg, rfl⟩, rfl⟩ | ⟨x, c, hx, ⟨op, rfl⟩, rfl⟩ |
    ⟨x, eff, c, rfl, hn, rfl⟩
  · exact h.setCall hx rfl
  · exact h.setCall hx rfl
  · exact h.perform hslots hn

omit [DecidableEq ι] in
/-- No slot is occupied before the first call. -/
theorem idle (ctr : BaseCounter) : OccupantInv (.idle ctr : CounterState ι) where
  occupant_ok _ _ ha := by cases ha
  exclusive := .none
  setup _ _ ha := by cases ha

end OccupantInv

end NomadTasks
