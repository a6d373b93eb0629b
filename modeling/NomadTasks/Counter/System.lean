import NomadTasks.Counter.Basic
import NomadTasks.Ownership.Exclusive
import NomadTasks.Transition.System

/-!
# Calls on one counter under interleaving

Any number of `AddWaitingFiber`, `Increment` and `Decrement` calls on one counter, indexed by an
arbitrary type `ι`, step in any sequentially consistent order.

Two auxiliary variables record what the code does not: which call acquired each slot last, and
whose registrations each call has claimed. No step reads them.

* `SlotInv`: the two flags of a slot say that it is free, or published, or else held by at most
  one call.
-/

namespace NomadTasks

open Transition Ownership

variable {ι : Type}

/-- A counter and every call on it. -/
structure CounterState (ι : Type) where
  ctr : BaseCounter
  calls : ι → CounterCall
  /-- The entries that each call has put into the `_readyFibers` of its thread, oldest first. -/
  pushed : ι → List ReadyFiber
  /-- Auxiliary: the call that acquired each slot last. -/
  occupant : ℕ → Option ι
  /-- Auxiliary: the calls whose registrations each call has claimed, oldest first. -/
  claims : ι → List ι

/-- What can happen next: a call begins, or takes one step. -/
inductive CounterAction (ι : Type)
  | beginAddWaiting (x : ι) (reg : Registration)
  | beginModify (x : ι) (op : Modifier)
  | step (x : ι)

namespace CounterState

/-- No call has begun on the counter. -/
def idle (ctr : BaseCounter) : CounterState ι where
  ctr := ctr
  calls _ := .notStarted
  pushed _ := []
  occupant _ := none
  claims _ := []

variable [DecidableEq ι]

/-- Replace call `x`. -/
def setCall (s : CounterState ι) (x : ι) (c : CounterCall) : CounterState ι :=
  { s with calls := Function.update s.calls x c }

/-- The entries pushed after an effect of call `x`. -/
def pushedAfter (s : CounterState ι) (x : ι) : Effect → ι → List ReadyFiber
  | .push entry => Function.update s.pushed x (s.pushed x ++ [entry])
  | _ => s.pushed

/-- The occupants after an effect of call `x`. -/
def occupantAfter (s : CounterState ι) (x : ι) : Effect → ℕ → Option ι
  | .acquire i => Function.update s.occupant i (some x)
  | _ => s.occupant

/-- The claims after an effect of call `x`. -/
def claimsAfter (s : CounterState ι) (x : ι) : Effect → ι → List ι
  | .claim i => Function.update s.claims x (s.claims x ++ (s.occupant i).toList)
  | _ => s.claims

/-- Call `x` has the effect `eff` and becomes `c`. -/
def perform (s : CounterState ι) (x : ι) (eff : Effect) (c : CounterCall) : CounterState ι where
  ctr := s.ctr.apply eff
  calls := Function.update s.calls x c
  pushed := s.pushedAfter x eff
  occupant := s.occupantAfter x eff
  claims := s.claimsAfter x eff

@[simp] theorem perform_ctr (s : CounterState ι) (x : ι) (eff : Effect) (c : CounterCall) :
    (s.perform x eff c).ctr = s.ctr.apply eff := rfl

@[simp] theorem perform_calls (s : CounterState ι) (x : ι) (eff : Effect) (c : CounterCall) :
    (s.perform x eff c).calls = Function.update s.calls x c := rfl

omit [DecidableEq ι] in
/-- A call becomes the occupant of a slot only by its own step. -/
theorem occupantAfter_of_ne {s : CounterState ι} {x y : ι} {eff : Effect} {i : ℕ} (hxy : x ≠ y)
    (h : s.occupantAfter y eff i = some x) : s.occupant i = some x := by
  cases eff with
  | acquire j =>
    by_cases hij : i = j
    · subst hij
      exact absurd (by simpa [occupantAfter] using h.symm) hxy
    · simpa [occupantAfter, hij] using h
  | _ => exact h

/-- What a step does not change of the call that takes it, it changes of no call. -/
theorem update_congr {β : Type} (s : CounterState ι) {x : ι} {c : CounterCall} (f : CounterCall → β)
    (hf : f c = f (s.calls x)) (y : ι) : f (Function.update s.calls x c y) = f (s.calls y) := by
  by_cases hy : y = x
  · subst hy
    rw [Function.update_self, hf]
  · rw [Function.update_of_ne hy]

@[simp] theorem setCall_ctr (s : CounterState ι) (x : ι) (c : CounterCall) :
    (s.setCall x c).ctr = s.ctr := rfl

@[simp] theorem setCall_calls (s : CounterState ι) (x : ι) (c : CounterCall) :
    (s.setCall x c).calls = Function.update s.calls x c := rfl

end CounterState

section System

variable [DecidableEq ι]

/-- The call that an action begins. -/
def CounterAction.begun : CounterAction ι → CounterCall
  | .beginAddWaiting _ reg => .addWaiting reg (.casFree 0)
  | .beginModify _ op => .modify op .fetch
  | .step _ => .notStarted

/-- One step of the interleaving. -/
def counterStep (s : CounterState ι) (a : CounterAction ι) : Option (CounterState ι) :=
  match a with
  | .beginAddWaiting x _ | .beginModify x _ =>
      if s.calls x = .notStarted then some (s.setCall x a.begun) else none
  | .step x => ((s.calls x).next s.ctr).map fun (eff, c) => s.perform x eff c

/-- A counter with `n` slots from construction on, under any interleaving of any number of
calls. -/
def counterSystem (n : ℕ) (ι : Type) [DecidableEq ι] : System (CounterState ι) (CounterAction ι)
    where
  init s := s = .idle (.construct n)
  step := counterStep

/-- What a step of the interleaving is: a call that had not started begins, or a call in progress
has an effect. -/
theorem counterStep_cases {s s' : CounterState ι} {a : CounterAction ι}
    (h : counterStep s a = some s') :
    (∃ x c, s.calls x = .notStarted ∧ (∃ reg, c = .addWaiting reg (.casFree 0)) ∧
      s' = s.setCall x c) ∨
    (∃ x c, s.calls x = .notStarted ∧ (∃ op, c = .modify op .fetch) ∧ s' = s.setCall x c) ∨
    ∃ x eff c, a = .step x ∧ (s.calls x).next s.ctr = some (eff, c) ∧ s' = s.perform x eff c := by
  cases a with
  | beginAddWaiting x reg =>
    simp only [counterStep, Option.ite_none_right_eq_some, Option.some.injEq] at h
    exact .inl ⟨x, _, h.1, ⟨reg, rfl⟩, h.2.symm⟩
  | beginModify x op =>
    simp only [counterStep, Option.ite_none_right_eq_some, Option.some.injEq] at h
    exact .inr (.inl ⟨x, _, h.1, ⟨op, rfl⟩, h.2.symm⟩)
  | step x =>
    simp only [counterStep, Option.map_eq_some_iff] at h
    obtain ⟨⟨eff, c⟩, hn, rfl⟩ := h
    exact .inr (.inr ⟨x, eff, c, rfl, hn, rfl⟩)

end System

/-- The number of slots never changes. -/
theorem numWaitingFibers_of_reachable [DecidableEq ι] {n : ℕ} {s : CounterState ι}
    (hr : (counterSystem n ι).Reachable s) : s.ctr.numWaitingFibers = n := by
  refine hr.invariant (P := fun s => s.ctr.numWaitingFibers = n) (by rintro s rfl; rfl) ?_
  intro s a s' hn hs
  rcases counterStep_cases hs with ⟨x, c, -, -, rfl⟩ | ⟨x, c, -, -, rfl⟩ | ⟨x, eff, c, -, -, rfl⟩
  · exact hn
  · exact hn
  · simpa using hn

/-! ## Slots are held by one call at a time -/

/-- What the effect of a step says about the slot that the call holds before and after it. -/
def Effect.HoldsOk (b : BaseCounter) (before after : Option ℕ) : Effect → Prop
  | .none | .fetch _ | .push _ => after = before
  | .acquire i => b.freeWaitingSlots i = true ∧ before = Option.none ∧ after = some i
  | .write i slot => before = some i ∧ after = some i ∧ slot.inUse = (b.waitingFibers i).inUse
  | .publish i => before = some i ∧ after = Option.none
  | .claim i => (b.waitingFibers i).inUse = false ∧ before = Option.none ∧ after = some i
  | .release i => before = some i ∧ after = Option.none

/-- Every step takes, keeps and gives up slots as its effect says. -/
theorem CounterCall.holdsOk {b : BaseCounter} {c c' : CounterCall} {eff : Effect}
    (h : c.next b = some (eff, c')) : eff.HoldsOk b c.holds c'.holds := by
  -- by the kind of the call, and by the branches of its code
  rcases c with _ | ⟨reg, pc⟩ | ⟨op, pc⟩
  · cases h
  · simp only [CounterCall.next, Option.map_eq_some_iff] at h
    obtain ⟨⟨eff', pc'⟩, hn, heq⟩ := h
    simp only [Prod.mk.injEq] at heq
    obtain ⟨rfl, rfl⟩ := heq
    revert hn
    fun_cases AddPc.next b reg pc <;> rintro ⟨⟩ <;>
      simp_all [Effect.HoldsOk, CounterCall.holds]
  · simp only [CounterCall.next, Option.map_eq_some_iff] at h
    obtain ⟨⟨eff', pc'⟩, hn, heq⟩ := h
    simp only [Prod.mk.injEq] at heq
    obtain ⟨rfl, rfl⟩ := heq
    rcases pc with _ | ⟨prev, value, pc⟩ | prev
    · cases hn
      rfl
    · revert hn
      simp only [ModifyPc.next]
      fun_cases ScanPc.next b value pc <;> rintro ⟨⟩ <;>
        simp_all [Effect.HoldsOk, CounterCall.holds]
    · cases hn

/-- The flags of a counter and the holdings of its calls agree: a free slot is not published, a
held slot is neither free nor published, and no slot is held twice. -/
structure SlotsOk (b : BaseCounter) (holds : ι → Option ℕ) : Prop where
  free_inUse : ∀ i, b.freeWaitingSlots i = true → (b.waitingFibers i).inUse = true
  held : ∀ x i, holds x = some i →
    b.freeWaitingSlots i = false ∧ (b.waitingFibers i).inUse = true
  exclusive : Exclusive holds

namespace SlotsOk

variable {b : BaseCounter} {holds : ι → Option ℕ}

theorem construct (n : ℕ) : SlotsOk (.construct n) fun _ : ι => none where
  free_inUse _ _ := rfl
  held _ _ h := by cases h
  exclusive := .none

/-- A published slot is held by no call. -/
theorem not_holds (h : SlotsOk b holds) {i : ℕ} (huse : (b.waitingFibers i).inUse = false)
    (x : ι) : holds x ≠ some i := fun hx => by simp [(h.held x i hx).2] at huse

/-- A free slot is held by no call. -/
theorem not_holds_free (h : SlotsOk b holds) {i : ℕ} (hfree : b.freeWaitingSlots i = true)
    (x : ι) : holds x ≠ some i := fun hx => by simp [(h.held x i hx).1] at hfree

/-- A slot whose `_inUse` is false is not free. -/
theorem not_free (h : SlotsOk b holds) {i : ℕ} (huse : (b.waitingFibers i).inUse = false) :
    b.freeWaitingSlots i = false := by
  by_contra hfree
  simp [h.free_inUse i (by simpa using hfree)] at huse

variable [DecidableEq ι]

/-- The flags and the holdings stay in line when the flags of no other call's slot change, the
flags of the slot that `x` then holds are as they must be, and no other call holds it. -/
private theorem of_update {b' : BaseCounter} {x : ι} {after : Option ℕ}
    (hfree : ∀ i, b'.freeWaitingSlots i = true → (b'.waitingFibers i).inUse = true)
    (hself : ∀ i, after = some i →
      b'.freeWaitingSlots i = false ∧ (b'.waitingFibers i).inUse = true)
    (hother : ∀ y i, y ≠ x → holds y = some i →
      b'.freeWaitingSlots i = false ∧ (b'.waitingFibers i).inUse = true)
    (hex : Exclusive (Function.update holds x after)) :
    SlotsOk b' (Function.update holds x after) where
  free_inUse := hfree
  held y i hy := by
    by_cases hyx : y = x
    · subst hyx
      rw [Function.update_self] at hy
      exact hself i hy
    · rw [Function.update_of_ne hyx] at hy
      exact hother y i hyx hy
  exclusive := hex

/-- An effect keeps the flags and the holdings in line. -/
theorem apply (h : SlotsOk b holds) {x : ι} {after : Option ℕ} {eff : Effect}
    (hok : eff.HoldsOk b (holds x) after) :
    SlotsOk (b.apply eff) (Function.update holds x after) := by
  cases eff with
  | none | fetch value | push entry =>
    obtain rfl : after = holds x := hok
    exact .of_update h.free_inUse (h.held x) (fun y i _ => h.held y i) (h.exclusive.keep rfl)
  | acquire i =>
    obtain ⟨hfree, hbefore, rfl⟩ := hok
    -- a free slot is held by nobody, so that the exchange makes `x` its only holder
    have hnew := h.not_holds_free hfree
    refine .of_update (fun j hj => ?_) (fun j hj => ?_) (fun y j _ hy => ?_)
      (h.exclusive.acquire hnew)
    · by_cases hji : j = i
      · simp [BaseCounter.apply, BaseCounter.setFree, hji] at hj
      · exact h.free_inUse j (by simpa [BaseCounter.apply, BaseCounter.setFree, hji] using hj)
    · obtain rfl : i = j := by simpa using hj
      simp [BaseCounter.apply, BaseCounter.setFree, h.free_inUse i hfree]
    · have hji : j ≠ i := fun hji => hnew y (hji ▸ hy)
      simpa [BaseCounter.apply, BaseCounter.setFree, hji] using h.held y j hy
  | write i slot =>
    obtain ⟨hbefore, rfl, huse⟩ := hok
    obtain ⟨hfree, hin⟩ := h.held x i hbefore
    -- the holder writes its own slot, and leaves `inUse` set
    have hflags : ∀ j, ((b.apply (.write i slot)).waitingFibers j).inUse =
        (b.waitingFibers j).inUse := by
      intro j
      by_cases hji : j = i
      · subst hji
        simpa [BaseCounter.apply, BaseCounter.setSlot] using huse
      · simp [BaseCounter.apply, BaseCounter.setSlot, hji]
    have hheld : ∀ y j, holds y = some j → (b.apply (.write i slot)).freeWaitingSlots j = false ∧
        ((b.apply (.write i slot)).waitingFibers j).inUse = true :=
      fun y j hy => by rw [hflags]; exact h.held y j hy
    exact .of_update (fun j hj => by rw [hflags]; exact h.free_inUse j hj)
      (fun j hj => hheld x j (hbefore.trans hj)) (fun y j _ => hheld y j)
      (h.exclusive.keep hbefore.symm)
  | publish i =>
    obtain ⟨hbefore, rfl⟩ := hok
    obtain ⟨hfree, hin⟩ := h.held x i hbefore
    refine .of_update (fun j hj => ?_) (fun j hj => nomatch hj) (fun y j hyx hy => ?_)
      (h.exclusive.drop x)
    · have hji : j ≠ i := by
        rintro rfl
        simp [BaseCounter.apply, BaseCounter.setSlot, hfree] at hj
      simpa [BaseCounter.apply, BaseCounter.setSlot, hji] using h.free_inUse j hj
    · have hji : j ≠ i := fun hji => h.exclusive.ne_of_ne hbefore hyx (hji ▸ hy)
      simpa [BaseCounter.apply, BaseCounter.setSlot, hji] using h.held y j hy
  | claim i =>
    obtain ⟨huse, hbefore, rfl⟩ := hok
    -- a slot that is not in use is held by nobody
    have hnew := h.not_holds huse
    refine .of_update (fun j hj => ?_) (fun j hj => ?_) (fun y j _ hy => ?_)
      (h.exclusive.acquire hnew)
    · by_cases hji : j = i
      · simp [BaseCounter.apply, BaseCounter.setSlot, hji]
      · simpa [BaseCounter.apply, BaseCounter.setSlot, hji] using h.free_inUse j hj
    · obtain rfl : i = j := by simpa using hj
      simpa [BaseCounter.apply, BaseCounter.setSlot] using h.not_free huse
    · have hji : j ≠ i := fun hji => hnew y (hji ▸ hy)
      simpa [BaseCounter.apply, BaseCounter.setSlot, hji] using h.held y j hy
  | release i =>
    obtain ⟨hbefore, rfl⟩ := hok
    obtain ⟨hfree, hin⟩ := h.held x i hbefore
    refine .of_update (fun j hj => ?_) (fun j hj => nomatch hj) (fun y j hyx hy => ?_)
      (h.exclusive.drop x)
    · by_cases hji : j = i
      · exact hji ▸ hin
      · exact h.free_inUse j (by simpa [BaseCounter.apply, BaseCounter.setFree, hji] using hj)
    · have hji : j ≠ i := fun hji => h.exclusive.ne_of_ne hbefore hyx (hji ▸ hy)
      simpa [BaseCounter.apply, BaseCounter.setFree, hji] using h.held y j hy

end SlotsOk

/-- The slot that each call holds. -/
def CounterState.holds (s : CounterState ι) (x : ι) : Option ℕ := (s.calls x).holds

/-- The flags of the slots agree with what the calls hold. -/
def SlotInv (s : CounterState ι) : Prop := SlotsOk s.ctr s.holds

section SlotInv

variable [DecidableEq ι] {s : CounterState ι}

/-- The holdings after one call is replaced. -/
theorem CounterState.holds_update (s : CounterState ι) (x : ι) (c : CounterCall) :
    (s.setCall x c).holds = Function.update s.holds x c.holds := by
  funext y
  by_cases hy : y = x
  · subst hy
    simp [CounterState.holds]
  · simp [CounterState.holds, hy]

/-- A call is replaced by one that holds what it held. -/
theorem SlotInv.setCall (h : SlotInv s) {x : ι} {c : CounterCall}
    (hc : c.holds = (s.calls x).holds) : SlotInv (s.setCall x c) := by
  have hsame : (s.setCall x c).holds = s.holds := by
    rw [s.holds_update, hc, ← CounterState.holds, Function.update_eq_self]
  rw [SlotInv, hsame]
  exact h

/-- Every step of a call keeps them so. -/
theorem SlotInv.perform (h : SlotInv s) {x : ι} {eff : Effect} {c : CounterCall}
    (hn : (s.calls x).next s.ctr = some (eff, c)) : SlotInv (s.perform x eff c) := by
  have hok := SlotsOk.apply h (CounterCall.holdsOk hn)
  rwa [← s.holds_update] at hok

/-- Every step of the interleaving keeps them so. -/
theorem SlotInv.step {a : CounterAction ι} {s' : CounterState ι} (h : SlotInv s)
    (hs : counterStep s a = some s') : SlotInv s' := by
  rcases counterStep_cases hs with ⟨x, c, hx, ⟨reg, rfl⟩, rfl⟩ | ⟨x, c, hx, ⟨op, rfl⟩, rfl⟩ |
    ⟨x, eff, c, rfl, hn, rfl⟩
  · exact h.setCall (by rw [hx]; rfl)
  · exact h.setCall (by rw [hx]; rfl)
  · exact h.perform hn

end SlotInv

end NomadTasks
