import Mathlib.Data.BitVec
import Mathlib.Logic.Function.Basic
import Mathlib.Tactic.Common

/-!
# `BaseCounter`: a counter that fibers can wait on

The members of `detail::BaseCounter`, and the single steps of the calls that touch them:
`AddWaitingFiber`, and `Increment` and `Decrement` with the scan of `CheckWaitingFibers`. A step
makes at most one access to memory that other threads can reach, so that calls can be interleaved
step by step.

What a step does to the memory is its `Effect`. `AddPc.next` and `ScanPc.next` say which effect
each program point has and where the call goes from there; `BaseCounter.apply` says what the
effects do. `Counter` and `TinyCounter` differ only in the number of their slots.
-/

namespace NomadTasks

/-- `BaseCounter::Unit_t`, a `uint32_t`. -/
abbrev CounterUnit := BitVec 32

/-- The address of a `std::atomic_bool`; `0` is `nullptr`. -/
abbrev FlagPtr := ℕ

/-- `UINT16_MAX`, the index of no fiber. -/
def noFiber : ℕ := 65535

/-- `BaseCounter::WaitingFibers`: one waiting slot, with the initial values of its members. -/
structure WaitingFibers where
  fiberIndex : ℕ := noFiber
  fiberStored : FlagPtr := 0
  targetValue : CounterUnit := 0
  inUse : Bool := true
  deriving DecidableEq

/-- The members of `BaseCounter`; the slots in use are those below `numWaitingFibers`. -/
structure BaseCounter where
  counter : CounterUnit
  numWaitingFibers : ℕ
  waitingFibers : ℕ → WaitingFibers
  freeWaitingSlots : ℕ → Bool

/-- An entry of a thread's `_readyFibers`: a fiber, and the flag that says it is stored. -/
abbrev ReadyFiber := ℕ × FlagPtr

namespace BaseCounter

/-- The constructor and `InternalInit`: the value is `0` and every slot is free. -/
def construct (numWaitingFibers : ℕ) : BaseCounter where
  counter := 0
  numWaitingFibers := numWaitingFibers
  waitingFibers _ := {}
  freeWaitingSlots _ := true

/-- `Counter::MAX_WAITING`. -/
def maxWaiting : ℕ := 4

end BaseCounter

/-- What one step of a call does to memory. -/
inductive Effect
  /-- Nothing: a load, a failed exchange or a local computation. -/
  | none
  /-- `_counter` becomes `value`, by `fetch_add` or `fetch_sub`. -/
  | fetch (value : CounterUnit)
  /-- The exchange of `_freeWaitingSlots[i]` from `true` to `false`. -/
  | acquire (i : ℕ)
  /-- A store to `_fiberIndex`, `_fiberStored` or `_targetValue` of slot `i`. -/
  | write (i : ℕ) (slot : WaitingFibers)
  /-- `slot->_inUse.store(false)`. -/
  | publish (i : ℕ)
  /-- The exchange of `_inUse` of slot `i` from `false` to `true`. -/
  | claim (i : ℕ)
  /-- `_readyFibers.emplace_back` on the calling thread. -/
  | push (entry : ReadyFiber)
  /-- `_freeWaitingSlots[i].store(true)`. -/
  | release (i : ℕ)
  deriving DecidableEq

namespace BaseCounter

/-- Replace slot `i`. -/
def setSlot (b : BaseCounter) (i : ℕ) (slot : WaitingFibers) : BaseCounter :=
  { b with waitingFibers := Function.update b.waitingFibers i slot }

/-- Replace the free flag of slot `i`. -/
def setFree (b : BaseCounter) (i : ℕ) (free : Bool) : BaseCounter :=
  { b with freeWaitingSlots := Function.update b.freeWaitingSlots i free }

/-- The counter after an effect. -/
def apply (b : BaseCounter) : Effect → BaseCounter
  | .none => b
  | .fetch value => { b with counter := value }
  | .acquire i => b.setFree i false
  | .write i slot => b.setSlot i slot
  | .publish i => b.setSlot i { b.waitingFibers i with inUse := false }
  | .claim i => b.setSlot i { b.waitingFibers i with inUse := true }
  | .push _ => b
  | .release i => b.setFree i true

@[simp] theorem apply_none (b : BaseCounter) : b.apply .none = b := rfl

@[simp] theorem apply_push (b : BaseCounter) (entry : ReadyFiber) : b.apply (.push entry) = b := rfl

/-- No effect changes the number of slots. -/
@[simp] theorem apply_numWaitingFibers (b : BaseCounter) (eff : Effect) :
    (b.apply eff).numWaitingFibers = b.numWaitingFibers := by
  cases eff <;> rfl

/-- Only `fetch_add` and `fetch_sub` change the value. -/
theorem apply_counter (b : BaseCounter) {eff : Effect} (h : ∀ value, eff ≠ .fetch value) :
    (b.apply eff).counter = b.counter := by
  cases eff <;> first | rfl | exact absurd rfl (h _)

/-- A slot that is registered and that nobody has claimed. -/
def Published (b : BaseCounter) (i : ℕ) : Prop :=
  b.freeWaitingSlots i = false ∧ (b.waitingFibers i).inUse = false

instance (b : BaseCounter) (i : ℕ) : Decidable (b.Published i) :=
  inferInstanceAs (Decidable (_ ∧ _))

end BaseCounter

/-! ## `AddWaitingFiber` -/

/-- The arguments of `AddWaitingFiber`. -/
structure Registration where
  fiberIndex : ℕ
  targetValue : CounterUnit
  fiberStored : FlagPtr
  deriving DecidableEq

/-- The entry that wakes the fiber of a registration. -/
def Registration.entry (reg : Registration) : ReadyFiber := (reg.fiberIndex, reg.fiberStored)

/-- The program points of `AddWaitingFiber`, each with the slot it works on and the locals that
are live there. -/
inductive AddPc
  /-- The loop test, and the exchange on `_freeWaitingSlots[i]`. -/
  | casFree (i : ℕ)
  | setFiberIndex (i : ℕ)
  | setFiberStored (i : ℕ)
  | setTargetValue (i : ℕ)
  /-- `slot->_inUse.store(false)`. -/
  | publish (i : ℕ)
  /-- `counter = _counter.load()`. -/
  | loadCounter (i : ℕ)
  /-- `if (slot->_inUse.load()) return false`. -/
  | loadInUse (i : ℕ) (counter : CounterUnit)
  /-- `if (slot->_targetValue != counter) return false`. -/
  | compareTarget (i : ℕ) (counter : CounterUnit)
  /-- The exchange on `slot->_inUse`. -/
  | casInUse (i : ℕ)
  /-- `_freeWaitingSlots[i].store(true)`, before `return true`. -/
  | release (i : ℕ)
  | returned (result : Bool)
  /-- `EX_COUNTER_WAITINGS_SLOTS_FULL` was thrown. -/
  | threw
  deriving DecidableEq

/-- One step of `AddWaitingFiber`: its effect, and the program point after it. -/
def AddPc.next (b : BaseCounter) (reg : Registration) : AddPc → Option (Effect × AddPc)
  | .casFree i =>
      if i < b.numWaitingFibers then
        if b.freeWaitingSlots i then some (.acquire i, .setFiberIndex i)
        else some (.none, .casFree (i + 1))
      else some (.none, .threw)
  | .setFiberIndex i =>
      some (.write i { b.waitingFibers i with fiberIndex := reg.fiberIndex }, .setFiberStored i)
  | .setFiberStored i =>
      some (.write i { b.waitingFibers i with fiberStored := reg.fiberStored }, .setTargetValue i)
  | .setTargetValue i =>
      some (.write i { b.waitingFibers i with targetValue := reg.targetValue }, .publish i)
  | .publish i => some (.publish i, .loadCounter i)
  | .loadCounter i => some (.none, .loadInUse i b.counter)
  | .loadInUse i counter =>
      if (b.waitingFibers i).inUse then some (.none, .returned false)
      else some (.none, .compareTarget i counter)
  | .compareTarget i counter =>
      if (b.waitingFibers i).targetValue ≠ counter then some (.none, .returned false)
      else some (.none, .casInUse i)
  | .casInUse i =>
      if (b.waitingFibers i).inUse then some (.none, .returned false)
      else some (.claim i, .release i)
  | .release i => some (.release i, .returned true)
  | .returned _ => none
  | .threw => none

/-! ## `Increment`, `Decrement` and `CheckWaitingFibers` -/

/-- The program points of `CheckWaitingFibers`, each with the slot it is at. -/
inductive ScanPc
  /-- The loop test, and the load of `_freeWaitingSlots[i]`. -/
  | loadFree (i : ℕ)
  | loadInUse (i : ℕ)
  /-- `if (waitingSlot->_targetValue != value) continue`. -/
  | compareTarget (i : ℕ)
  /-- The exchange on `waitingSlot->_inUse`. -/
  | casInUse (i : ℕ)
  /-- The load of `_fiberIndex`, the first argument of `emplace_back`. -/
  | loadFiberIndex (i : ℕ)
  /-- The load of `_fiberStored`, and `emplace_back`. -/
  | push (i : ℕ) (fiberIndex : ℕ)
  /-- `_freeWaitingSlots[i].store(true)`. -/
  | release (i : ℕ)
  | done
  deriving DecidableEq

/-- One step of `CheckWaitingFibers(value)`: its effect, and the program point after it. -/
def ScanPc.next (b : BaseCounter) (value : CounterUnit) : ScanPc → Option (Effect × ScanPc)
  | .loadFree i =>
      if i < b.numWaitingFibers then
        if b.freeWaitingSlots i then some (.none, .loadFree (i + 1)) else some (.none, .loadInUse i)
      else some (.none, .done)
  | .loadInUse i =>
      if (b.waitingFibers i).inUse then some (.none, .loadFree (i + 1))
      else some (.none, .compareTarget i)
  | .compareTarget i =>
      if (b.waitingFibers i).targetValue ≠ value then some (.none, .loadFree (i + 1))
      else some (.none, .casInUse i)
  | .casInUse i =>
      if (b.waitingFibers i).inUse then some (.none, .loadFree (i + 1))
      else some (.claim i, .loadFiberIndex i)
  | .loadFiberIndex i => some (.none, .push i (b.waitingFibers i).fiberIndex)
  | .push i fiberIndex => some (.push (fiberIndex, (b.waitingFibers i).fiberStored), .release i)
  | .release i => some (.release i, .loadFree (i + 1))
  | .done => none

/-- A scan goes on until it is done. -/
theorem ScanPc.next_eq_none {b : BaseCounter} {value : CounterUnit} {pc : ScanPc}
    (h : pc.next b value = none) : pc = .done := by
  revert h
  fun_cases ScanPc.next b value pc <;> simp

/-- Which of the two modifiers is called, and its argument. -/
inductive Modifier
  | increment (amount : CounterUnit)
  | decrement (amount : CounterUnit)
  deriving DecidableEq

/-- The value that the modifier leaves in a counter that held `prev`. -/
def Modifier.value (prev : CounterUnit) : Modifier → CounterUnit
  | .increment amount => prev + amount
  | .decrement amount => prev - amount

/-- The program points of `Increment` and `Decrement`. -/
inductive ModifyPc
  /-- `prev = _counter.fetch_add(by)`, or `fetch_sub`. -/
  | fetch
  /-- Inside `CheckWaitingFibers(value)`, where `value` is computed from `prev`. -/
  | check (prev value : CounterUnit) (pc : ScanPc)
  /-- The call has returned `prev`. -/
  | returned (prev : CounterUnit)
  deriving DecidableEq

/-- One step of `Increment` or `Decrement`. -/
def ModifyPc.next (b : BaseCounter) (op : Modifier) : ModifyPc → Option (Effect × ModifyPc)
  | .fetch =>
      some (.fetch (op.value b.counter), .check b.counter (op.value b.counter) (.loadFree 0))
  | .check prev value pc =>
      match pc.next b value with
      | some (eff, pc') => some (eff, .check prev value pc')
      | none => some (.none, .returned prev)
  | .returned _ => none

/-! ## Calls -/

/-- A call on a counter, from before it begins until after it has ended. -/
inductive CounterCall
  | notStarted
  | addWaiting (reg : Registration) (pc : AddPc)
  | modify (op : Modifier) (pc : ModifyPc)
  deriving DecidableEq

namespace CounterCall

/-- One step of a call: its effect, and the call after it; `none` when it is not in progress. -/
def next (b : BaseCounter) : CounterCall → Option (Effect × CounterCall)
  | .notStarted => none
  | .addWaiting reg pc => (pc.next b reg).map fun (eff, pc') => (eff, .addWaiting reg pc')
  | .modify op pc => (pc.next b op).map fun (eff, pc') => (eff, .modify op pc')

/-- The slot that a call has to itself: one it has acquired and not yet published, or one whose
registration it has claimed and not yet released. -/
def holds : CounterCall → Option ℕ
  | .addWaiting _ (.setFiberIndex i) | .addWaiting _ (.setFiberStored i)
  | .addWaiting _ (.setTargetValue i) | .addWaiting _ (.publish i)
  | .addWaiting _ (.release i) => some i
  | .modify _ (.check _ _ (.loadFiberIndex i)) | .modify _ (.check _ _ (.push i _))
  | .modify _ (.check _ _ (.release i)) => some i
  | _ => none

/-- The call is in progress. -/
def inProgress : CounterCall → Bool
  | .notStarted | .addWaiting _ (.returned _) | .addWaiting _ .threw
  | .modify _ (.returned _) => false
  | _ => true

/-- A call in progress can take a step. -/
theorem exists_next {b : BaseCounter} {c : CounterCall} (h : c.inProgress = true) :
    ∃ eff c', c.next b = some (eff, c') := by
  cases hn : c.next b with
  | some r => exact ⟨r.1, r.2, rfl⟩
  | none =>
    rcases c with _ | ⟨reg, pc⟩ | ⟨op, _ | ⟨prev, value, pc⟩ | prev⟩
    · cases h
    · revert hn h
      simp only [next, Option.map_eq_none_iff]
      fun_cases AddPc.next b reg pc <;> simp [inProgress]
    · cases hn
    · simp only [next, ModifyPc.next, Option.map_eq_none_iff] at hn
      split at hn <;> cases hn
    · cases h

/-! ### Which step has which effect -/

/-- A modifier that changes the value announces it to every slot. -/
theorem next_fetch {b : BaseCounter} {c c' : CounterCall} {value : CounterUnit}
    (h : c.next b = some (.fetch value, c')) :
    ∃ op, c = .modify op .fetch ∧ value = op.value b.counter ∧
      c' = .modify op (.check b.counter value (.loadFree 0)) := by
  rcases c with _ | ⟨reg, pc⟩ | ⟨op, _ | ⟨prev, announced, pc⟩ | prev⟩
  · cases h
  · revert h
    simp only [next]
    fun_cases AddPc.next b reg pc <;> simp
  · simp only [next, ModifyPc.next, Option.map_some, Option.some.injEq, Prod.mk.injEq,
      Effect.fetch.injEq] at h
    obtain ⟨rfl, rfl⟩ := h
    exact ⟨op, rfl, rfl, rfl⟩
  · revert h
    simp only [next, ModifyPc.next]
    fun_cases ScanPc.next b announced pc <;> simp
  · cases h

/-- A call that publishes its slot loads the value next. -/
theorem next_publish {b : BaseCounter} {c c' : CounterCall} {i : ℕ}
    (h : c.next b = some (.publish i, c')) :
    ∃ reg, c = .addWaiting reg (.publish i) ∧ c' = .addWaiting reg (.loadCounter i) := by
  rcases c with _ | ⟨reg, pc⟩ | ⟨op, _ | ⟨prev, announced, pc⟩ | prev⟩
  · cases h
  · revert h
    simp only [next]
    fun_cases AddPc.next b reg pc <;> rintro ⟨⟩
    exact ⟨reg, rfl, rfl⟩
  · cases h
  · revert h
    simp only [next, ModifyPc.next]
    fun_cases ScanPc.next b announced pc <;> simp
  · cases h

/-- The call that acquires a slot is at the exchange on its free flag. -/
theorem next_acquire {b : BaseCounter} {c c' : CounterCall} {i : ℕ}
    (h : c.next b = some (.acquire i, c')) :
    ∃ reg, c = .addWaiting reg (.casFree i) ∧ c' = .addWaiting reg (.setFiberIndex i) ∧
      i < b.numWaitingFibers ∧ b.freeWaitingSlots i = true := by
  rcases c with _ | ⟨reg, pc⟩ | ⟨op, _ | ⟨prev, announced, pc⟩ | prev⟩
  · cases h
  · revert h
    simp only [CounterCall.next]
    fun_cases AddPc.next b reg pc <;> simp
    case case1 j hj hfree =>
      rintro rfl rfl
      exact ⟨rfl, rfl, hj, hfree⟩
  · cases h
  · revert h
    simp only [CounterCall.next, ModifyPc.next]
    fun_cases ScanPc.next b announced pc <;> simp
  · cases h

/-- The two exchanges on `_inUse`. -/
theorem next_claim {b : BaseCounter} {c c' : CounterCall} {i : ℕ}
    (hn : c.next b = some (.claim i, c')) :
    (b.waitingFibers i).inUse = false ∧
      ((∃ reg, c = .addWaiting reg (.casInUse i) ∧ c' = .addWaiting reg (.release i)) ∨
        ∃ op prev value, c = .modify op (.check prev value (.casInUse i)) ∧
          c' = .modify op (.check prev value (.loadFiberIndex i))) := by
  rcases c with _ | ⟨reg, pc⟩ | ⟨op, _ | ⟨prev, value, pc⟩ | prev⟩
  · cases hn
  · revert hn
    simp only [next]
    fun_cases AddPc.next b reg pc <;> rintro ⟨⟩
    case case14 huse => exact ⟨by simpa using huse, .inl ⟨reg, rfl, rfl⟩⟩
  · cases hn
  · revert hn
    simp only [next, ModifyPc.next]
    fun_cases ScanPc.next b value pc <;> rintro ⟨⟩
    case case9 huse => exact ⟨by simpa using huse, .inr ⟨op, prev, value, rfl, rfl⟩⟩
  · cases hn

/-- A modifier enters its scan when it changes the value, and announces what it has set. -/
theorem next_check {b : BaseCounter} {c : CounterCall} {eff : Effect} {op : Modifier}
    {prev value : CounterUnit} {pc : ScanPc}
    (h : c.next b = some (eff, .modify op (.check prev value pc))) :
    (c = .modify op .fetch ∧ eff = .fetch value) ∨
      ∃ pc', c = .modify op (.check prev value pc') := by
  rcases c with _ | ⟨reg, pc'⟩ | ⟨op', _ | ⟨prev', value', pc'⟩ | prev'⟩
  · cases h
  · simp [next] at h
  · simp only [next, ModifyPc.next, Option.map_some, Option.some.injEq, Prod.mk.injEq] at h
    obtain ⟨rfl, heq⟩ := h
    cases heq
    exact .inl ⟨rfl, rfl⟩
  · cases hpc : pc'.next b value' with
    | none => simp [next, ModifyPc.next, hpc] at h
    | some r =>
      simp only [next, ModifyPc.next, hpc, Option.map_some, Option.some.injEq, Prod.mk.injEq] at h
      obtain ⟨-, heq⟩ := h
      cases heq
      exact .inr ⟨pc', rfl⟩
  · cases h

end CounterCall

end NomadTasks
