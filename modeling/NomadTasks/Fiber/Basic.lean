import Mathlib.Tactic.Common
import Mathlib.Tactic.Simps.Basic
import Mathlib.Logic.Function.Basic

/-!
# `Fiber`: switching contexts

The class `Fiber` of `Fiber.cpp`. An object is a fiber of the pool, or the `_threadFiber` that a
thread has in its `TLS`; what it switches to is a context of the operating system. `SwitchTo` is
called on the object to come back to, and `SwitchBack` on the object that is executed. Another
thread can take steps between the assignments of `SwitchTo` and its `SwitchToFiber`.

`CreateFiber` and `ConvertThreadToFiber` are taken to succeed. `_callback` is not among the members
here: the manager's model has it.

* `Fibers.switchTo`, `Fibers.switchBack`: the two calls, with the exceptions they throw, the first
  up to its `SwitchToFiber`.
* `Fibers.switchBack_of_switchTo`: what has been switched to switches back.
-/

namespace NomadTasks

/-- A `Fiber*`: the fiber of the pool at an index, or the `_threadFiber` of a thread. -/
inductive FiberPtr
  | pool (fiberIndex : ℕ)
  | thread (t : ℕ)
  deriving DecidableEq

/-- A context of the operating system. -/
inductive Context
  /-- Created for an object by `CreateFiber`. -/
  | created (fiber : FiberPtr)
  /-- Of thread `t` itself, from `ConvertThreadToFiber` on. -/
  | converted (t : ℕ)
  deriving DecidableEq

/-- A `Manager*` that is not null. -/
abbrev ManagerPtr := ℕ

/-- The members of `Fiber`. -/
structure Fiber where
  fiber : Option Context
  threadFiber : Bool
  returnFiber : Option FiberPtr
  userData : Option ManagerPtr
  deriving DecidableEq

/-- `Fiber::Fiber`. -/
def Fiber.construct (this : FiberPtr) : Fiber where
  fiber := some (.created this)
  threadFiber := false
  returnFiber := none
  userData := none

/-- `FromCurrentThread`, called on thread `t`. -/
@[simps]
def Fiber.fromCurrentThread (fiber : Fiber) (t : ℕ) : Fiber :=
  { fiber with fiber := some (.converted t), threadFiber := true }

/-- The objects, by their addresses. -/
abbrev Fibers := FiberPtr → Fiber

namespace Fibers

/-- The assignments of `SwitchTo`. -/
def enter (fibers : Fibers) (this fiber : FiberPtr) (userData : Option ManagerPtr) : Fibers :=
  Function.update fibers fiber
    { fibers fiber with userData := userData, returnFiber := some this }

/-- `this->SwitchTo(fiber, userData)`, up to `SwitchToFiber(fiber->_fiber)`: the objects at that
point. -/
def switchTo (fibers : Fibers) (this : FiberPtr) (fiber : Option FiberPtr)
    (userData : Option ManagerPtr) : Except String Fibers :=
  match fiber with
  | none => .error "EX_INVALID_FIBER"
  | some p =>
    match (fibers p).fiber with
    | none => .error "EX_INVALID_FIBER"
    | some _ => .ok (fibers.enter this p userData)

/-- `this->SwitchBack()`: the context that is switched to. -/
def switchBack (fibers : Fibers) (this : FiberPtr) : Except String Context :=
  match (fibers this).returnFiber with
  | none => .error "EX_UNABLE_TO_SWITCH_BACK_FROM_FIBER"
  | some p =>
    match (fibers p).fiber with
    | none => .error "EX_UNABLE_TO_SWITCH_BACK_FROM_FIBER"
    | some context => .ok context

section Switch

variable {fibers fibers' : Fibers} {this p q : FiberPtr} {userData : Option ManagerPtr}
  {context : Context}

/-- `SwitchTo` creates and converts nothing. -/
@[simp] theorem enter_fiber : (fibers.enter this p userData q).fiber = (fibers q).fiber := by
  by_cases hq : q = p
  · subst hq; simp [enter]
  · simp [enter, hq]

@[simp] theorem enter_threadFiber :
    (fibers.enter this p userData q).threadFiber = (fibers q).threadFiber := by
  by_cases hq : q = p
  · subst hq; simp [enter]
  · simp [enter, hq]

/-- The object that is switched to comes back to `this`. -/
@[simp] theorem enter_returnFiber : (fibers.enter this p userData p).returnFiber = some this := by
  simp [enter]

@[simp] theorem enter_userData : (fibers.enter this p userData p).userData = userData := by
  simp [enter]

/-- The other objects are left alone. -/
theorem enter_of_ne (hq : q ≠ p) : fibers.enter this p userData q = fibers q :=
  Function.update_of_ne hq ..

theorem switchTo_of_fiber (hp : (fibers p).fiber = some context) :
    fibers.switchTo this (some p) userData = .ok (fibers.enter this p userData) := by
  simp only [switchTo, hp]

theorem switchBack_of_returnFiber (hthis : (fibers this).returnFiber = some p)
    (hp : (fibers p).fiber = some context) : fibers.switchBack this = .ok context := by
  simp only [switchBack, hthis, hp]

/-- What has been switched to switches back to the context of the object it was switched from. -/
theorem switchBack_of_switchTo
    (h : fibers.switchTo this (some p) userData = .ok fibers')
    (hthis : (fibers this).fiber = some context) : fibers'.switchBack p = .ok context := by
  simp only [switchTo] at h
  split at h
  · cases h
  · cases h
    exact switchBack_of_returnFiber enter_returnFiber (enter_fiber.trans hthis)

end Switch

end Fibers

end NomadTasks
