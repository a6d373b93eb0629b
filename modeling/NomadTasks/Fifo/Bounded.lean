import Mathlib.Tactic.Common

/-!
# Bounded first-in-first-out queues

The abstract bounded queue: a list of at most `cap` elements, oldest first. Its behaviour is given
twice: by the operations `enqueue` and `dequeue`, and by `accept`, which checks a completed
operation together with its answer. A run of completed operations is legal when `run` accepts it,
and then `run` determines what is stored.
-/

namespace Fifo

universe u

/-- A first-in-first-out queue with room for `cap` elements, oldest element first. -/
structure Bounded (T : Type u) (cap : ℕ) where
  elems : List T
  length_le : elems.length ≤ cap

/-- A completed operation and what it answered. -/
inductive Event (T : Type u)
  /-- An enqueue of `x`, and whether it was accepted. -/
  | enqueued (x : T) (accepted : Bool)
  /-- A dequeue, and the element it yielded if there was one. -/
  | dequeued (result : Option T)

namespace Bounded

variable {T : Type u} {cap : ℕ}

/-- The queue that stores nothing. -/
def empty : Bounded T cap := ⟨[], Nat.zero_le _⟩

/-- The queue with `x` stored behind the elements it holds. -/
def push (f : Bounded T cap) (x : T) (h : f.elems.length < cap) : Bounded T cap :=
  ⟨f.elems ++ [x], by simp only [List.length_append, List.length_singleton]; omega⟩

/-- The queue without its oldest element. -/
def pop (f : Bounded T cap) : Bounded T cap :=
  ⟨f.elems.tail, Nat.le_trans (by simp) f.length_le⟩

/-- Store `x` behind the elements held, unless there is no room. -/
def enqueue (f : Bounded T cap) (x : T) : Option (Bounded T cap) :=
  if h : f.elems.length < cap then some (f.push x h) else none

/-- Take the oldest element out, if there is one. -/
def dequeue (f : Bounded T cap) : Option (T × Bounded T cap) :=
  f.elems.head?.map fun x => (x, f.pop)

/-- The queue after a completed operation, or `none` when the operation cannot have answered so:
a refused enqueue and an empty dequeue are legal only on a full and on an empty queue, and both
change nothing. -/
def accept [DecidableEq T] (f : Bounded T cap) : Event T → Option (Bounded T cap)
  | .enqueued x true => f.enqueue x
  | .enqueued x false => if (f.enqueue x).isNone then some f else none
  | .dequeued (some y) =>
      match f.dequeue with
      | some (x, g) => if x = y then some g else none
      | none => none
  | .dequeued none => if f.dequeue.isNone then some f else none

/-- The queue after a list of completed operations, oldest first. -/
def run [DecidableEq T] (f : Bounded T cap) (es : List (Event T)) : Option (Bounded T cap) :=
  es.foldlM accept f

@[simp] theorem elems_empty : (empty : Bounded T cap).elems = [] := rfl

@[simp] theorem elems_push (f : Bounded T cap) (x : T) (h : f.elems.length < cap) :
    (f.push x h).elems = f.elems ++ [x] := rfl

@[simp] theorem elems_pop (f : Bounded T cap) : f.pop.elems = f.elems.tail := rfl

theorem enqueue_eq_some (f : Bounded T cap) (x : T) (h : f.elems.length < cap) :
    f.enqueue x = some (f.push x h) := dif_pos h

theorem enqueue_eq_none (f : Bounded T cap) (x : T) (h : ¬ f.elems.length < cap) :
    f.enqueue x = none := dif_neg h

theorem dequeue_cons {f : Bounded T cap} {x : T} {xs : List T} (h : f.elems = x :: xs) :
    f.dequeue = some (x, f.pop) := by
  simp [dequeue, h]

theorem dequeue_nil {f : Bounded T cap} (h : f.elems = []) : f.dequeue = none := by
  simp [dequeue, h]

variable [DecidableEq T]

/-- An accepted enqueue needs room, and stores the element. -/
theorem accept_enqueued_true (f : Bounded T cap) (x : T) (h : f.elems.length < cap) :
    f.accept (.enqueued x true) = some (f.push x h) := enqueue_eq_some f x h

/-- A refused enqueue needs a full queue, and changes nothing. -/
theorem accept_enqueued_false (f : Bounded T cap) (x : T) (h : ¬ f.elems.length < cap) :
    f.accept (.enqueued x false) = some f := by
  simp [accept, enqueue_eq_none f x h]

/-- A successful dequeue yields the oldest element and removes it. -/
theorem accept_dequeued_some {f : Bounded T cap} {x : T} {xs : List T} (h : f.elems = x :: xs) :
    f.accept (.dequeued (some x)) = some f.pop := by
  simp [accept, dequeue_cons h]

/-- An empty dequeue needs an empty queue, and changes nothing. -/
theorem accept_dequeued_none {f : Bounded T cap} (h : f.elems = []) :
    f.accept (.dequeued none) = some f := by
  simp [accept, dequeue_nil h]

/-- Only a queue with room accepts that an enqueue succeeded. -/
theorem room_of_accept {f g : Bounded T cap} {x : T}
    (h : f.accept (.enqueued x true) = some g) : f.elems.length < cap := by
  by_contra hfull
  simp [accept, enqueue_eq_none f x hfull] at h

/-- Only a full queue accepts that an enqueue was refused. -/
theorem full_of_accept {f g : Bounded T cap} {x : T}
    (h : f.accept (.enqueued x false) = some g) : ¬ f.elems.length < cap := by
  intro hroom
  simp [accept, enqueue_eq_some f x hroom] at h

/-- Only a queue with that element in front accepts that a dequeue yielded it. -/
theorem head_of_accept {f g : Bounded T cap} {x : T}
    (h : f.accept (.dequeued (some x)) = some g) : f.elems.head? = some x := by
  cases hf : f.elems with
  | nil => simp [accept, dequeue_nil hf] at h
  | cons y ys =>
    simp only [accept, dequeue_cons hf, Option.ite_none_right_eq_some] at h
    simp [h.1]

/-- Only an empty queue accepts that a dequeue found nothing. -/
theorem nil_of_accept {f g : Bounded T cap} (h : f.accept (.dequeued none) = some g) :
    f.elems = [] := by
  cases hf : f.elems with
  | nil => rfl
  | cons y ys => simp [accept, dequeue_cons hf] at h

@[simp] theorem run_nil (f : Bounded T cap) : f.run [] = some f := rfl

/-- A run that ends with one more operation. -/
theorem run_append_singleton (f : Bounded T cap) (es : List (Event T)) (e : Event T) :
    f.run (es ++ [e]) = (f.run es).bind fun g => g.accept e := by
  simp [run, List.foldlM_append]

end Bounded

end Fifo
