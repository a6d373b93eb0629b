import Mathlib.Data.BitVec
import NomadTasks.MpmcQueue.Basic
import NomadTasks.Ticket.Issued
import NomadTasks.Transition.System

/-!
# `mpmc_queue` under interleaving

Any number of `enqueue` and `dequeue` calls, indexed by an arbitrary type `ι`, take the steps of
`enqStep` and `deqStep` in any sequentially consistent order. A thread is the sequence of its
calls; nothing here depends on which thread makes a call.

The *ticket* of a call is the position it wins with its exchange. While the positions stay below
`2 ^ (w - 1)` they do not wrap, so tickets are natural numbers.
-/

namespace NomadTasks

open Transition Ticket

variable {w k : ℕ} {T ι : Type}

/-- A call of the queue, from before it begins until after it has returned. -/
inductive QueueCall (w : ℕ) (T : Type)
  | notStarted
  | enqueue (data : T) (pc : EnqPc w)
  | dequeue (pc : DeqPc w T)
  deriving DecidableEq

/-- The queue and every call on it. -/
structure QueueState (w k : ℕ) (T ι : Type) where
  queue : MpmcQueue w k T
  calls : ι → QueueCall w T

/-- What can happen next: a call begins, or takes one step. -/
inductive QueueAction (T ι : Type)
  | beginEnqueue (i : ι) (data : T)
  | beginDequeue (i : ι)
  | step (i : ι) (spurious : Bool)

section System

variable [DecidableEq ι]

/-- Replace call `i`. -/
def QueueState.setCall (s : QueueState w k T ι) (i : ι) (c : QueueCall w T) : QueueState w k T ι :=
  { s with calls := Function.update s.calls i c }

/-- One step of the interleaving. -/
def queueStep (s : QueueState w k T ι) : QueueAction T ι → Option (QueueState w k T ι)
  | .beginEnqueue i data =>
      match s.calls i with
      | .notStarted => some (s.setCall i (.enqueue data .loadPos))
      | _ => none
  | .beginDequeue i =>
      match s.calls i with
      | .notStarted => some (s.setCall i (.dequeue .loadPos))
      | _ => none
  | .step i spurious =>
      match s.calls i with
      | .notStarted => none
      | .enqueue _ (.returned _ _) => none
      | .dequeue (.returned _ _) => none
      | .enqueue data pc =>
          let (q, pc') := enqStep s.queue data spurious pc
          some ({ s with queue := q }.setCall i (.enqueue data pc'))
      | .dequeue pc =>
          let (q, pc') := deqStep s.queue spurious pc
          some ({ s with queue := q }.setCall i (.dequeue pc'))

/-- The queue from construction on, under any interleaving of any number of calls. -/
def queueSystem (w k : ℕ) (T ι : Type) [Inhabited T] [DecidableEq ι] :
    System (QueueState w k T ι) (QueueAction T ι) where
  init s := s = { queue := MpmcQueue.init w k T, calls := fun _ => .notStarted }
  step := queueStep

end System

/-- Both positions are below `2 ^ (w - 1)`. -/
def PositionsBelow (s : QueueState w k T ι) : Prop :=
  s.queue.enqueuePos.toNat < 2 ^ (w - 1) ∧ s.queue.dequeuePos.toNat < 2 ^ (w - 1)

instance (s : QueueState w k T ι) : Decidable (PositionsBelow s) :=
  inferInstanceAs (Decidable (_ ∧ _))

namespace QueueCall

/-- The ticket of an `enqueue` call that has won one. -/
def enqTicket : QueueCall w T → Option ℕ
  | .enqueue _ (.copy pos) | .enqueue _ (.store pos) | .enqueue _ (.returned pos true) =>
      some pos.toNat
  | _ => none

/-- The ticket of a `dequeue` call that has won one. -/
def deqTicket : QueueCall w T → Option ℕ
  | .dequeue (.copy pos) | .dequeue (.store pos _) | .dequeue (.returned pos (some _)) =>
      some pos.toNat
  | _ => none

/-- The cell of a call that is between its successful exchange and its sequence store. -/
def busyCell : QueueCall w T → Option (Fin (2 ^ k))
  | .enqueue _ (.copy pos) | .enqueue _ (.store pos) => some (cellIndex pos)
  | .dequeue (.copy pos) | .dequeue (.store pos _) => some (cellIndex pos)
  | _ => none

end QueueCall

/-! ## The invariant -/

theorem cellIndex_eq_ringIndex (hkw : k < w) (pos : BitVec w) :
    (cellIndex pos : Fin (2 ^ k)) = ringIndex k pos.toNat := by
  rw [← cellIndex_ofNat hkw, BitVec.ofNat_toNat, BitVec.setWidth_eq]

/-- A position that does not wrap is advanced by one. -/
theorem toNat_succ {pos : BitVec w} (h : pos.toNat + 1 < 2 ^ w) :
    (pos + 1#w).toNat = pos.toNat + 1 := by
  have hone : (1#w).toNat = 1 := by
    rw [BitVec.toNat_ofNat, Nat.mod_eq_of_lt (by omega)]
  rw [BitVec.toNat_add_of_lt (by omega), hone]

/-- The ring as the tickets see it: cell `x` serves ticket `cur x`, and `full x` says whether that
ticket's element has been published. -/
structure Ring (k : ℕ) where
  cur : Fin (2 ^ k) → ℕ
  full : Fin (2 ^ k) → Bool

namespace Ring

/-- The cell of ticket `p` waits for that ticket's enqueue. -/
def FreeFor (r : Ring k) (p : ℕ) : Prop :=
  r.cur (ringIndex k p) = p ∧ r.full (ringIndex k p) = false

/-- The cell of ticket `p` holds that ticket's element. -/
def FullWith (r : Ring k) (p : ℕ) : Prop :=
  r.cur (ringIndex k p) = p ∧ r.full (ringIndex k p) = true

/-- The element of ticket `p` has been taken out of its cell. -/
def Passed (r : Ring k) (p : ℕ) : Prop := p < r.cur (ringIndex k p)

/-- The sequence number the cell must hold. -/
def seq (r : Ring k) (x : Fin (2 ^ k)) : ℕ := r.cur x + (r.full x).toNat

end Ring

/-- What a call at one of its program points knows, when `e` enqueue and `d` dequeue tickets have
been won. -/
def CallOk (r : Ring k) (buffer : Fin (2 ^ k) → Cell w T) (e d : ℕ) : QueueCall w T → Prop
  | .notStarted => True
  | .enqueue _ .loadPos => True
  | .enqueue _ (.loadSeq pos) => pos.toNat ≤ e
  | .enqueue _ (.cas pos) => pos.toNat ≤ e ∧ (pos.toNat < e ∨ r.FreeFor pos.toNat)
  | .enqueue _ (.copy pos) => pos.toNat < e ∧ r.FreeFor pos.toNat
  | .enqueue data (.store pos) => pos.toNat < e ∧ r.FreeFor pos.toNat ∧
      (buffer (ringIndex k pos.toNat)).data = data
  | .enqueue data (.returned pos true) => pos.toNat < e ∧ (r.Passed pos.toNat ∨
      (r.FullWith pos.toNat ∧ (buffer (ringIndex k pos.toNat)).data = data))
  | .enqueue _ (.returned _ false) => True
  | .dequeue .loadPos => True
  | .dequeue (.loadSeq pos) => pos.toNat ≤ d
  | .dequeue (.cas pos) => pos.toNat ≤ d ∧ (pos.toNat < d ∨ r.FullWith pos.toNat)
  | .dequeue (.copy pos) => pos.toNat < d ∧ r.FullWith pos.toNat
  | .dequeue (.store pos data) => pos.toNat < d ∧ r.FullWith pos.toNat ∧
      (buffer (ringIndex k pos.toNat)).data = data
  | .dequeue (.returned pos (some _)) => pos.toNat < d ∧ r.Passed pos.toNat
  | .dequeue (.returned _ none) => True

/-- An element that a completed `enqueue` of `data` published under ticket `pos`. -/
def Published (calls : ι → QueueCall w T) (pos : BitVec w) (data : T) : Prop :=
  ∃ i, calls i = .enqueue data (.returned pos true)

/-- The invariant of the interleaving: the ring `r` explains every sequence number, every element
and what every call knows, and what a `dequeue` call has read was published under its ticket. -/
structure RingInv (s : QueueState w k T ι) (r : Ring k) : Prop where
  deq_le_enq : s.queue.dequeuePos.toNat ≤ s.queue.enqueuePos.toNat
  enq_le : s.queue.enqueuePos.toNat ≤ 2 ^ (w - 1)
  index : ∀ x, ringIndex k (r.cur x) = x
  cur_lt : ∀ x, r.cur x < s.queue.enqueuePos.toNat + 2 ^ k
  full_lt : ∀ x, r.full x = true → r.cur x < s.queue.enqueuePos.toNat
  passed_lt : ∀ p, r.Passed p → p < s.queue.dequeuePos.toNat
  seq : ∀ x, (s.queue.buffer x).sequence = BitVec.ofNat w (r.seq x)
  enqTickets : Issued (fun i => (s.calls i).enqTicket) s.queue.enqueuePos.toNat
  deqTickets : Issued (fun i => (s.calls i).deqTicket) s.queue.dequeuePos.toNat
  calls : ∀ i, CallOk r s.queue.buffer s.queue.enqueuePos.toNat s.queue.dequeuePos.toNat
    (s.calls i)
  published : ∀ x, r.full x = true →
    Published s.calls (BitVec.ofNat w (r.cur x)) (s.queue.buffer x).data
  received : ∀ j pos data, (s.calls j = .dequeue (.store pos data) ∨
    s.calls j = .dequeue (.returned pos (some data))) → Published s.calls pos data

end NomadTasks
