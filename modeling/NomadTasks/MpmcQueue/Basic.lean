import Mathlib.Tactic.Common
import Mathlib.Data.Nat.Bitwise
import Mathlib.Logic.Function.Basic

/-!
# `mpmc_queue`: the bounded queue of `detail/mpmc_queue.h`

The queue's shared memory and the single steps of one `enqueue` or `dequeue` call. A step is one
access to an atomic, or the copy of the payload, so that `enqStep` and `deqStep` can be
interleaved (`MpmcQueue.Concurrent`) as well as run to completion (`MpmcQueue.Sequential`).

`size_t` is `BitVec w`; the buffer has `2 ^ k` cells, which is what the constructor asserts of
`buffer_size`. Positions and sequence numbers wrap modulo `2 ^ w`, and the signed difference that
the code tests is the two's-complement `w`-bit difference.
-/

namespace NomadTasks

variable {w k : ℕ} {T : Type}

/-- `mpmc_queue<T>::cell_t`. -/
structure Cell (w : ℕ) (T : Type) where
  sequence : BitVec w
  data : T

/-- The members of `mpmc_queue<T>` for a buffer of `2 ^ k` cells. -/
@[ext]
structure MpmcQueue (w k : ℕ) (T : Type) where
  buffer : Fin (2 ^ k) → Cell w T
  enqueuePos : BitVec w
  dequeuePos : BitVec w

/-- `buffer_mask_`, which the constructor sets to `buffer_size - 1`. -/
def bufferMask (w k : ℕ) : BitVec w := BitVec.ofNat w (2 ^ k) - 1#w

/-- The cell of ring position `p`. -/
def ringIndex (k p : ℕ) : Fin (2 ^ k) := ⟨p % 2 ^ k, Nat.mod_lt _ (Nat.two_pow_pos k)⟩

/-- A position and the one a buffer further on share a cell. -/
theorem ringIndex_add_size (p : ℕ) : ringIndex k (p + 2 ^ k) = ringIndex k p := by
  simp [ringIndex]

theorem toNat_bufferMask (hk : k < w) : (bufferMask w k).toNat = 2 ^ k - 1 := by
  have hlt : 2 ^ k < 2 ^ w := Nat.pow_lt_pow_right (by omega) hk
  have hpos : 0 < 2 ^ k := Nat.two_pow_pos k
  have h1 : 1 % 2 ^ w = 1 := Nat.mod_eq_of_lt (by omega)
  simp only [bufferMask, BitVec.toNat_sub, BitVec.toNat_ofNat, h1, Nat.mod_eq_of_lt hlt]
  rw [show 2 ^ w - 1 + 2 ^ k = (2 ^ k - 1) + 2 ^ w by omega, Nat.add_mod_right,
    Nat.mod_eq_of_lt (by omega)]

/-- Masking a position never leaves the buffer, whatever the width. -/
theorem and_bufferMask_lt (pos : BitVec w) : (pos &&& bufferMask w k).toNat < 2 ^ k := by
  by_cases hk : k < w
  · rw [BitVec.toNat_and, toNat_bufferMask hk, Nat.and_two_pow_sub_one_eq_mod]
    exact Nat.mod_lt _ (Nat.two_pow_pos k)
  · exact lt_of_lt_of_le (BitVec.isLt _) (Nat.pow_le_pow_right (by omega) (by omega))

/-- The index `pos & buffer_mask_` into `buffer_`. -/
def cellIndex (pos : BitVec w) : Fin (2 ^ k) :=
  ⟨(pos &&& bufferMask w k).toNat, and_bufferMask_lt pos⟩

theorem cellIndex_ofNat (hk : k < w) (p : ℕ) :
    (cellIndex (BitVec.ofNat w p) : Fin (2 ^ k)) = ringIndex k p := by
  apply Fin.ext
  simp only [cellIndex, ringIndex]
  rw [BitVec.toNat_and, toNat_bufferMask hk, Nat.and_two_pow_sub_one_eq_mod, BitVec.toNat_ofNat,
    Nat.mod_mod_of_dvd _ (Nat.pow_dvd_pow 2 hk.le)]

namespace MpmcQueue

/-- The state the constructor leaves: cell `i` has sequence number `i`, both positions are `0`, and
the payloads are default-constructed. -/
def init (w k : ℕ) (T : Type) [Inhabited T] : MpmcQueue w k T where
  buffer i := { sequence := BitVec.ofNat w i, data := default }
  enqueuePos := 0
  dequeuePos := 0

/-- `cell->data_ = data`. -/
def setData (q : MpmcQueue w k T) (i : Fin (2 ^ k)) (data : T) : MpmcQueue w k T :=
  { q with buffer := Function.update q.buffer i { q.buffer i with data := data } }

/-- `cell->sequence_.store(seq)`. -/
def setSequence (q : MpmcQueue w k T) (i : Fin (2 ^ k)) (seq : BitVec w) : MpmcQueue w k T :=
  { q with buffer := Function.update q.buffer i { q.buffer i with sequence := seq } }

@[simp] theorem setData_buffer (q : MpmcQueue w k T) (i : Fin (2 ^ k)) (data : T) :
    (q.setData i data).buffer = Function.update q.buffer i { q.buffer i with data := data } := rfl

@[simp] theorem setData_enqueuePos (q : MpmcQueue w k T) (i : Fin (2 ^ k)) (data : T) :
    (q.setData i data).enqueuePos = q.enqueuePos := rfl

@[simp] theorem setData_dequeuePos (q : MpmcQueue w k T) (i : Fin (2 ^ k)) (data : T) :
    (q.setData i data).dequeuePos = q.dequeuePos := rfl

@[simp] theorem setSequence_buffer (q : MpmcQueue w k T) (i : Fin (2 ^ k)) (seq : BitVec w) :
    (q.setSequence i seq).buffer =
      Function.update q.buffer i { q.buffer i with sequence := seq } := rfl

@[simp] theorem setSequence_enqueuePos (q : MpmcQueue w k T) (i : Fin (2 ^ k)) (seq : BitVec w) :
    (q.setSequence i seq).enqueuePos = q.enqueuePos := rfl

@[simp] theorem setSequence_dequeuePos (q : MpmcQueue w k T) (i : Fin (2 ^ k)) (seq : BitVec w) :
    (q.setSequence i seq).dequeuePos = q.dequeuePos := rfl

end MpmcQueue

/-- The program points of `enqueue`, each with the locals that are live there. -/
inductive EnqPc (w : ℕ)
  /-- `pos = enqueue_pos_.load()`: before the loop, and in its last branch. -/
  | loadPos
  /-- `seq = cell->sequence_.load()`, and the tests on `dif`. -/
  | loadSeq (pos : BitVec w)
  /-- `enqueue_pos_.compare_exchange_weak(pos, pos + 1)`. -/
  | cas (pos : BitVec w)
  /-- `cell->data_ = data`. -/
  | copy (pos : BitVec w)
  /-- `cell->sequence_.store(pos + 1)`. -/
  | store (pos : BitVec w)
  /-- The call has returned `result`. -/
  | returned (pos : BitVec w) (result : Bool)
  deriving DecidableEq

/-- The program points of `dequeue`, each with the locals that are live there. -/
inductive DeqPc (w : ℕ) (T : Type)
  /-- `pos = dequeue_pos_.load()`: before the loop, and in its last branch. -/
  | loadPos
  /-- `seq = cell->sequence_.load()`, and the tests on `dif`. -/
  | loadSeq (pos : BitVec w)
  /-- `dequeue_pos_.compare_exchange_weak(pos, pos + 1)`. -/
  | cas (pos : BitVec w)
  /-- `data = cell->data_`. -/
  | copy (pos : BitVec w)
  /-- `cell->sequence_.store(pos + buffer_mask_ + 1)`, after `data` was read. -/
  | store (pos : BitVec w) (data : T)
  /-- The call has returned: `some data` for `true` with `data` written, `none` for `false`. -/
  | returned (pos : BitVec w) (result : Option T)
  deriving DecidableEq

/-- One step of `enqueue(data)`. `spurious` makes a `compare_exchange_weak` fail although the
position matches; a failed exchange reloads `pos` and goes round the loop. -/
def enqStep (q : MpmcQueue w k T) (data : T) (spurious : Bool) :
    EnqPc w → MpmcQueue w k T × EnqPc w
  | .loadPos => (q, .loadSeq q.enqueuePos)
  | .loadSeq pos =>
      let dif := (q.buffer (cellIndex pos)).sequence - pos
      if dif = 0#w then (q, .cas pos)
      else if dif.slt 0#w then (q, .returned pos false)
      else (q, .loadPos)
  | .cas pos =>
      if q.enqueuePos = pos ∧ spurious = false then
        ({ q with enqueuePos := pos + 1#w }, .copy pos)
      else (q, .loadSeq q.enqueuePos)
  | .copy pos => (q.setData (cellIndex pos) data, .store pos)
  | .store pos => (q.setSequence (cellIndex pos) (pos + 1#w), .returned pos true)
  | .returned pos result => (q, .returned pos result)

/-- One step of `dequeue(data)`, with `spurious` as in `enqStep`. -/
def deqStep (q : MpmcQueue w k T) (spurious : Bool) :
    DeqPc w T → MpmcQueue w k T × DeqPc w T
  | .loadPos => (q, .loadSeq q.dequeuePos)
  | .loadSeq pos =>
      let dif := (q.buffer (cellIndex pos)).sequence - (pos + 1#w)
      if dif = 0#w then (q, .cas pos)
      else if dif.slt 0#w then (q, .returned pos none)
      else (q, .loadPos)
  | .cas pos =>
      if q.dequeuePos = pos ∧ spurious = false then
        ({ q with dequeuePos := pos + 1#w }, .copy pos)
      else (q, .loadSeq q.dequeuePos)
  | .copy pos => (q, .store pos (q.buffer (cellIndex pos)).data)
  | .store pos data =>
      (q.setSequence (cellIndex pos) (pos + bufferMask w k + 1#w), .returned pos (some data))
  | .returned pos result => (q, .returned pos result)

/-! ## The branches of the two loops -/

section Branches

variable {q : MpmcQueue w k T} {data : T} {pos : BitVec w} {spurious : Bool}

theorem enqStep_loadSeq_ready (h : (q.buffer (cellIndex pos)).sequence - pos = 0#w) :
    enqStep q data spurious (.loadSeq pos) = (q, .cas pos) := by
  simp [enqStep, h]

theorem enqStep_loadSeq_full (h : (q.buffer (cellIndex pos)).sequence - pos ≠ 0#w)
    (hs : ((q.buffer (cellIndex pos)).sequence - pos).slt 0#w = true) :
    enqStep q data spurious (.loadSeq pos) = (q, .returned pos false) := by
  simp only [enqStep, if_neg h, if_pos hs]

theorem enqStep_cas : enqStep q data false (.cas q.enqueuePos) =
    ({ q with enqueuePos := q.enqueuePos + 1#w }, .copy q.enqueuePos) := by
  simp [enqStep]

theorem enqStep_cas_spurious :
    enqStep q data true (.cas pos) = (q, .loadSeq q.enqueuePos) := by
  simp [enqStep]

theorem deqStep_loadSeq_ready (h : (q.buffer (cellIndex pos)).sequence - (pos + 1#w) = 0#w) :
    deqStep q spurious (.loadSeq pos) = (q, .cas pos) := by
  simp [deqStep, h]

theorem deqStep_loadSeq_empty (h : (q.buffer (cellIndex pos)).sequence - (pos + 1#w) ≠ 0#w)
    (hs : ((q.buffer (cellIndex pos)).sequence - (pos + 1#w)).slt 0#w = true) :
    deqStep q spurious (.loadSeq pos) = (q, .returned pos none) := by
  simp only [deqStep, if_neg h, if_pos hs]

theorem deqStep_cas : deqStep q false (.cas q.dequeuePos) =
    ({ q with dequeuePos := q.dequeuePos + 1#w }, .copy q.dequeuePos) := by
  simp [deqStep]

theorem deqStep_cas_spurious :
    deqStep q true (.cas pos) = (q, .loadSeq q.dequeuePos) := by
  simp [deqStep]

end Branches

end NomadTasks
