import Mathlib.Data.BitVec
import Mathlib.Logic.Relation
import NomadTasks.Fifo.Bounded
import NomadTasks.MpmcQueue.Basic

/-!
# `mpmc_queue` without overlapping calls

A call that runs without steps of other calls is a path of `enqStep` or `deqStep` from the first
program point to a return; its weak exchanges may fail spuriously any number of times. A
sequential run is a list of such calls, one after the other, from construction on.

`Represents q f d` is the representation invariant: the cells of the `f.elems.length` ring
positions from `d` on hold the stored elements, the other cells wait for the next enqueues. Here
`d` counts the elements ever dequeued, without wrapping, while the words of the queue are its
residues modulo `2 ^ w`.
-/

namespace NomadTasks

open Fifo

variable {w k : ℕ} {T : Type}

/-- One step of an undisturbed `enqueue(data)`. -/
def EnqStepRel (data : T) (c c' : MpmcQueue w k T × EnqPc w) : Prop :=
  ∃ spurious, enqStep c.1 data spurious c.2 = c'

/-- One step of an undisturbed `dequeue`. -/
def DeqStepRel (c c' : MpmcQueue w k T × DeqPc w T) : Prop :=
  ∃ spurious, deqStep c.1 spurious c.2 = c'

/-- `enqueue(data)`, called on `q` and run alone, returns `result` and leaves `q'`. -/
def EnqueueCompletes (q : MpmcQueue w k T) (data : T) (result : Bool) (q' : MpmcQueue w k T) :
    Prop :=
  ∃ pos, Relation.ReflTransGen (EnqStepRel data) (q, .loadPos) (q', .returned pos result)

/-- `dequeue`, called on `q` and run alone, returns `result` and leaves `q'`. -/
def DequeueCompletes (q : MpmcQueue w k T) (result : Option T) (q' : MpmcQueue w k T) : Prop :=
  ∃ pos, Relation.ReflTransGen DeqStepRel (q, .loadPos) (q', .returned pos result)

/-- A list of completed calls, oldest first, that leads from construction to `q`. -/
inductive SequentialRun [Inhabited T] : List (Event T) → MpmcQueue w k T → Prop
  | init : SequentialRun [] (MpmcQueue.init w k T)
  | enqueue {es : List (Event T)} {q q' : MpmcQueue w k T} {data : T} {result : Bool}
      (hr : SequentialRun es q) (hc : EnqueueCompletes q data result q') :
      SequentialRun (es ++ [.enqueued data result]) q'
  | dequeue {es : List (Event T)} {q q' : MpmcQueue w k T} {result : Option T}
      (hr : SequentialRun es q) (hc : DequeueCompletes q result q') :
      SequentialRun (es ++ [.dequeued result]) q'

/-! ## Differences of wrapped positions -/

theorem ofNat_succ (p : ℕ) : BitVec.ofNat w (p + 1) = BitVec.ofNat w p + 1#w := BitVec.ofNat_add p 1

/-- The wrapped difference of positions `m` apart is negative as long as `m` is at most half the
range, whatever the two positions have wrapped to. -/
theorem slt_zero_of_behind {m : ℕ} (hm : 0 < m) (hle : 2 * m ≤ 2 ^ w) (a : ℕ) :
    (BitVec.ofNat w a - BitVec.ofNat w (a + m)).slt 0#w = true ∧
      BitVec.ofNat w a - BitVec.ofNat w (a + m) ≠ 0#w := by
  have hlt : m < 2 ^ w := by omega
  have hneg : BitVec.ofNat w a - BitVec.ofNat w (a + m) = -BitVec.ofNat w m := by
    rw [BitVec.ofNat_add, sub_add_cancel_left]
  have hval : (-BitVec.ofNat w m).toNat = 2 ^ w - m := by
    rw [BitVec.toNat_neg, BitVec.toNat_ofNat, Nat.mod_eq_of_lt hlt, Nat.mod_eq_of_lt (by omega)]
  have hw : 2 ^ w = 2 * 2 ^ (w - 1) := by
    rcases w with _ | w
    · simp at hlt; omega
    · rw [Nat.add_sub_cancel, pow_succ, Nat.mul_comm]
  rw [hneg]
  refine ⟨?_, fun h0 => ?_⟩
  · rw [BitVec.slt_zero_eq_msb, BitVec.msb_eq_decide, hval, decide_eq_true_eq]
    omega
  · have := congrArg BitVec.toNat h0
    rw [hval] at this
    simp at this
    omega

/-! ## The representation invariant -/

/-- `q` stores the elements of `f` at the ring positions from `d` on, and every other cell is
ready for the enqueue that will reach it next. -/
structure Represents (q : MpmcQueue w k T) (f : Bounded T (2 ^ k)) (d : ℕ) : Prop where
  dequeuePos : q.dequeuePos = BitVec.ofNat w d
  enqueuePos : q.enqueuePos = BitVec.ofNat w (d + f.elems.length)
  stored : ∀ i (hi : i < f.elems.length), q.buffer (ringIndex k (d + i)) =
    { sequence := BitVec.ofNat w (d + i + 1), data := f.elems[i] }
  free : ∀ i, f.elems.length ≤ i → i < 2 ^ k →
    (q.buffer (ringIndex k (d + i))).sequence = BitVec.ofNat w (d + i)

/-- Construction represents the empty queue. -/
theorem represents_init [Inhabited T] :
    Represents (MpmcQueue.init w k T) Bounded.empty 0 where
  dequeuePos := rfl
  enqueuePos := rfl
  stored i hi := absurd hi (by simp)
  free i _ hi := by simp [MpmcQueue.init, ringIndex, Nat.mod_eq_of_lt hi]

/-- Ring positions less than a buffer apart have different cells. -/
theorem ringIndex_ne {d i j : ℕ} (hi : i < 2 ^ k) (hj : j < 2 ^ k) (hij : i ≠ j) :
    ringIndex k (d + i) ≠ ringIndex k (d + j) := by
  intro h
  have hmod : d + i ≡ d + j [MOD 2 ^ k] := congrArg Fin.val h
  exact hij ((hmod.add_left_cancel' d).eq_of_lt_of_lt hi hj)

namespace Represents

variable {q : MpmcQueue w k T} {f : Bounded T (2 ^ k)} {d : ℕ}

/-- The cell at the enqueue position is free exactly when there is room, and otherwise lags by a
whole buffer, so that its wrapped difference to the position is negative. -/
theorem enqueue_dif (h : Represents q f d) (hk : 1 ≤ k) (hkw : k < w) :
    let dif := (q.buffer (cellIndex q.enqueuePos)).sequence - q.enqueuePos
    (f.elems.length < 2 ^ k → dif = 0#w) ∧
      (¬ f.elems.length < 2 ^ k → dif ≠ 0#w ∧ dif.slt 0#w = true) := by
  have hsize : 2 ≤ 2 ^ k := Nat.le_self_pow (by omega) 2
  have hhalf : 2 * 2 ^ k ≤ 2 ^ w := by
    rw [← pow_succ']
    exact Nat.pow_le_pow_right (by omega) hkw
  simp only [h.enqueuePos, cellIndex_ofNat hkw]
  refine ⟨fun hlt => by rw [h.free _ le_rfl hlt, BitVec.sub_self], fun hfull => ?_⟩
  have hlen : f.elems.length = 2 ^ k := le_antisymm f.length_le (not_lt.mp hfull)
  have hseq := h.stored 0 (by omega)
  rw [hlen, ringIndex_add_size, show ringIndex k d = ringIndex k (d + 0) from rfl, hseq,
    show d + 2 ^ k = d + 0 + 1 + (2 ^ k - 1) by omega]
  exact (slt_zero_of_behind (by omega) (by omega) (d + 0 + 1)).symm

/-- The cell at the dequeue position is full exactly when something is stored, and otherwise lags
by one. -/
theorem dequeue_dif (h : Represents q f d) (hk : 1 ≤ k) (hkw : k < w) :
    let dif := (q.buffer (cellIndex q.dequeuePos)).sequence - (q.dequeuePos + 1#w)
    (f.elems ≠ [] → dif = 0#w) ∧ (f.elems = [] → dif ≠ 0#w ∧ dif.slt 0#w = true) := by
  have hhalf : 2 * 1 ≤ 2 ^ w := by
    rw [← pow_one (2 * 1)]
    exact Nat.pow_le_pow_right (by omega) (by omega)
  simp only [h.dequeuePos, cellIndex_ofNat hkw, ← ofNat_succ]
  refine ⟨fun hne => ?_, fun hnil => ?_⟩
  · have hseq := h.stored 0 (List.length_pos_iff.mpr hne)
    rw [show ringIndex k d = ringIndex k (d + 0) from rfl, hseq, Nat.add_zero, BitVec.sub_self]
  · have hseq := h.free 0 (by simp [hnil]) (Nat.two_pow_pos k)
    rw [show ringIndex k d = ringIndex k (d + 0) from rfl, hseq]
    exact (slt_zero_of_behind one_pos hhalf (d + 0)).symm

/-- The oldest element is the payload of the cell at the dequeue position. -/
theorem data_eq_head (h : Represents q f d) (hkw : k < w) {x : T} {xs : List T}
    (hx : f.elems = x :: xs) : (q.buffer (cellIndex q.dequeuePos)).data = x := by
  have hcell := h.stored 0 (by simp [hx])
  rw [h.dequeuePos, cellIndex_ofNat hkw, show ringIndex k d = ringIndex k (d + 0) from rfl, hcell]
  simp [hx]

end Represents

/-- `q` after an enqueue of `data` at its enqueue position. -/
def MpmcQueue.enqueued (q : MpmcQueue w k T) (data : T) : MpmcQueue w k T :=
  (({ q with enqueuePos := q.enqueuePos + 1#w }).setData (cellIndex q.enqueuePos) data).setSequence
    (cellIndex q.enqueuePos) (q.enqueuePos + 1#w)

/-- `q` after a dequeue at its dequeue position. -/
def MpmcQueue.dequeued (q : MpmcQueue w k T) : MpmcQueue w k T :=
  ({ q with dequeuePos := q.dequeuePos + 1#w }).setSequence (cellIndex q.dequeuePos)
    (q.dequeuePos + bufferMask w k + 1#w)

/-- Enqueuing at the enqueue position represents the queue with the element pushed. -/
theorem Represents.enqueued {q : MpmcQueue w k T} {f : Bounded T (2 ^ k)} {d : ℕ}
    (h : Represents q f d) (hkw : k < w) (data : T) (hlt : f.elems.length < 2 ^ k) :
    Represents (q.enqueued data) (f.push data hlt) d := by
  have hidx : cellIndex q.enqueuePos = ringIndex k (d + f.elems.length) := by
    rw [h.enqueuePos, cellIndex_ofNat hkw]
  have hother : ∀ i < 2 ^ k, i ≠ f.elems.length →
      (q.enqueued data).buffer (ringIndex k (d + i)) = q.buffer (ringIndex k (d + i)) := by
    intro i hi hne
    have := ringIndex_ne hi hlt hne (d := d)
    simp [MpmcQueue.enqueued, hidx, this]
  refine ⟨h.dequeuePos, ?_, fun i hi => ?_, fun i hle hi => ?_⟩
  · simp only [MpmcQueue.enqueued, MpmcQueue.setSequence_enqueuePos,
      MpmcQueue.setData_enqueuePos, h.enqueuePos, Bounded.elems_push, List.length_append,
      List.length_singleton, ← ofNat_succ, Nat.add_assoc]
  · simp only [Bounded.elems_push, List.length_append, List.length_singleton] at hi
    rcases Nat.lt_succ_iff_lt_or_eq.mp hi with hold | rfl
    · rw [hother i (by omega) (by omega), h.stored i hold]
      simp [List.getElem_append_left hold]
    · rw [ofNat_succ, ← h.enqueuePos, ← hidx]
      simp [MpmcQueue.enqueued]
  · simp only [Bounded.elems_push, List.length_append, List.length_singleton] at hle
    rw [hother i hi (by omega), h.free i (by omega) hi]

/-- Dequeuing at the dequeue position represents the queue with its oldest element popped. -/
theorem Represents.dequeued {q : MpmcQueue w k T} {f : Bounded T (2 ^ k)} {d : ℕ}
    (h : Represents q f d) (hkw : k < w) (hne : f.elems ≠ []) :
    Represents q.dequeued f.pop (d + 1) := by
  have hpos : 0 < f.elems.length := List.length_pos_iff.mpr hne
  have hle := f.length_le
  have hidx : cellIndex q.dequeuePos = ringIndex k (d + 0) := by
    rw [h.dequeuePos, cellIndex_ofNat hkw, Nat.add_zero]
  have hother : ∀ i, i + 1 < 2 ^ k →
      q.dequeued.buffer (ringIndex k (d + 1 + i)) = q.buffer (ringIndex k (d + (i + 1))) := by
    intro i hi
    have hne' := ringIndex_ne hi (Nat.two_pow_pos k) (Nat.succ_ne_zero i) (d := d)
    rw [show d + 1 + i = d + (i + 1) by omega]
    simp only [MpmcQueue.dequeued, MpmcQueue.setSequence_buffer, hidx]
    rw [Function.update_of_ne hne']
  have hlen : f.pop.elems.length = f.elems.length - 1 := by simp
  refine ⟨?_, ?_, fun i hi => ?_, fun i hge hi => ?_⟩
  · rw [ofNat_succ, ← h.dequeuePos]
    rfl
  · simp only [MpmcQueue.dequeued, MpmcQueue.setSequence_enqueuePos, h.enqueuePos, hlen]
    congr 1
    omega
  · rw [hother i (by omega), h.stored (i + 1) (by omega)]
    simp only [Bounded.elems_pop, List.getElem_tail]
    rw [show d + (i + 1) + 1 = d + 1 + i + 1 by omega]
  · rcases Nat.lt_or_ge (i + 1) (2 ^ k) with hlt | hlast
    · rw [hother i hlt, h.free (i + 1) (by omega) hlt, show d + (i + 1) = d + 1 + i by omega]
    · -- the freed cell is the last of the ring positions from `d + 1` on
      have hi' : i = 2 ^ k - 1 := by omega
      have hmask : bufferMask w k + 1#w = BitVec.ofNat w (2 ^ k) := by
        rw [bufferMask, BitVec.sub_add_cancel]
      rw [show d + 1 + i = d + 0 + 2 ^ k by omega, ringIndex_add_size]
      simp only [MpmcQueue.dequeued, MpmcQueue.setSequence_buffer, hidx, Function.update_self]
      rw [BitVec.add_assoc, hmask, h.dequeuePos, Nat.add_zero, BitVec.ofNat_add]

/-! ## What one undisturbed call does -/

section Solo

variable {q q' : MpmcQueue w k T} {f : Bounded T (2 ^ k)} {d : ℕ}

/-- Where an undisturbed `enqueue(data)` on `q` can be, when `q` stores `f`. -/
def EnqSolo (q : MpmcQueue w k T) (f : Bounded T (2 ^ k)) (data : T) :
    MpmcQueue w k T × EnqPc w → Prop
  | (q₁, .loadPos) => q₁ = q
  | (q₁, .loadSeq pos) => pos = q.enqueuePos ∧ q₁ = q
  | (q₁, .cas pos) => pos = q.enqueuePos ∧ f.elems.length < 2 ^ k ∧ q₁ = q
  | (q₁, .copy pos) => pos = q.enqueuePos ∧ f.elems.length < 2 ^ k ∧
      q₁ = { q with enqueuePos := pos + 1#w }
  | (q₁, .store pos) => pos = q.enqueuePos ∧ f.elems.length < 2 ^ k ∧
      q₁ = ({ q with enqueuePos := pos + 1#w }).setData (cellIndex pos) data
  | (q₁, .returned _ result) =>
      (result = true ∧ f.elems.length < 2 ^ k ∧ q₁ = q.enqueued data) ∨
        (result = false ∧ ¬ f.elems.length < 2 ^ k ∧ q₁ = q)

/-- Every step of an undisturbed `enqueue` keeps to `EnqSolo`. -/
theorem EnqSolo.step (h : Represents q f d) (hk : 1 ≤ k) (hkw : k < w) {data : T}
    {c c' : MpmcQueue w k T × EnqPc w} (hc : EnqSolo q f data c) (hs : EnqStepRel data c c') :
    EnqSolo q f data c' := by
  obtain ⟨q₁, pc⟩ := c
  obtain ⟨spurious, rfl⟩ := hs
  have hdif := h.enqueue_dif hk hkw
  cases pc with
  | loadPos =>
    obtain rfl : q₁ = q := hc
    exact ⟨rfl, rfl⟩
  | loadSeq pos =>
    obtain ⟨rfl, rfl⟩ := hc
    by_cases hlt : f.elems.length < 2 ^ k
    · rw [enqStep_loadSeq_ready (hdif.1 hlt)]
      exact ⟨rfl, hlt, rfl⟩
    · rw [enqStep_loadSeq_full (hdif.2 hlt).1 (hdif.2 hlt).2]
      exact Or.inr ⟨rfl, hlt, rfl⟩
  | cas pos =>
    obtain ⟨rfl, hlt, rfl⟩ := hc
    cases spurious with
    | false =>
      rw [enqStep_cas]
      exact ⟨rfl, hlt, rfl⟩
    | true =>
      rw [enqStep_cas_spurious]
      exact ⟨rfl, rfl⟩
  | copy pos =>
    obtain ⟨rfl, hlt, rfl⟩ := hc
    exact ⟨rfl, hlt, rfl⟩
  | store pos =>
    obtain ⟨rfl, hlt, rfl⟩ := hc
    exact Or.inl ⟨rfl, hlt, rfl⟩
  | returned pos result => exact hc

/-- What an undisturbed `enqueue` can do: it stores `data` and returns `true` when there is room,
and otherwise it returns `false` and leaves the queue as it was. -/
theorem enqueueCompletes_iff (h : Represents q f d) (hk : 1 ≤ k) (hkw : k < w) {data : T}
    {result : Bool} : EnqueueCompletes q data result q' ↔
      (result = true ∧ f.elems.length < 2 ^ k ∧ q' = q.enqueued data) ∨
        (result = false ∧ ¬ f.elems.length < 2 ^ k ∧ q' = q) := by
  constructor
  · rintro ⟨pos, hpath⟩
    have hsolo : ∀ c, Relation.ReflTransGen (EnqStepRel data) (q, .loadPos) c →
        EnqSolo q f data c := by
      intro c hc
      induction hc with
      | refl => rfl
      | tail _ hs ih => exact ih.step h hk hkw hs
    exact hsolo _ hpath
  · have hdif := h.enqueue_dif hk hkw
    have hload : EnqStepRel data (q, .loadPos) (q, .loadSeq q.enqueuePos) := ⟨false, rfl⟩
    rintro (⟨rfl, hlt, rfl⟩ | ⟨rfl, hlt, rfl⟩)
    · have hseq : EnqStepRel data (q, .loadSeq q.enqueuePos) (q, .cas q.enqueuePos) :=
        ⟨false, enqStep_loadSeq_ready (hdif.1 hlt)⟩
      have hcas : EnqStepRel data (q, .cas q.enqueuePos) _ := ⟨false, enqStep_cas⟩
      have hcopy : EnqStepRel data
          ({ q with enqueuePos := q.enqueuePos + 1#w }, .copy q.enqueuePos)
          (({ q with enqueuePos := q.enqueuePos + 1#w }).setData (cellIndex q.enqueuePos) data,
            .store q.enqueuePos) := ⟨false, rfl⟩
      exact ⟨q.enqueuePos, .head hload (.head hseq (.head hcas (.head hcopy
        (.single ⟨false, rfl⟩))))⟩
    · exact ⟨q'.enqueuePos, .head hload
        (.single ⟨false, enqStep_loadSeq_full (hdif.2 hlt).1 (hdif.2 hlt).2⟩)⟩

/-- Where an undisturbed `dequeue` on `q` can be, when `q` stores `f`. -/
def DeqSolo (q : MpmcQueue w k T) (f : Bounded T (2 ^ k)) : MpmcQueue w k T × DeqPc w T → Prop
  | (q₁, .loadPos) => q₁ = q
  | (q₁, .loadSeq pos) => pos = q.dequeuePos ∧ q₁ = q
  | (q₁, .cas pos) => pos = q.dequeuePos ∧ f.elems ≠ [] ∧ q₁ = q
  | (q₁, .copy pos) => pos = q.dequeuePos ∧ f.elems ≠ [] ∧
      q₁ = { q with dequeuePos := pos + 1#w }
  | (q₁, .store pos data) => pos = q.dequeuePos ∧ f.elems.head? = some data ∧
      q₁ = { q with dequeuePos := pos + 1#w }
  | (q₁, .returned _ result) =>
      (∃ data, result = some data ∧ f.elems.head? = some data ∧ q₁ = q.dequeued) ∨
        (result = none ∧ f.elems = [] ∧ q₁ = q)

/-- Every step of an undisturbed `dequeue` keeps to `DeqSolo`. -/
theorem DeqSolo.step (h : Represents q f d) (hk : 1 ≤ k) (hkw : k < w)
    {c c' : MpmcQueue w k T × DeqPc w T} (hc : DeqSolo q f c) (hs : DeqStepRel c c') :
    DeqSolo q f c' := by
  obtain ⟨q₁, pc⟩ := c
  obtain ⟨spurious, rfl⟩ := hs
  have hdif := h.dequeue_dif hk hkw
  cases pc with
  | loadPos =>
    obtain rfl : q₁ = q := hc
    exact ⟨rfl, rfl⟩
  | loadSeq pos =>
    obtain ⟨rfl, rfl⟩ := hc
    by_cases hnil : f.elems = []
    · rw [deqStep_loadSeq_empty (hdif.2 hnil).1 (hdif.2 hnil).2]
      exact Or.inr ⟨rfl, hnil, rfl⟩
    · rw [deqStep_loadSeq_ready (hdif.1 hnil)]
      exact ⟨rfl, hnil, rfl⟩
  | cas pos =>
    obtain ⟨rfl, hne, rfl⟩ := hc
    cases spurious with
    | false =>
      rw [deqStep_cas]
      exact ⟨rfl, hne, rfl⟩
    | true =>
      rw [deqStep_cas_spurious]
      exact ⟨rfl, rfl⟩
  | copy pos =>
    obtain ⟨rfl, hne, rfl⟩ := hc
    obtain ⟨x, xs, hx⟩ := List.exists_cons_of_ne_nil hne
    exact ⟨rfl, by simp [hx, h.data_eq_head hkw hx], rfl⟩
  | store pos data =>
    obtain ⟨rfl, hhead, rfl⟩ := hc
    exact Or.inl ⟨data, rfl, hhead, rfl⟩
  | returned pos result => exact hc

/-- What an undisturbed `dequeue` can do: it yields the oldest element and removes it when there is
one, and otherwise it returns `false` and leaves the queue as it was. -/
theorem dequeueCompletes_iff (h : Represents q f d) (hk : 1 ≤ k) (hkw : k < w)
    {result : Option T} : DequeueCompletes q result q' ↔
      (∃ data, result = some data ∧ f.elems.head? = some data ∧ q' = q.dequeued) ∨
        (result = none ∧ f.elems = [] ∧ q' = q) := by
  constructor
  · rintro ⟨pos, hpath⟩
    have hsolo : ∀ c, Relation.ReflTransGen DeqStepRel (q, .loadPos) c → DeqSolo q f c := by
      intro c hc
      induction hc with
      | refl => rfl
      | tail _ hs ih => exact ih.step h hk hkw hs
    exact hsolo _ hpath
  · have hdif := h.dequeue_dif hk hkw
    have hload : DeqStepRel (q, .loadPos) (q, .loadSeq q.dequeuePos) := ⟨false, rfl⟩
    rintro (⟨data, rfl, hhead, rfl⟩ | ⟨rfl, hnil, rfl⟩)
    · obtain ⟨xs, hx⟩ : ∃ xs, f.elems = data :: xs := List.head?_eq_some_iff.mp hhead
      have hseq : DeqStepRel (q, .loadSeq q.dequeuePos) (q, .cas q.dequeuePos) :=
        ⟨false, deqStep_loadSeq_ready (hdif.1 (by simp [hx]))⟩
      have hcas : DeqStepRel (q, .cas q.dequeuePos) _ := ⟨false, deqStep_cas⟩
      have hcopy : DeqStepRel ({ q with dequeuePos := q.dequeuePos + 1#w }, .copy q.dequeuePos)
          ({ q with dequeuePos := q.dequeuePos + 1#w }, .store q.dequeuePos data) :=
        ⟨false, by simp only [deqStep, h.data_eq_head hkw hx]⟩
      exact ⟨q.dequeuePos, .head hload (.head hseq (.head hcas (.head hcopy
        (.single ⟨false, rfl⟩))))⟩
    · exact ⟨q'.dequeuePos, .head hload
        (.single ⟨false, deqStep_loadSeq_empty (hdif.2 hnil).1 (hdif.2 hnil).2⟩)⟩

end Solo

/-! ## Sequential runs -/

variable [Inhabited T] [DecidableEq T]

/-- The state after a sequential run represents what the abstract queue stores after the same
operations, and the abstract queue accepts every answer given. -/
theorem SequentialRun.represents (hk : 1 ≤ k) (hkw : k < w) {es : List (Event T)}
    {q : MpmcQueue w k T} (h : SequentialRun es q) :
    ∃ (f : Bounded T (2 ^ k)) (d : ℕ), Bounded.empty.run es = some f ∧ Represents q f d := by
  induction h with
  | init => exact ⟨_, 0, rfl, represents_init⟩
  | enqueue _ hc ih =>
    obtain ⟨f, d, hrun, hrep⟩ := ih
    simp only [Bounded.run_append_singleton, hrun, Option.bind_some]
    rcases (enqueueCompletes_iff hrep hk hkw).mp hc with ⟨rfl, hlt, rfl⟩ | ⟨rfl, hlt, rfl⟩
    · exact ⟨_, d, f.accept_enqueued_true _ hlt, hrep.enqueued hkw _ hlt⟩
    · exact ⟨f, d, f.accept_enqueued_false _ hlt, hrep⟩
  | dequeue _ hc ih =>
    obtain ⟨f, d, hrun, hrep⟩ := ih
    simp only [Bounded.run_append_singleton, hrun, Option.bind_some]
    rcases (dequeueCompletes_iff hrep hk hkw).mp hc with
      ⟨data, rfl, hhead, rfl⟩ | ⟨rfl, hnil, rfl⟩
    · obtain ⟨xs, hx⟩ := List.head?_eq_some_iff.mp hhead
      exact ⟨_, _, Bounded.accept_dequeued_some hx, hrep.dequeued hkw (by simp [hx])⟩
    · exact ⟨f, d, Bounded.accept_dequeued_none hnil, hrep⟩

/-- Every list of answers that the abstract queue accepts is that of some sequential run. -/
theorem exists_sequentialRun (hk : 1 ≤ k) (hkw : k < w) {es : List (Event T)} :
    ∀ {f : Bounded T (2 ^ k)}, Bounded.empty.run es = some f →
      ∃ q : MpmcQueue w k T, SequentialRun es q := by
  induction es using List.reverseRecOn with
  | nil => exact fun _ => ⟨_, .init⟩
  | append_singleton es e ih =>
    intro f' hrun
    rw [Bounded.run_append_singleton, Option.bind_eq_some_iff] at hrun
    obtain ⟨f, hes, hacc⟩ := hrun
    obtain ⟨q, hq⟩ := ih hes
    obtain ⟨g, d, hg, hrep⟩ := hq.represents hk hkw
    obtain rfl : f = g := by simpa [hes] using hg
    rcases e with ⟨data, _ | _⟩ | (_ | data)
    · have hfull := Bounded.full_of_accept hacc
      exact ⟨_, .enqueue hq ((enqueueCompletes_iff hrep hk hkw).mpr (.inr ⟨rfl, hfull, rfl⟩))⟩
    · have hroom := Bounded.room_of_accept hacc
      exact ⟨_, .enqueue hq ((enqueueCompletes_iff hrep hk hkw).mpr (.inl ⟨rfl, hroom, rfl⟩))⟩
    · have hnil := Bounded.nil_of_accept hacc
      exact ⟨_, .dequeue hq ((dequeueCompletes_iff hrep hk hkw).mpr (.inr ⟨rfl, hnil, rfl⟩))⟩
    · have hhead := Bounded.head_of_accept hacc
      exact ⟨_, .dequeue hq
        ((dequeueCompletes_iff hrep hk hkw).mpr (.inl ⟨data, rfl, hhead, rfl⟩))⟩

/-- `mpmc_queue` without overlapping calls refines the bounded FIFO, however long the run and
however often its positions and sequence numbers have wrapped. The abstract queue accepts every
completed call, in order, with the answer it gave; and the next call, whichever it is, completes,
answers as the abstract queue answers, and changes nothing when it returns `false`. -/
theorem sequentialRun_refines_fifo (hk : 1 ≤ k) (hkw : k < w) {es : List (Event T)}
    {q : MpmcQueue w k T} (h : SequentialRun es q) :
    ∃ f : Bounded T (2 ^ k), Bounded.empty.run es = some f ∧
      (∀ data, ∃ result q', EnqueueCompletes q data result q') ∧
      (∃ result q', DequeueCompletes q result q') ∧
      (∀ data result q', EnqueueCompletes q data result q' →
        (result = true ↔ f.elems.length < 2 ^ k) ∧ (result = false → q' = q)) ∧
      (∀ result q', DequeueCompletes q result q' →
        (result.isSome ↔ 1 ≤ f.elems.length) ∧ result = f.elems.head? ∧
          (result = none → q' = q)) := by
  obtain ⟨f, d, hrun, hrep⟩ := h.represents hk hkw
  refine ⟨f, hrun, fun data => ?_, ?_, fun data result q' hc => ?_, fun result q' hc => ?_⟩
  · by_cases hlt : f.elems.length < 2 ^ k
    · exact ⟨_, _, (enqueueCompletes_iff hrep hk hkw).mpr (.inl ⟨rfl, hlt, rfl⟩)⟩
    · exact ⟨_, _, (enqueueCompletes_iff hrep hk hkw).mpr (.inr ⟨rfl, hlt, rfl⟩)⟩
  · cases hf : f.elems with
    | nil => exact ⟨_, _, (dequeueCompletes_iff hrep hk hkw).mpr (.inr ⟨rfl, hf, rfl⟩)⟩
    | cons x xs =>
      exact ⟨_, _, (dequeueCompletes_iff hrep hk hkw).mpr (.inl ⟨x, rfl, by simp [hf], rfl⟩)⟩
  · rcases (enqueueCompletes_iff hrep hk hkw).mp hc with ⟨rfl, hlt, rfl⟩ | ⟨rfl, hlt, rfl⟩
    · simp [hlt]
    · simpa using hlt
  · rcases (dequeueCompletes_iff hrep hk hkw).mp hc with
      ⟨data, rfl, hhead, rfl⟩ | ⟨rfl, hnil, rfl⟩
    · obtain ⟨xs, hx⟩ := List.head?_eq_some_iff.mp hhead
      simp [hx]
    · simp [hnil]

/-- A two-cell queue over two-bit words, filled and emptied until every position has wrapped. -/
def wrappingCalls : List (Event Bool) :=
  [.enqueued true true, .enqueued false true, .enqueued true false, .dequeued (some true),
    .enqueued true true, .dequeued (some false), .dequeued (some true), .dequeued none,
    .enqueued false true, .enqueued true true, .enqueued true false, .dequeued (some false)]

/-- After those calls the queue stores one element. -/
theorem sequentialRun_refines_fifo_wrapping :
    ∃ q : MpmcQueue 2 1 Bool, SequentialRun wrappingCalls q ∧
      ∃ f : Bounded Bool (2 ^ 1), Bounded.empty.run wrappingCalls = some f ∧
        ∀ result q', DequeueCompletes q result q' →
          (result.isSome ↔ 1 ≤ f.elems.length) ∧ result = f.elems.head? ∧
            (result = none → q' = q) := by
  have hcalls : (Bounded.empty : Bounded Bool (2 ^ 1)).run wrappingCalls =
      some ⟨[true], by decide⟩ := rfl
  obtain ⟨q, hq⟩ := exists_sequentialRun (w := 2) (by decide) (by decide) hcalls
  obtain ⟨f, hrun, -, -, -, hdeq⟩ := sequentialRun_refines_fifo (by decide) (by decide) hq
  exact ⟨q, hq, f, hrun, hdeq⟩

end NomadTasks
