import Mathlib.Logic.Relation
import NomadTasks.Counter.Registration
import NomadTasks.Waiting.Room

/-!
# `BaseCounter` without overlapping calls

The calls of a counter, one after the other: a call that runs without steps of other calls is a
path of `CounterCall.next` to its end. Such a counter refines a waiting room (`Waiting.Room`) with
as many places as it has slots: `AddWaitingFiber` takes the first free slot, or finds the value
there, or throws, as asking for a place in the room does; `Increment` and `Decrement`, by any
amounts and however often the value wraps, push the fibers that the room lets leave, in the order of
the slots.
-/

namespace NomadTasks

open Waiting

/-- A counter, one call on it, and what the call has pushed so far. -/
structure SoloState where
  ctr : BaseCounter
  call : CounterCall
  pushed : List ReadyFiber

/-- One step of an undisturbed call. -/
def soloStep (c : SoloState) : Option SoloState :=
  (c.call.next c.ctr).map fun (eff, call) => ⟨c.ctr.apply eff, call, c.pushed ++ eff.pushes⟩

/-- A path of undisturbed steps. -/
def SoloPath : SoloState → SoloState → Prop :=
  Relation.ReflTransGen fun c c' => soloStep c = some c'

/-- The call, made on `b` and run alone, ends in `c`. -/
def Completes (b : BaseCounter) (call : CounterCall) (c : SoloState) : Prop :=
  SoloPath ⟨b, call, []⟩ c ∧ c.call.inProgress = false

/-- What an `AddWaitingFiber` that has ended tells its caller. -/
def CounterCall.answer : CounterCall → Option Answer
  | .addWaiting _ (.returned true) => some .met
  | .addWaiting _ (.returned false) => some .waits
  | .addWaiting _ .threw => some .refused
  | _ => none

/-- A list of completed calls, oldest first, that leads from construction to `b`. -/
inductive SequentialCalls (n : ℕ) : List (Event CounterUnit ReadyFiber) → BaseCounter → Prop
  | init : SequentialCalls n [] (.construct n)
  | addWaiting {es : List (Event CounterUnit ReadyFiber)} {b : BaseCounter} {reg : Registration}
      {c : SoloState} {answer : Answer} (hr : SequentialCalls n es b)
      (hc : Completes b (.addWaiting reg (.casFree 0)) c) (hanswer : c.call.answer = some answer) :
      SequentialCalls n (es ++ [.asked reg.targetValue reg.entry answer]) c.ctr
  | modify {es : List (Event CounterUnit ReadyFiber)} {b : BaseCounter} {op : Modifier}
      {c : SoloState} {prev : CounterUnit} (hr : SequentialCalls n es b)
      (hc : Completes b (.modify op .fetch) c) (hret : c.call = .modify op (.returned prev)) :
      SequentialCalls n (es ++ [.changed prev (op.value prev) c.pushed]) c.ctr

/-! ## What the slots say about the places -/

/-- Slot `i` is free as the place is empty, or holds the waiter of the place. -/
def SlotHolds (b : BaseCounter) (i : ℕ) : Option (CounterUnit × ReadyFiber) → Prop
  | none => b.freeWaitingSlots i = true
  | some (target, entry) => b.freeWaitingSlots i = false ∧ (b.waitingFibers i).inUse = false ∧
      (b.waitingFibers i).targetValue = target ∧ (b.waitingFibers i).entry = entry

/-- The counter's value and slots are those of the room. -/
structure BaseCounter.Represents (b : BaseCounter) (r : Room CounterUnit ReadyFiber) : Prop where
  value : b.counter = r.value
  length : b.numWaitingFibers = r.places.length
  places : ∀ i p, r.places[i]? = some p → SlotHolds b i p

/-- Slots that are the same hold the same. -/
theorem SlotHolds.congr {b b' : BaseCounter} {i : ℕ} {p : Option (CounterUnit × ReadyFiber)}
    (h : SlotHolds b i p) (hfree : b'.freeWaitingSlots i = b.freeWaitingSlots i)
    (hslot : b'.waitingFibers i = b.waitingFibers i) : SlotHolds b' i p := by
  cases p with
  | none => exact hfree.trans h
  | some p =>
    unfold SlotHolds at h ⊢
    rwa [hfree, hslot]

namespace BaseCounter

/-- Construction leaves the empty room. -/
theorem represents_construct (n : ℕ) : (construct n).Represents (Room.empty 0 n) where
  value := rfl
  length := (List.length_replicate ..).symm
  places i p hp := by
    obtain ⟨-, rfl⟩ : i < n ∧ none = p := by simpa [Room.empty, List.getElem?_replicate] using hp
    rfl

/-- One slot changes, and with it one place. -/
theorem Represents.set {b b' : BaseCounter} {v : CounterUnit}
    {pre suf : List (Option (CounterUnit × ReadyFiber))} {p p' : Option (CounterUnit × ReadyFiber)}
    (h : b.Represents ⟨v, pre ++ p :: suf⟩) (hctr : b'.counter = b.counter)
    (hnum : b'.numWaitingFibers = b.numWaitingFibers)
    (hother : ∀ j, j ≠ pre.length → b'.freeWaitingSlots j = b.freeWaitingSlots j ∧
      b'.waitingFibers j = b.waitingFibers j)
    (hslot : SlotHolds b' pre.length p') : b'.Represents ⟨v, pre ++ p' :: suf⟩ where
  value := hctr.trans h.value
  length := by
    rw [hnum, h.length]
    simp
  places j q hq := by
    by_cases hj : j = pre.length
    · subst hj
      obtain rfl : p' = q := by simpa using hq
      exact hslot
    · have hq' : (pre ++ p :: suf)[j]? = some q := by
        rw [← hq]
        simp only [List.getElem?_append, List.getElem?_cons]
        split
        · rfl
        · rw [if_neg (by omega), if_neg (by omega)]
      exact (h.places j q hq').congr (hother j hj).1 (hother j hj).2

end BaseCounter

/-! ## Steps of an undisturbed call -/

section Steps

variable {b : BaseCounter} {reg : Registration} {out : List ReadyFiber} {eff : Effect}
  {c c' : SoloState}

theorem SoloPath.trans {c'' : SoloState} (h : SoloPath c c') (h' : SoloPath c' c'') :
    SoloPath c c'' := Relation.ReflTransGen.trans h h'

/-- A step of `AddWaitingFiber`, before the rest of a path. -/
theorem SoloPath.add {pc pc' : AddPc} (hn : pc.next b reg = some (eff, pc'))
    (h : SoloPath ⟨b.apply eff, .addWaiting reg pc', out ++ eff.pushes⟩ c) :
    SoloPath ⟨b, .addWaiting reg pc, out⟩ c :=
  .head (by simp [soloStep, CounterCall.next, hn]) h

/-- A step of `CheckWaitingFibers`, before the rest of a path. -/
theorem SoloPath.scan {op : Modifier} {prev value : CounterUnit} {pc pc' : ScanPc}
    (hn : pc.next b value = some (eff, pc'))
    (h : SoloPath ⟨b.apply eff, .modify op (.check prev value pc'), out ++ eff.pushes⟩ c) :
    SoloPath ⟨b, .modify op (.check prev value pc), out⟩ c :=
  .head (by simp [soloStep, CounterCall.next, ModifyPc.next, hn]) h

/-- A call that runs alone has one outcome. -/
theorem Completes.unique {call : CounterCall} (h : Completes b call c) (h' : Completes b call c') :
    c = c' := by
  have hend : ∀ {c d : SoloState}, c.call.inProgress = false → SoloPath c d → c = d := by
    intro c d hc hpath
    rcases Relation.ReflTransGen.cases_head hpath with heq | ⟨e, hs, -⟩
    · exact heq
    · have hnone : c.call.next c.ctr = none := by
        revert hc
        cases c.call with
        | notStarted => exact fun _ => rfl
        | addWaiting reg pc =>
          cases pc <;> simp [CounterCall.inProgress, CounterCall.next, AddPc.next]
        | modify op pc =>
          cases pc <;> simp [CounterCall.inProgress, CounterCall.next, ModifyPc.next]
      rw [soloStep, hnone] at hs
      cases hs
  rcases Relation.ReflTransGen.total_of_right_unique
    (fun _ _ _ h h' => Option.some.inj (h.symm.trans h')) h.1 h'.1 with hp | hp
  · exact hend h.2 hp
  · exact (hend h'.2 hp).symm

theorem SoloPath.of_eq (h : c = c') : SoloPath c c' := h ▸ .refl

end Steps

/-! ## `AddWaitingFiber` -/

section AddWaiting

variable {b : BaseCounter} {reg : Registration} {v : CounterUnit}
  {pre mid suf : List (Option (CounterUnit × ReadyFiber))}

/-- The counter after the registration has been published in slot `i`. -/
def BaseCounter.publishedAt (b : BaseCounter) (i : ℕ) (reg : Registration) : BaseCounter :=
  (b.setFree i false).setSlot i
    { fiberIndex := reg.fiberIndex, fiberStored := reg.fiberStored,
      targetValue := reg.targetValue, inUse := false }

/-- The slots that are taken are passed over. -/
theorem SoloPath.skip_taken (reg : Registration) (h : b.Represents ⟨v, pre ++ mid ++ suf⟩)
    (hmid : ∀ p ∈ mid, p.isSome = true) :
    SoloPath ⟨b, .addWaiting reg (.casFree pre.length), []⟩
      ⟨b, .addWaiting reg (.casFree (pre ++ mid).length), []⟩ := by
  induction mid generalizing pre with
  | nil => exact .of_eq (by simp)
  | cons p mid ih =>
    have hlt : pre.length < b.numWaitingFibers := by
      rw [h.length]
      simp
    have hslot := h.places pre.length p (by simp)
    obtain ⟨p, rfl⟩ := Option.isSome_iff_exists.mp (hmid _ List.mem_cons_self)
    have h' : b.Represents ⟨v, pre ++ [some p] ++ mid ++ suf⟩ := by simpa using h
    have hnext := ih h' fun q hq => hmid q (List.mem_cons_of_mem _ hq)
    rw [List.length_append, List.length_singleton, List.append_assoc, List.singleton_append]
      at hnext
    have hskip : (AddPc.casFree pre.length).next b reg =
        some (.none, .casFree (pre.length + 1)) := by
      simp [AddPc.next, hlt, hslot.1]
    exact .add hskip hnext

/-- The first free slot is taken and published. -/
theorem SoloPath.register (reg : Registration) (h : b.Represents ⟨v, pre ++ none :: suf⟩) :
    SoloPath ⟨b, .addWaiting reg (.casFree pre.length), []⟩
      ⟨b.publishedAt pre.length reg, .addWaiting reg (.loadCounter pre.length), []⟩ := by
  have hlt : pre.length < b.numWaitingFibers := by
    rw [h.length]
    simp
  have hfree : b.freeWaitingSlots pre.length = true := h.places pre.length none (by simp)
  have hacquire : (AddPc.casFree pre.length).next b reg =
      some (.acquire pre.length, .setFiberIndex pre.length) := by
    simp [AddPc.next, hlt, hfree]
  refine .add hacquire (.add rfl (.add rfl (.add rfl (.add rfl (.of_eq ?_)))))
  simp [BaseCounter.apply, BaseCounter.setSlot, BaseCounter.setFree, BaseCounter.publishedAt,
    Effect.pushes]

/-- With its registration published, the call finds another value and leaves it there, or finds
the value there and takes it back. -/
theorem SoloPath.recheck (b : BaseCounter) (reg : Registration) (i : ℕ) :
    ∃ c, SoloPath ⟨b.publishedAt i reg, .addWaiting reg (.loadCounter i), []⟩ c ∧ c.pushed = [] ∧
      ((reg.targetValue ≠ b.counter ∧ c.call = .addWaiting reg (.returned false) ∧
          c.ctr = b.publishedAt i reg) ∨
        (reg.targetValue = b.counter ∧ c.call = .addWaiting reg (.returned true) ∧
          c.ctr = ((b.publishedAt i reg).apply (.claim i)).apply (.release i))) := by
  have huse : ((b.publishedAt i reg).waitingFibers i).inUse = false := by
    simp [BaseCounter.publishedAt, BaseCounter.setSlot]
  have htarget : ((b.publishedAt i reg).waitingFibers i).targetValue = reg.targetValue := by
    simp [BaseCounter.publishedAt, BaseCounter.setSlot]
  have hload : (AddPc.loadInUse i b.counter).next (b.publishedAt i reg) reg =
      some (.none, .compareTarget i b.counter) := by
    simp [AddPc.next, huse]
  by_cases hval : reg.targetValue = b.counter
  · have hcmp : (AddPc.compareTarget i b.counter).next (b.publishedAt i reg) reg =
        some (.none, .casInUse i) := by
      simp [AddPc.next, htarget, hval]
    have hcas : (AddPc.casInUse i).next (b.publishedAt i reg) reg =
        some (.claim i, .release i) := by
      simp [AddPc.next, huse]
    exact ⟨_, .add rfl (.add hload (.add hcmp (.add hcas (.add rfl .refl)))), rfl,
      .inr ⟨hval, rfl, rfl⟩⟩
  · have hcmp : (AddPc.compareTarget i b.counter).next (b.publishedAt i reg) reg =
        some (.none, .returned false) := by
      simp [AddPc.next, htarget, hval]
    exact ⟨_, .add rfl (.add hload (.add hcmp .refl)), rfl, .inl ⟨hval, rfl, rfl⟩⟩

/-- An undisturbed `AddWaitingFiber` does what asking for admission to the room does. -/
theorem addWaiting_outcome {r : Room CounterUnit ReadyFiber} (h : b.Represents r)
    (reg : Registration) :
    ∃ c, Completes b (.addWaiting reg (.casFree 0)) c ∧ c.pushed = [] ∧
      c.call.answer = some (r.ask reg.targetValue reg.entry).1 ∧
      c.ctr.Represents (r.ask reg.targetValue reg.entry).2 := by
  obtain ⟨v, places⟩ := r
  cases hfill : fill (reg.targetValue, reg.entry) places with
  | none =>
    rw [Room.ask_refused hfill]
    -- every slot is taken
    have h' : b.Represents ⟨v, [] ++ places ++ []⟩ := by simpa using h
    have hskip := SoloPath.skip_taken reg h' (fill_eq_none hfill)
    have hend : (AddPc.casFree places.length).next b reg = some (.none, .threw) := by
      simp [AddPc.next, h.length]
    exact ⟨_, ⟨hskip.trans (.add hend .refl), rfl⟩, rfl, rfl, h⟩
  | some places' =>
    obtain rfl : b.counter = v := h.value
    obtain ⟨pre, suf, rfl, rfl, hpre⟩ := fill_eq_some hfill
    have h' : b.Represents ⟨b.counter, [] ++ pre ++ none :: suf⟩ := by simpa using h
    have hskip := SoloPath.skip_taken reg h' hpre
    obtain ⟨c, hpath, hpushed, hcase⟩ := SoloPath.recheck b reg pre.length
    have hall := hskip.trans ((SoloPath.register reg h).trans hpath)
    rcases hcase with ⟨hne, hcall, hctr⟩ | ⟨heq, hcall, hctr⟩
    · rw [Room.ask_waits hfill hne]
      refine ⟨c, ⟨hall, by rw [hcall]; rfl⟩, hpushed, by rw [hcall]; rfl, ?_⟩
      rw [hctr]
      refine h.set rfl rfl (fun j hj => ?_) ?_
      · simp [BaseCounter.publishedAt, BaseCounter.setSlot, BaseCounter.setFree, hj]
      · simp [SlotHolds, BaseCounter.publishedAt, BaseCounter.setSlot, BaseCounter.setFree,
          WaitingFibers.entry, Registration.entry]
    · rw [Room.ask_met hfill heq]
      refine ⟨c, ⟨hall, by rw [hcall]; rfl⟩, hpushed, by rw [hcall]; rfl, ?_⟩
      rw [hctr]
      refine h.set rfl rfl (fun j hj => ?_) ?_
      · simp [BaseCounter.publishedAt, BaseCounter.apply, BaseCounter.setSlot,
          BaseCounter.setFree, hj]
      · simp [SlotHolds, BaseCounter.apply, BaseCounter.setFree]

end AddWaiting

/-! ## `Increment` and `Decrement` -/

section Modify

variable {b : BaseCounter} {op : Modifier} {prev v : CounterUnit} {out : List ReadyFiber}
  {pre suf : List (Option (CounterUnit × ReadyFiber))} {p : Option (CounterUnit × ReadyFiber)}

/-- The scan lets the fiber of one slot go, if it waits for the value, and passes on. -/
theorem SoloPath.scan_slot (op : Modifier) (prev : CounterUnit) (out : List ReadyFiber)
    (h : b.Represents ⟨v, pre ++ p :: suf⟩) :
    ∃ b', SoloPath ⟨b, .modify op (.check prev v (.loadFree pre.length)), out⟩
        ⟨b', .modify op (.check prev v (.loadFree (pre.length + 1))),
          out ++ (waiterFor v p).toList⟩ ∧
      b'.Represents ⟨v, pre ++ vacate v p :: suf⟩ := by
  have hlt : pre.length < b.numWaitingFibers := by
    rw [h.length]
    simp
  have hslot := h.places pre.length p (by simp)
  cases p with
  | none =>
    have hfree : b.freeWaitingSlots pre.length = true := hslot
    have hload : (ScanPc.loadFree pre.length).next b v =
        some (.none, .loadFree (pre.length + 1)) := by
      simp [ScanPc.next, hlt, hfree]
    exact ⟨b, .scan hload (.of_eq (by simp [waiterFor, Effect.pushes])), h⟩
  | some p =>
    obtain ⟨target, entry⟩ := p
    obtain ⟨hfree, huse, htarget, hentry⟩ := hslot
    have hload : (ScanPc.loadFree pre.length).next b v = some (.none, .loadInUse pre.length) := by
      simp [ScanPc.next, hlt, hfree]
    have hin : (ScanPc.loadInUse pre.length).next b v =
        some (.none, .compareTarget pre.length) := by
      simp [ScanPc.next, huse]
    by_cases hv : target = v
    · have hcmp : (ScanPc.compareTarget pre.length).next b v =
          some (.none, .casInUse pre.length) := by
        simp [ScanPc.next, htarget, hv]
      have hcas : (ScanPc.casInUse pre.length).next b v =
          some (.claim pre.length, .loadFiberIndex pre.length) := by
        simp [ScanPc.next, huse]
      refine ⟨(b.apply (.claim pre.length)).apply (.release pre.length),
        .scan hload (.scan hin (.scan hcmp (.scan hcas (.scan rfl (.scan rfl (.scan rfl
          (.of_eq ?_))))))), h.set rfl rfl (fun j hj => ?_) ?_⟩
      · simp [BaseCounter.apply, BaseCounter.setSlot, Effect.pushes, waiterFor, hv, ← hentry,
          WaitingFibers.entry]
      · simp [BaseCounter.apply, BaseCounter.setSlot, BaseCounter.setFree, hj]
      · simp [SlotHolds, vacate, hv, BaseCounter.apply, BaseCounter.setFree]
    · have hcmp : (ScanPc.compareTarget pre.length).next b v =
          some (.none, .loadFree (pre.length + 1)) := by
        simp [ScanPc.next, htarget, hv]
      refine ⟨b, .scan hload (.scan hin (.scan hcmp (.of_eq ?_))), ?_⟩
      · simp [waiterFor, Effect.pushes, hv]
      · simpa [vacate, hv] using h

/-- The scan goes through the slots in order. -/
theorem SoloPath.scan_from (op : Modifier) (prev : CounterUnit) (out : List ReadyFiber)
    (h : b.Represents ⟨v, pre ++ suf⟩) :
    ∃ b', SoloPath ⟨b, .modify op (.check prev v (.loadFree pre.length)), out⟩
        ⟨b', .modify op (.check prev v (.loadFree (pre ++ suf).length)),
          out ++ suf.filterMap (waiterFor v)⟩ ∧
      b'.Represents ⟨v, pre ++ suf.map (vacate v)⟩ := by
  induction suf generalizing b pre out with
  | nil => exact ⟨b, .of_eq (by simp), by simpa using h⟩
  | cons p suf ih =>
    obtain ⟨b₁, hpath₁, h₁⟩ := SoloPath.scan_slot op prev out h
    have h₁' : b₁.Represents ⟨v, pre ++ [vacate v p] ++ suf⟩ := by simpa using h₁
    obtain ⟨b₂, hpath₂, h₂⟩ := ih (out ++ (waiterFor v p).toList) h₁'
    refine ⟨b₂, hpath₁.trans ?_, by simpa using h₂⟩
    cases hw : waiterFor v p <;> simpa [hw, Nat.add_assoc, Nat.add_comm] using hpath₂

/-- A scan that is done returns. -/
theorem SoloPath.return_prev : SoloPath ⟨b, .modify op (.check prev v .done), out⟩
    ⟨b, .modify op (.returned prev), out⟩ :=
  .single (by simp [soloStep, CounterCall.next, ModifyPc.next, ScanPc.next, Effect.pushes])

/-- An undisturbed `Increment` or `Decrement` does what changing the value of the room does. -/
theorem modify_outcome {r : Room CounterUnit ReadyFiber} (h : b.Represents r) (op : Modifier) :
    ∃ c, Completes b (.modify op .fetch) c ∧ c.call = .modify op (.returned r.value) ∧
      c.pushed = (r.change (op.value r.value)).1 ∧
      c.ctr.Represents (r.change (op.value r.value)).2 := by
  obtain ⟨v, places⟩ := r
  obtain rfl : b.counter = v := h.value
  have hfetch : (b.apply (.fetch (op.value b.counter))).Represents
      ⟨op.value b.counter, [] ++ places⟩ :=
    ⟨rfl, h.length, fun i p hp => (h.places i p hp).congr rfl rfl⟩
  obtain ⟨b', hpath, h'⟩ := SoloPath.scan_from op b.counter [] hfetch
  have hend : (ScanPc.loadFree places.length).next b' (op.value b.counter) =
      some (.none, .done) := by
    have hlen := h'.length
    simp only [List.nil_append, List.length_map] at hlen
    simp [ScanPc.next, hlen]
  have hret : SoloPath ⟨b', .modify op (.check b.counter (op.value b.counter) .done),
      [] ++ places.filterMap (waiterFor (op.value b.counter)) ++ Effect.none.pushes⟩
      ⟨b', .modify op (.returned b.counter),
        places.filterMap (waiterFor (op.value b.counter))⟩ := by
    simpa [Effect.pushes] using SoloPath.return_prev
  exact ⟨_, ⟨.head rfl (hpath.trans (.scan hend hret)), rfl⟩, rfl, rfl, h'⟩

end Modify

/-! ## Sequential runs -/

/-- The counter after completed calls represents what the room holds after the same operations, and
the room accepts every answer given; nobody in it waits for the value that is there. -/
theorem SequentialCalls.represents {n : ℕ} {es : List (Event CounterUnit ReadyFiber)}
    {b : BaseCounter} (h : SequentialCalls n es b) :
    ∃ r, (Room.empty 0 n).run es = some r ∧ b.Represents r ∧ r.Settled := by
  induction h with
  | init => exact ⟨_, rfl, BaseCounter.represents_construct n, Room.settled_empty 0 n⟩
  | @addWaiting es b reg c answer _ hc hanswer ih =>
    obtain ⟨r, hrun, hrep, hset⟩ := ih
    obtain ⟨c', hc', -, hanswer', hrep'⟩ := addWaiting_outcome hrep reg
    obtain rfl := hc.unique hc'
    obtain rfl : (r.ask reg.targetValue reg.entry).1 = answer := by
      simpa [hanswer] using hanswer'.symm
    refine ⟨_, ?_, hrep', hset.ask _ _⟩
    rw [Room.run_append_singleton, hrun, Option.bind_some, Room.accept, if_pos rfl]
  | @modify es b op c prev _ hc hret ih =>
    obtain ⟨r, hrun, hrep, -⟩ := ih
    obtain ⟨c', hc', hret', hpushed, hrep'⟩ := modify_outcome hrep op
    obtain rfl := hc.unique hc'
    obtain rfl : r.value = prev := by simpa [hret] using hret'.symm
    refine ⟨_, ?_, hrep', Room.settled_change _ _⟩
    rw [Room.run_append_singleton, hrun, Option.bind_some, Room.accept, if_pos ⟨rfl, hpushed.symm⟩]

/-- `BaseCounter` without overlapping calls refines the waiting room, for every number of slots and
every sequence of calls, with any amounts, targets and wrap-arounds of the 32-bit value: the room
accepts every completed call with the answer it gave and the fibers it pushed, and nobody in it
waits for the value that is there. The next call, whichever it is, ends, and does to the room what
the room does: `AddWaitingFiber` answers as an admission and pushes nothing, and `Increment` and
`Decrement` return the value before and push the waiters for the value after, in the order of the
slots. -/
theorem sequentialCalls_refine_room {n : ℕ} {es : List (Event CounterUnit ReadyFiber)}
    {b : BaseCounter} (h : SequentialCalls n es b) :
    ∃ r, (Room.empty 0 n).run es = some r ∧ b.Represents r ∧ r.Settled ∧
      (∀ reg, ∃ c, Completes b (.addWaiting reg (.casFree 0)) c) ∧
      (∀ op, ∃ c, Completes b (.modify op .fetch) c) ∧
      (∀ reg c, Completes b (.addWaiting reg (.casFree 0)) c → c.pushed = [] ∧
        c.call.answer = some (r.ask reg.targetValue reg.entry).1 ∧
        c.ctr.Represents (r.ask reg.targetValue reg.entry).2) ∧
      (∀ op c, Completes b (.modify op .fetch) c → c.call = .modify op (.returned r.value) ∧
        c.pushed = (r.change (op.value r.value)).1 ∧
        c.ctr.Represents (r.change (op.value r.value)).2) := by
  obtain ⟨r, hrun, hrep, hset⟩ := h.represents
  refine ⟨r, hrun, hrep, hset, fun reg => ?_, fun op => ?_, fun reg c hc => ?_, fun op c hc => ?_⟩
  · obtain ⟨c, hc, -⟩ := addWaiting_outcome hrep reg
    exact ⟨c, hc⟩
  · obtain ⟨c, hc, -⟩ := modify_outcome hrep op
    exact ⟨c, hc⟩
  · obtain ⟨c', hc', hout⟩ := addWaiting_outcome hrep reg
    exact hc.unique hc' ▸ hout
  · obtain ⟨c', hc', hout⟩ := modify_outcome hrep op
    exact hc.unique hc' ▸ hout

/-- Every list of answers that the room accepts is that of some completed calls. -/
theorem exists_sequentialCalls {n : ℕ} {es : List (Event CounterUnit ReadyFiber)} :
    ∀ {r}, (Room.empty 0 n).run es = some r → ∃ b, SequentialCalls n es b := by
  induction es using List.reverseRecOn with
  | nil => exact fun _ => ⟨_, .init⟩
  | append_singleton es e ih =>
    intro r' hrun
    rw [Room.run_append_singleton, Option.bind_eq_some_iff] at hrun
    obtain ⟨r, hes, hacc⟩ := hrun
    obtain ⟨b, hb⟩ := ih hes
    obtain ⟨r₀, hr₀, hrep, -⟩ := hb.represents
    obtain rfl : r = r₀ := Option.some.inj (hes.symm.trans hr₀)
    cases e with
    | asked target who answer =>
      obtain ⟨hanswer, -⟩ := (Option.ite_none_right_eq_some).mp hacc
      obtain ⟨c, hc, -, hcall, -⟩ := addWaiting_outcome hrep ⟨who.1, target, who.2⟩
      exact ⟨c.ctr, .addWaiting hb hc (hcall.trans (congrArg some hanswer))⟩
    | changed before after woken =>
      obtain ⟨⟨rfl, rfl⟩, -⟩ := (Option.ite_none_right_eq_some).mp hacc
      obtain ⟨c, hc, hret, hpushed, -⟩ := modify_outcome hrep (.increment (after - r.value))
      have hafter : (Modifier.increment (after - r.value)).value r.value = after := by
        simp [Modifier.value]
      rw [hafter] at hpushed
      have hcalls := SequentialCalls.modify hb hc hret
      rw [hafter, hpushed] at hcalls
      exact ⟨c.ctr, hcalls⟩

/-- A `TinyCounter` that wraps below zero while a fiber waits for the value before, refuses another
fiber, and lets the first one go. -/
def wrappingWait : List (Event CounterUnit ReadyFiber) :=
  [.asked 0 (7, 1) .met, .changed 0 0xffffffff [], .asked 0 (7, 1) .waits,
    .asked 0xffffffff (8, 2) .refused, .changed 0xffffffff 0 [(7, 1)]]

/-- After those calls a fiber that waits for `1` is told to wait. -/
theorem sequentialCalls_refine_room_wrapping :
    ∃ b, SequentialCalls 1 wrappingWait b ∧
      ∀ c, Completes b (.addWaiting ⟨9, 1, 3⟩ (.casFree 0)) c → c.call.answer = some .waits := by
  have hroom : (Room.empty 0 1).run wrappingWait = some ⟨0, [none]⟩ := rfl
  obtain ⟨b, hb⟩ := exists_sequentialCalls hroom
  obtain ⟨r, hrun, -, -, -, -, hadd, -⟩ := sequentialCalls_refine_room hb
  obtain rfl : ⟨0, [none]⟩ = r := Option.some.inj (hroom.symm.trans hrun)
  exact ⟨b, hb, fun c hc => (hadd _ c hc).2.1⟩

end NomadTasks
