import Mathlib.Data.List.Basic
import Mathlib.Tactic.Common

/-!
# Waiting rooms

The abstract counter that processes wait on: a value, and a fixed number of places, each empty or
taken by a waiter with the value it waits for. A waiter comes in unless every place is taken; it
does not have to wait when the value is already there. A change of the value announces the new one
to the places, in order, and the waiters for it leave.

Like a bounded queue, a room is given by what it does (`ask`, `change`) and by the completed
operations it accepts (`accept`, `run`).
-/

namespace Waiting

universe u v

variable {V : Type u} {W : Type v}

/-- A value and the places of those who wait for it to become another. -/
structure Room (V : Type u) (W : Type v) where
  value : V
  places : List (Option (V × W))

/-- What a waiter is told. -/
inductive Answer
  /-- Every place is taken. -/
  | refused
  /-- The value is there: there is nothing to wait for. -/
  | met
  /-- The waiter has taken a place. -/
  | waits
  deriving DecidableEq

/-- A completed operation and what it answered. -/
inductive Event (V : Type u) (W : Type v)
  /-- The waiter `who` asked to wait for `target`. -/
  | asked (target : V) (who : W) (answer : Answer)
  /-- The value was changed from `before` to `after`, which let the waiters `woken` leave. -/
  | changed (before after : V) (woken : List W)

/-- Put `x` on the first empty place, if there is one. -/
def fill {A : Type*} (x : A) : List (Option A) → Option (List (Option A))
  | [] => none
  | none :: ps => some (some x :: ps)
  | some y :: ps => (fill x ps).map (some y :: ·)

/-- The first empty place divides the places into those before it, all taken, and those after. -/
theorem fill_eq_some {A : Type*} {x : A} {ps qs : List (Option A)} (h : fill x ps = some qs) :
    ∃ pre suf, ps = pre ++ none :: suf ∧ qs = pre ++ some x :: suf ∧
      ∀ p ∈ pre, p.isSome = true := by
  induction ps generalizing qs with
  | nil => cases h
  | cons p ps ih =>
    cases p with
    | none =>
      obtain rfl := Option.some.inj h
      exact ⟨[], ps, rfl, rfl, by simp⟩
    | some y =>
      obtain ⟨qs', hqs', rfl⟩ := Option.map_eq_some_iff.mp h
      obtain ⟨pre, suf, rfl, rfl, hpre⟩ := ih hqs'
      exact ⟨some y :: pre, suf, rfl, rfl, by simpa using hpre⟩

/-- There is no empty place if every place is taken. -/
theorem fill_eq_none {A : Type*} {x : A} {ps : List (Option A)} (h : fill x ps = none) :
    ∀ p ∈ ps, p.isSome = true := by
  induction ps with
  | nil => simp
  | cons p ps ih =>
    cases p with
    | none => cases h
    | some y =>
      rw [fill, Option.map_eq_none_iff] at h
      simpa using ih h

section Decidable

variable [DecidableEq V]

/-- The waiter of a place, if it waits for `v`. -/
def waiterFor (v : V) : Option (V × W) → Option W
  | some (target, who) => if target = v then some who else none
  | none => none

/-- The place after its waiter has left, if it waits for `v`. -/
def vacate (v : V) : Option (V × W) → Option (V × W)
  | some (target, who) => if target = v then none else some (target, who)
  | none => none

namespace Room

/-- The room with `n` empty places. -/
def empty (v : V) (n : ℕ) : Room V W := ⟨v, List.replicate n none⟩

/-- The waiter `who` asks to wait for `target`. -/
def ask (r : Room V W) (target : V) (who : W) : Answer × Room V W :=
  match fill (target, who) r.places with
  | none => (.refused, r)
  | some places => if target = r.value then (.met, r) else (.waits, { r with places })

/-- The value becomes `after`. -/
def change (r : Room V W) (after : V) : List W × Room V W :=
  (r.places.filterMap (waiterFor after), ⟨after, r.places.map (vacate after)⟩)

/-- The room after a completed operation, or `none` when it cannot have answered so. -/
def accept [DecidableEq W] (r : Room V W) : Event V W → Option (Room V W)
  | .asked target who answer =>
      if (r.ask target who).1 = answer then some (r.ask target who).2 else none
  | .changed before after woken =>
      if r.value = before ∧ (r.change after).1 = woken then some (r.change after).2 else none

/-- The room after a list of completed operations, oldest first. -/
def run [DecidableEq W] (r : Room V W) (es : List (Event V W)) : Option (Room V W) :=
  es.foldlM accept r

section Ask

variable {r : Room V W} {target : V} {who : W} {places : List (Option (V × W))}

theorem ask_refused (h : fill (target, who) r.places = none) :
    r.ask target who = (.refused, r) := by
  simp [ask, h]

theorem ask_met (h : fill (target, who) r.places = some places) (heq : target = r.value) :
    r.ask target who = (.met, r) := by
  simp only [ask, h, if_pos heq]

theorem ask_waits (h : fill (target, who) r.places = some places) (hne : target ≠ r.value) :
    r.ask target who = (.waits, ⟨r.value, places⟩) := by
  simp [ask, h, hne]

end Ask

@[simp] theorem run_nil [DecidableEq W] (r : Room V W) : r.run [] = some r := rfl

/-- A run that ends with one more operation. -/
theorem run_append_singleton [DecidableEq W] (r : Room V W) (es : List (Event V W))
    (e : Event V W) : r.run (es ++ [e]) = (r.run es).bind fun r' => r'.accept e := by
  simp [run, List.foldlM_append]

/-- Nobody waits for the value that is there. -/
def Settled (r : Room V W) : Prop := ∀ target who, some (target, who) ∈ r.places → target ≠ r.value

omit [DecidableEq V] in
theorem settled_empty (v : V) (n : ℕ) : (empty v n : Room V W).Settled := by
  intro target who h
  simp [empty] at h

/-- An admission leaves nobody waiting for the value that is there. -/
theorem Settled.ask {r : Room V W} (h : r.Settled) (target : V) (who : W) :
    (r.ask target who).2.Settled := by
  cases hfill : fill (target, who) r.places with
  | none => rwa [ask_refused hfill]
  | some places =>
    by_cases hv : target = r.value
    · rwa [ask_met hfill hv]
    · rw [ask_waits hfill hv]
      obtain ⟨pre, suf, hplaces, rfl, -⟩ := fill_eq_some hfill
      intro target' who' hmem
      rcases List.mem_append.mp hmem with hpre | hsuf
      · exact h target' who' (by simp [hplaces, hpre])
      · rcases List.mem_cons.mp hsuf with heq | hsuf
        · obtain ⟨rfl, -⟩ := Prod.mk.inj (Option.some.inj heq)
          exact hv
        · exact h target' who' (by simp [hplaces, hsuf])

/-- A change of the value leaves nobody waiting for the new one, whatever it was before. -/
theorem settled_change (r : Room V W) (after : V) : (r.change after).2.Settled := by
  intro target who h
  obtain ⟨p, -, hp⟩ := List.mem_map.mp h
  rcases p with _ | ⟨target', who'⟩
  · cases hp
  · simp only [vacate] at hp
    split at hp
    · cases hp
    · next hne =>
      obtain ⟨rfl, -⟩ := Prod.mk.inj (Option.some.inj hp)
      exact hne

end Room

end Decidable

end Waiting
