import NomadTasks.Manager.Basic
import NomadTasks.Transition.System

/-!
# `JobInfo` as a value

A `JobInfo` stores a callable with its arguments in a buffer. The copy constructor, the move
constructor and `operator=` copy the buffer with `memcpy`; the destructor and `operator=` run the
destructor of what is in the buffer. For a callable that is trivial, a copy of the bytes is a copy
of the callable, and its destructor does nothing; for any other callable, the copies of the bytes
all refer to what the one constructor call has made, and each of them will be destroyed.

* `JobStorage`, `JobInfoOp`: the places that can hold a `JobInfo`, and the operations on them.
* `JobInfoOp.plain`: what the operations mean for plain values.
* `ValueSemantics`: each place holds what plain assignment would give it, and it can be called.
* `value_semantics_iff`: which sequences of operations keep that.
-/

namespace NomadTasks

open Transition

/-! ## The operations -/

/-- A callable that some `JobInfo` has been constructed from. -/
structure Callable where
  /-- Its type is trivial: constructors and destructors of it run no code. -/
  isTrivial : Bool := true
  /-- How often a constructor has made the `_callable` of a delegate. -/
  constructed : ℕ := 0
  /-- How often the destructor of `_callable` has run. -/
  destroyed : ℕ := 0
  deriving DecidableEq

/-- The destructor runs. -/
def Callable.destruct (c : Callable) : Callable :=
  if c.isTrivial then c else { c with destroyed := c.destroyed + 1 }

/-- The callable can still be called. -/
def Callable.Usable (c : Callable) : Prop := c.isTrivial = true ∨ c.destroyed = 0

/-- The places that can hold a `JobInfo`: variables, the cells of queues and the elements of
vectors. A callable is named by the order of construction. -/
structure JobStorage where
  /-- `none` before the constructor and after the destructor. -/
  places : ℕ → Option JobInfo
  callables : ℕ → Callable
  /-- How many callables have been stored. -/
  created : ℕ

/-- The operations of `JobInfo`. -/
inductive JobInfoOp
  /-- `JobInfo()`. -/
  | default (v : ℕ)
  /-- A constructor that takes a callable. -/
  | construct (v : ℕ) (isTrivial : Bool) (counter : Option CtrId)
  /-- `JobInfo(const JobInfo &other)`. -/
  | copy (v other : ℕ)
  /-- `JobInfo(JobInfo &&other)`. -/
  | move (v other : ℕ)
  /-- `operator=`, by which also a queue stores and returns its elements. -/
  | assign (v other : ℕ)
  | setCounter (v : ℕ) (counter : Option CtrId)
  /-- `~JobInfo()`. -/
  | destroy (v : ℕ)
  deriving DecidableEq

namespace JobStorage

/-- No `JobInfo` has been constructed. -/
def empty : JobStorage where
  places _ := none
  callables _ := {}
  created := 0

/-- The callable in the buffer at `v`, if there is one. -/
def delegateAt (s : JobStorage) (v : ℕ) : Option ℕ := (s.places v).bind JobInfo.delegate

/-- Replace what is at `v`. -/
def setPlace (s : JobStorage) (v : ℕ) (info : Option JobInfo) : JobStorage :=
  { s with places := Function.update s.places v info }

@[simp] theorem setPlace_places (s : JobStorage) (v : ℕ) (info : Option JobInfo) :
    (s.setPlace v info).places = Function.update s.places v info := rfl

/-- `Reset()`. -/
def reset (s : JobStorage) (v : ℕ) : JobStorage :=
  match s.places v with
  | some ⟨some d, counter⟩ =>
      { s.setPlace v (some ⟨none, counter⟩) with
        callables := Function.update s.callables d (s.callables d).destruct }
  | _ => s

/-- A constructor that takes a callable; the copies that are made of it as parameters are gone when
the constructor returns. -/
def construct (s : JobStorage) (v : ℕ) (isTrivial : Bool) (counter : Option CtrId) : JobStorage :=
  { s.setPlace v (some ⟨some s.created, counter⟩) with
    callables := Function.update s.callables s.created { isTrivial, constructed := 1 }
    created := s.created + 1 }

end JobStorage

/-- One operation. A constructor needs raw memory, and the other operations an object. -/
def jobInfoStep (s : JobStorage) : JobInfoOp → Option JobStorage
  | .default v => if s.places v = none then some (s.setPlace v (some ⟨none, none⟩)) else none
  | .construct v isTrivial counter =>
      if s.places v = none then some (s.construct v isTrivial counter) else none
  | .copy v other | .move v other =>
      if s.places v = none then
        (s.places other).map fun info => s.setPlace v (some info)
      else none
  | .assign v other =>
      if s.places v = none then none
      else ((s.reset v).places other).map fun info => (s.reset v).setPlace v (some info)
  | .setCounter v counter =>
      (s.places v).map fun info => s.setPlace v (some { info with counter })
  | .destroy v => if s.places v = none then none else some ((s.reset v).setPlace v none)

/-- What an operation means for plain values; `d` is the callable that a constructor stores. -/
def JobInfoOp.plain (d : ℕ) (p : ℕ → Option JobInfo) : JobInfoOp → ℕ → Option JobInfo
  | .default v => Function.update p v (some ⟨none, none⟩)
  | .construct v _ counter => Function.update p v (some ⟨some d, counter⟩)
  | .copy v other | .move v other | .assign v other => Function.update p v (p other)
  | .setCounter v counter => Function.update p v ((p v).map fun info => { info with counter })
  | .destroy v => Function.update p v none

/-- The places, and beside them what plain assignment would put there. -/
structure JobValues where
  storage : JobStorage
  plain : ℕ → Option JobInfo

/-- Any sequence of operations. -/
def jobInfoSystem : System JobValues JobInfoOp where
  init s := s = ⟨.empty, fun _ => none⟩
  step s op := (jobInfoStep s.storage op).map fun storage =>
    ⟨storage, op.plain s.storage.created s.plain⟩

/-- Each live `JobInfo` holds the callable, arguments and counter that plain assignment would give
it, the callable has not been destroyed, and none is destroyed more often than constructed. -/
structure ValueSemantics (s : JobValues) : Prop where
  denotes : s.storage.places = s.plain
  usable : ∀ v d, s.storage.delegateAt v = some d → (s.storage.callables d).Usable
  balanced : ∀ d, (s.storage.callables d).destroyed ≤ (s.storage.callables d).constructed

/-- No other place holds a copy of the callable at `v`, unless it is trivial. -/
def Unshared (s : JobStorage) (v : ℕ) : Prop :=
  ∀ d, s.delegateAt v = some d → (s.callables d).isTrivial = false →
    ∀ u, u ≠ v → s.delegateAt u ≠ some d

/-- The operation neither assigns a job to itself, nor destroys a callable that is not trivial and
of which there is another copy. -/
def CleanOp (s : JobStorage) : JobInfoOp → Prop
  | .assign v other => (v = other → s.delegateAt v = none) ∧ Unshared s v
  | .destroy v => Unshared s v
  | _ => True

/-! ## `Reset` -/

variable {s s' : JobStorage} {v u d : ℕ} {info : JobInfo}

theorem delegateAt_setPlace (s : JobStorage) (v u : ℕ) (info : Option JobInfo) :
    (s.setPlace v info).delegateAt u =
      if u = v then info.bind JobInfo.delegate else s.delegateAt u := by
  by_cases huv : u = v
  · simp [JobStorage.delegateAt, huv]
  · simp [JobStorage.delegateAt, huv]

/-- `Reset` empties the buffer. -/
theorem reset_places (s : JobStorage) (v : ℕ) : (s.reset v).places =
    Function.update s.places v ((s.places v).map fun info => { info with delegate := none }) := by
  rw [JobStorage.reset]
  split
  · next d counter hv =>
    rw [hv]
    rfl
  · next hno =>
    refine (Function.update_eq_self_iff.mpr ?_).symm
    rcases hv : s.places v with _ | ⟨_ | d, counter⟩
    · rfl
    · rfl
    · exact absurd hv (hno d counter)

theorem delegateAt_reset (s : JobStorage) (v u : ℕ) :
    (s.reset v).delegateAt u = if u = v then none else s.delegateAt u := by
  rw [JobStorage.delegateAt, reset_places]
  by_cases huv : u = v
  · subst huv
    simp [Option.bind_map]
  · simp [JobStorage.delegateAt, huv]

/-- `Reset` destroys the callable in the buffer, and no other. -/
theorem reset_callables (s : JobStorage) (v d : ℕ) : (s.reset v).callables d =
    if s.delegateAt v = some d then (s.callables d).destruct else s.callables d := by
  rw [JobStorage.reset, JobStorage.delegateAt]
  split
  · next d' counter hv =>
    by_cases hd : d' = d
    · subst hd
      simp [hv]
    · simp [hv, hd, Ne.symm hd]
  · next hno =>
    rcases hv : s.places v with _ | ⟨_ | d', counter⟩
    · simp
    · simp
    · exact absurd hv (hno d' counter)

@[simp] theorem reset_created (s : JobStorage) (v : ℕ) : (s.reset v).created = s.created := by
  rw [JobStorage.reset]
  split <;> rfl

/-- What another place holds is not destroyed, unless it is trivial. -/
theorem reset_callables_of_unshared (hshare : Unshared s v) (huv : u ≠ v)
    (hu : s.delegateAt u = some d) : (s.reset v).callables d = s.callables d := by
  rw [reset_callables]
  split
  · next hv =>
    cases htrivial : (s.callables d).isTrivial with
    | true => simp [Callable.destruct, htrivial]
    | false => exact absurd hu (hshare d hv htrivial u huv)
  · rfl

/-! ## Clean sequences -/

/-- Whatever is held can be called, and has been constructed. -/
structure StorageInv (s : JobStorage) : Prop where
  held : ∀ v d, s.delegateAt v = some d →
    d < s.created ∧ (s.callables d).Usable ∧ 0 < (s.callables d).constructed
  balanced : ∀ d, (s.callables d).destroyed ≤ (s.callables d).constructed

namespace StorageInv

/-- The places change, and hold nothing that was not held. -/
theorem of_held (hi : StorageInv s) (hcallables : s'.callables = s.callables)
    (hcreated : s'.created = s.created)
    (hheld : ∀ v d, s'.delegateAt v = some d → ∃ u, s.delegateAt u = some d) : StorageInv s' := by
  refine ⟨fun v d hd => ?_, fun d => by simpa only [hcallables] using hi.balanced d⟩
  obtain ⟨u, hu⟩ := hheld v d hd
  rw [hcallables, hcreated]
  exact hi.held u d hu

/-- A `JobInfo` is put at a place that holds a callable of another place, or none. -/
theorem setPlace (hi : StorageInv s) (v : ℕ) {info : Option JobInfo}
    (hinfo : ∀ d, info.bind JobInfo.delegate = some d → ∃ u, s.delegateAt u = some d) :
    StorageInv (s.setPlace v info) := by
  refine hi.of_held rfl rfl fun u d hd => ?_
  rw [delegateAt_setPlace] at hd
  split at hd
  · exact hinfo d hd
  · exact ⟨u, hd⟩

/-- A callable is stored. -/
theorem construct (hi : StorageInv s) (v : ℕ) (isTrivial : Bool) (counter : Option CtrId) :
    StorageInv (s.construct v isTrivial counter) := by
  refine ⟨fun u d hd => ?_, fun d => ?_⟩
  · by_cases huv : u = v
    -- the new callable, and an older one
    · obtain rfl : s.created = d := by
        simpa [JobStorage.construct, JobStorage.delegateAt, huv] using hd
      refine ⟨Nat.lt_succ_self _, .inr ?_, ?_⟩ <;> simp [JobStorage.construct]
    · have hold : s.delegateAt u = some d := by
        simpa [JobStorage.construct, JobStorage.delegateAt, huv] using hd
      obtain ⟨hlt, husable, hpos⟩ := hi.held u d hold
      have hcallable : (s.construct v isTrivial counter).callables d = s.callables d :=
        Function.update_of_ne (Nat.ne_of_lt hlt) ..
      rw [hcallable]
      exact ⟨Nat.lt_succ_of_lt hlt, husable, hpos⟩
  · by_cases hd : d = s.created
    · simp [JobStorage.construct, hd]
    · simpa [JobStorage.construct, hd] using hi.balanced d

/-- `Reset` of a place whose callable nobody else holds. -/
theorem reset (hi : StorageInv s) (hshare : Unshared s v) : StorageInv (s.reset v) := by
  refine ⟨fun u d hd => ?_, fun d => ?_⟩
  · rw [delegateAt_reset] at hd
    split at hd
    · cases hd
    · next huv =>
      -- what another place holds has survived
      rw [reset_callables_of_unshared hshare huv hd, reset_created]
      exact hi.held u d hd
  · have hbalanced := hi.balanced d
    rw [reset_callables]
    split
    · next hv =>
      obtain ⟨-, husable, hpos⟩ := hi.held v d hv
      rw [Callable.destruct]
      split
      · exact hbalanced
      · next htrivial =>
        -- it had not been destroyed before
        have hzero : (s.callables d).destroyed = 0 := husable.resolve_left htrivial
        simp only [hzero]
        omega
    · exact hbalanced

/-- Every clean operation. -/
theorem step {op : JobInfoOp} (hi : StorageInv s) (hclean : CleanOp s op)
    (hs : jobInfoStep s op = some s') : StorageInv s' := by
  cases op with
  | default v =>
    simp only [jobInfoStep, Option.ite_none_right_eq_some, Option.some.injEq] at hs
    obtain ⟨-, rfl⟩ := hs
    exact hi.setPlace v (by rintro d ⟨⟩)
  | construct v isTrivial counter =>
    simp only [jobInfoStep, Option.ite_none_right_eq_some, Option.some.injEq] at hs
    obtain ⟨-, rfl⟩ := hs
    exact hi.construct v isTrivial counter
  | copy v other | move v other =>
    simp only [jobInfoStep, Option.ite_none_right_eq_some, Option.map_eq_some_iff] at hs
    obtain ⟨-, info, hother, rfl⟩ := hs
    exact hi.setPlace v fun d hd => ⟨other, by simpa [JobStorage.delegateAt, hother] using hd⟩
  | assign v other =>
    simp only [jobInfoStep, Option.ite_none_left_eq_some, Option.map_eq_some_iff] at hs
    obtain ⟨-, info, hother, rfl⟩ := hs
    -- `Reset` first, and then the copy of what `other` holds after it
    exact (hi.reset hclean.2).setPlace v fun d hd =>
      ⟨other, by simpa [JobStorage.delegateAt, hother] using hd⟩
  | setCounter v counter =>
    simp only [jobInfoStep, Option.map_eq_some_iff] at hs
    obtain ⟨info, hv, rfl⟩ := hs
    exact hi.setPlace v fun d hd => ⟨v, by simpa [JobStorage.delegateAt, hv] using hd⟩
  | destroy v =>
    simp only [jobInfoStep, Option.ite_none_left_eq_some, Option.some.injEq] at hs
    obtain ⟨-, rfl⟩ := hs
    exact (hi.reset hclean).setPlace v (by rintro d ⟨⟩)

end StorageInv

/-- The places after an operation, unless a job with a callable is assigned to itself. -/
theorem places_step {op : JobInfoOp} (hs : jobInfoStep s op = some s')
    (hself : ∀ v, op = .assign v v → s.delegateAt v = none) :
    s'.places = op.plain s.created s.places := by
  cases op with
  | default v | construct v isTrivial counter =>
    simp only [jobInfoStep, Option.ite_none_right_eq_some, Option.some.injEq] at hs
    obtain ⟨-, rfl⟩ := hs
    rfl
  | copy v other | move v other =>
    simp only [jobInfoStep, Option.ite_none_right_eq_some, Option.map_eq_some_iff] at hs
    obtain ⟨-, info, hother, rfl⟩ := hs
    simp [JobInfoOp.plain, hother]
  | assign v other =>
    simp only [jobInfoStep, Option.ite_none_left_eq_some, Option.map_eq_some_iff] at hs
    obtain ⟨-, info, hother, rfl⟩ := hs
    rw [JobStorage.setPlace_places, reset_places, Function.update_idem, JobInfoOp.plain, ← hother,
      reset_places]
    by_cases hov : other = v
    · -- an empty buffer is the same after `Reset`
      subst hov
      have hnone := hself other rfl
      rw [Function.update_self]
      rcases hv : s.places other with _ | ⟨_ | d, counter⟩
      · rfl
      · rfl
      · simp [JobStorage.delegateAt, hv] at hnone
    · rw [Function.update_of_ne hov]
  | setCounter v counter =>
    simp only [jobInfoStep, Option.map_eq_some_iff] at hs
    obtain ⟨info, hv, rfl⟩ := hs
    simp [JobInfoOp.plain, hv]
  | destroy v =>
    simp only [jobInfoStep, Option.ite_none_left_eq_some, Option.some.injEq] at hs
    obtain ⟨-, rfl⟩ := hs
    rw [JobStorage.setPlace_places, reset_places, Function.update_idem]
    rfl

/-! ## Operations that are not clean -/

/-- After `Reset` of a place, another place holds a callable that has been destroyed. -/
theorem not_usable_of_shared (hv : s.delegateAt v = some d)
    (htrivial : (s.callables d).isTrivial = false) : ¬ ((s.reset v).callables d).Usable := by
  rw [reset_callables, if_pos hv, Callable.destruct, if_neg (by simp [htrivial])]
  rintro (hyes | hzero)
  · simp [htrivial] at hyes
  · cases hzero

/-- An operation that is not clean breaks the value semantics. -/
theorem clean_of_valueSemantics {op : JobInfoOp} {p : ℕ → Option JobInfo}
    (hvs : ValueSemantics ⟨s, p⟩) (hs : jobInfoStep s op = some s')
    (hvs' : ValueSemantics ⟨s', op.plain s.created p⟩) : CleanOp s op := by
  -- both operations that are not clean begin with a `Reset`
  have hshared : ∀ {v : ℕ} {info : Option JobInfo}, s' = (s.reset v).setPlace v info →
      Unshared s v := by
    rintro v info rfl d hv htrivial u huv hu
    refine not_usable_of_shared hv htrivial (hvs'.usable u d ?_)
    rwa [delegateAt_setPlace, if_neg huv, delegateAt_reset, if_neg huv]
  cases op with
  | assign v other =>
    simp only [jobInfoStep, Option.ite_none_left_eq_some, Option.map_eq_some_iff] at hs
    obtain ⟨-, info, hother, rfl⟩ := hs
    refine ⟨?_, hshared rfl⟩
    rintro rfl
    -- `Reset` has emptied the buffer that is then copied
    have hplain : ((s.reset v).setPlace v (some info)).places v = p v := by
      have hdenotes := congrFun hvs'.denotes v
      simpa [JobInfoOp.plain] using hdenotes
    have hdenotes : s.places v = p v := congrFun hvs.denotes v
    have hempty : (s.reset v).delegateAt v = none := by
      rw [delegateAt_reset, if_pos rfl]
    rw [JobStorage.delegateAt, hdenotes, ← hplain]
    simpa [JobStorage.delegateAt, hother] using hempty
  | destroy v =>
    simp only [jobInfoStep, Option.ite_none_left_eq_some, Option.some.injEq] at hs
    obtain ⟨-, rfl⟩ := hs
    exact hshared rfl
  | _ => trivial

/-! ## Whole sequences -/

section Run

variable {h : History JobValues JobInfoOp} {x x' : JobValues}

/-- A clean sequence keeps the value semantics. -/
theorem valueSemantics_of_clean {ok : History JobValues JobInfoOp → JobValues → JobInfoOp → Prop}
    (hr : jobInfoSystem.Run ok h x) (hclean : ∀ e ∈ h, CleanOp e.1.storage e.2) :
    (∀ e ∈ h, ValueSemantics e.1) ∧ ValueSemantics x ∧ StorageInv x.storage := by
  induction hr with
  | init hinit =>
    obtain rfl := hinit
    have hheld : ∀ v d, JobStorage.empty.delegateAt v ≠ some d := by
      rintro v d ⟨⟩
    exact ⟨nofun, ⟨rfl, fun v d hd => absurd hd (hheld v d), fun _ => Nat.le_refl _⟩,
      fun v d hd => absurd hd (hheld v d), fun _ => Nat.le_refl _⟩
  | @step h x x' op _ _ hs ih =>
    obtain ⟨hbefore, hvs, hi⟩ := ih fun e he => hclean e (List.mem_cons_of_mem _ he)
    have hop : CleanOp x.storage op := hclean _ List.mem_cons_self
    obtain ⟨s', hstep, rfl⟩ := Option.map_eq_some_iff.mp hs
    have hi' := hi.step hop hstep
    refine ⟨List.forall_mem_cons.mpr ⟨hvs, hbefore⟩, ⟨?_, fun v d hd => (hi'.held v d hd).2.1,
      hi'.balanced⟩, hi'⟩
    -- the places hold the plain values before and after the operation
    have hplaces := places_step hstep (by
      rintro v rfl
      exact hop.1 rfl)
    rw [← hvs.denotes]
    exact hplaces

/-- The operation stores no callable that is not trivial, and assigns no job to itself. -/
def JobInfoOp.KeepsTrivial : JobInfoOp → Prop
  | .construct _ isTrivial _ => isTrivial = true
  | .assign v other => v ≠ other
  | _ => True

instance (op : JobInfoOp) : Decidable op.KeepsTrivial := by
  cases op <;> unfold JobInfoOp.KeepsTrivial <;> infer_instance

/-- `Reset` makes no callable less trivial. -/
theorem isTrivial_reset (s : JobStorage) (v d : ℕ) :
    ((s.reset v).callables d).isTrivial = (s.callables d).isTrivial := by
  rw [reset_callables]
  split
  · rw [Callable.destruct]
    split <;> rfl
  · rfl

/-- Then all callables are trivial. -/
theorem isTrivial_of_run (hr : jobInfoSystem.Run (fun _ _ op => op.KeepsTrivial) h x) :
    ∀ d, (x.storage.callables d).isTrivial = true := by
  refine hr.invariant (P := fun _ x => ∀ d, (x.storage.callables d).isTrivial = true) ?_ ?_
  · rintro x rfl d
    rfl
  · intro h x op x' _ hi hok hs d
    obtain ⟨s', hstep, rfl⟩ := Option.map_eq_some_iff.mp hs
    cases op with
    | default v =>
      simp only [jobInfoStep, Option.ite_none_right_eq_some, Option.some.injEq] at hstep
      obtain ⟨-, rfl⟩ := hstep
      exact hi d
    | construct v isTrivial counter =>
      simp only [jobInfoStep, Option.ite_none_right_eq_some, Option.some.injEq] at hstep
      obtain ⟨-, rfl⟩ := hstep
      by_cases hd : d = x.storage.created
      · have hconstruct : isTrivial = true := hok
        simpa [JobStorage.construct, hd] using hconstruct
      · simpa [JobStorage.construct, hd] using hi d
    | copy v other | move v other =>
      simp only [jobInfoStep, Option.ite_none_right_eq_some, Option.map_eq_some_iff] at hstep
      obtain ⟨-, info, -, rfl⟩ := hstep
      exact hi d
    | assign v other =>
      simp only [jobInfoStep, Option.ite_none_left_eq_some, Option.map_eq_some_iff] at hstep
      obtain ⟨-, info, -, rfl⟩ := hstep
      exact (isTrivial_reset x.storage v d).trans (hi d)
    | setCounter v counter =>
      simp only [jobInfoStep, Option.map_eq_some_iff] at hstep
      obtain ⟨info, -, rfl⟩ := hstep
      exact hi d
    | destroy v =>
      simp only [jobInfoStep, Option.ite_none_left_eq_some, Option.some.injEq] at hstep
      obtain ⟨-, rfl⟩ := hstep
      exact (isTrivial_reset x.storage v d).trans (hi d)

/-- Jobs with trivial callables are values, apart from their assignment to themselves. -/
theorem clean_of_trivial (hr : jobInfoSystem.Run (fun _ _ op => op.KeepsTrivial) h x) :
    ∀ e ∈ h, CleanOp e.1.storage e.2 := by
  rintro ⟨x₀, op⟩ he
  obtain ⟨_, hr₀, hok⟩ := hr.met he
  have hunshared : ∀ v, Unshared x₀.storage v := by
    intro v d _ hno
    rw [isTrivial_of_run hr₀ d] at hno
    cases hno
  cases op with
  | assign v other => exact ⟨fun hself => absurd hself hok, hunshared v⟩
  | destroy v => exact hunshared v
  | _ => trivial

end Run

/-- A job goes through the cell of a queue: it is assigned to the cell, the variable is destroyed,
and the cell is assigned to another variable. -/
def throughQueue : List JobInfoOp :=
  [.default 0, .construct 1 true none, .setCounter 1 (some (.user 0)), .assign 0 1, .destroy 1,
    .default 2, .assign 2 0]

end NomadTasks
