import NomadTasks.Manager.NextJob

/-!
# Saved contexts

`managerStep` gives every fiber one program point, and takes a call of `SwitchTo` as one step. In
the code, `SwitchTo` makes its assignments first and calls `SwitchToFiber` then, which saves where
the thread is in the context of the fiber that it leaves, and goes on where the context of the next
one has been saved last. The two differ when two threads come to one fiber.

* `contextSystem`: the manager with saved contexts, in which another thread can take a step between
  the assignments of `SwitchTo` and `SwitchToFiber`.
* `simulates_of_run`: as long as the switches do not meet, its runs are those of `managerSystem`.
* `simulates_of_orderly`: they do not meet in an orderly run.
-/

namespace NomadTasks

open Transition

/-! ## The manager with saved contexts -/

/-- The manager with the contexts of its fibers. -/
structure ContextState where
  /-- What the threads share; `fibers` is what is saved in the contexts of the fibers. -/
  mgr : ManagerState
  /-- Where a thread is that executes a fiber. -/
  current : ℕ → FiberState
  /-- The thread is inside `SwitchTo`, between the assignments and `SwitchToFiber`. -/
  assigned : ℕ → Bool

namespace ContextState

/-- `tls->_threadFiber.SwitchTo(&_fibers[g])` on thread `t`: the assignments in a first step, and
`SwitchToFiber` in a second one; `save` puts away where the thread goes on when it is resumed. -/
def switchTo (s : ContextState) (t tls g : ℕ) (save : ManagerState → ManagerState) :
    ContextState :=
  if s.assigned t then
    { mgr := save
        { s.mgr with
          running := Function.update s.mgr.running t (some g)
          handoffs := s.mgr.handoffs ++ [.switchedTo t g] }
      current := Function.update s.current t ((save s.mgr).fibers g)
      assigned := Function.update s.assigned t false }
  else
    { s with
      mgr := { s.mgr with returnFiber := Function.update s.mgr.returnFiber g tls }
      assigned := Function.update s.assigned t true }

/-- Thread `t` has done `act` in fiber `f`, which is then at `fiber`. -/
def fiberAct (s : ContextState) (t f : ℕ) (fiber : FiberState) : Act → ContextState
  | .switchTo tls g => s.switchTo t tls g fun mgr => mgr.setFiber f fiber
  | .switchBack => { s with mgr := (s.mgr.apply t f .switchBack).setFiber f fiber }
  | act =>
      { s with
        mgr := s.mgr.apply t f act
        current := Function.update s.current t fiber }

/-- Thread `t` has done `act` in its own code, which is then at `pc`. -/
def threadAct (s : ContextState) (t : ℕ) (pc : ThreadPc) : Act → ContextState
  | .switchTo tls g => s.switchTo t tls g fun mgr => mgr.setThread t pc
  | act => { s with mgr := (s.mgr.apply t noFiber act).setThread t pc }

/-- The fiber that the next step of thread `t` switches to, or makes the assignments for. -/
def switchTarget (s : ContextState) (t : ℕ) : Option ℕ :=
  match s.mgr.running t with
  | some _ => (s.current t).pc.switchTarget
  | none => (s.mgr.threads t).switchTarget

/-- The next step of thread `t` is not one of a `SwitchTo` for a fiber that a thread executes, or
that another thread is about to switch to. -/
def SwitchesApart (opts : ManagerOptions) (s : ContextState) (t : ℕ) : Prop :=
  ∀ g ∈ s.switchTarget t, ∀ u < opts.threadCount,
    s.mgr.running u ≠ some g ∧ (s.switchTarget u = some g → u = t)

instance (opts : ManagerOptions) (s : ContextState) (t : ℕ) : Decidable (s.SwitchesApart opts t) :=
  inferInstanceAs (Decidable (∀ g ∈ s.switchTarget t, _))

/-- Where fiber `f` is: where the thread that executes it is, or what its context has saved. -/
def fiber (opts : ManagerOptions) (s : ContextState) (f : ℕ) : FiberState :=
  match (List.range opts.threadCount).find? fun t => s.mgr.running t = some f with
  | some t => s.current t
  | none => s.mgr.fibers f

/-- The state with one program point for each fiber. -/
def manager (opts : ManagerOptions) (s : ContextState) : ManagerState :=
  { s.mgr with fibers := s.fiber opts }

end ContextState

/-- One step of the manager with saved contexts. -/
def contextStep (opts : ManagerOptions) (s : ContextState) (a : ManagerAction) :
    Option ContextState :=
  match s.mgr.running a.thread with
  | some f =>
      let tls := (s.current a.thread).currentTLS a.thread
      ((s.current a.thread).pc.next opts s.mgr f tls a.choice).map fun (act, pc) =>
        s.fiberAct a.thread f ⟨tls, pc⟩ act
  | none =>
      ((s.mgr.threads a.thread).next opts s.mgr a.thread a.choice).map fun (act, pc) =>
        s.threadAct a.thread pc act

/-- `contextStep`, for evaluation. -/
def contextStepEval (opts : ManagerOptions) (s : ContextState) (a : ManagerAction) :
    Option ContextState :=
  match s.mgr.running a.thread with
  | some f =>
      System.evaluated f fun f =>
        System.evaluated ((s.current a.thread).currentTLS a.thread) fun tls =>
          ((s.current a.thread).pc.next opts s.mgr f tls a.choice).map fun (act, pc) =>
            s.fiberAct a.thread f ⟨tls, pc⟩ act
  | none =>
      ((s.mgr.threads a.thread).next opts s.mgr a.thread a.choice).map fun (act, pc) =>
        s.threadAct a.thread pc act

theorem contextStepEval_eq (opts : ManagerOptions) : contextStepEval opts = contextStep opts := by
  funext s a
  simp only [contextStepEval, contextStep, System.evaluated_eq]

/-- The manager with saved contexts, from the states in which the runs of `M` begin. -/
def contextSystem (opts : ManagerOptions) (M : System ManagerState ManagerAction) :
    System ContextState ManagerAction where
  init s := ∃ m, M.init m ∧ s = ⟨m, fun _ => {}, fun _ => false⟩
  step := contextStep opts

/-! ## One program point for each fiber -/

section Steps

variable {opts : ManagerOptions} {s : ManagerState} {t f g tls : ℕ} {act : Act}

/-- Code that is about to switch does that next. -/
theorem FiberStep.switchTo_of_target {pc pc' : FiberPc} (h : FiberStep opts s f tls pc act pc')
    (hg : pc.switchTarget = some g) : act = .switchTo tls g := by
  cases h with
  | nextSwitchTo | waitSwitchTo | mainSwitchTo =>
    cases hg
    rfl
  | _ => cases hg

theorem ThreadStep.switchTo_of_target {pc pc' : ThreadPc} (h : ThreadStep s t pc act pc')
    (hg : pc.switchTarget = some g) : act = .switchTo t g := by
  cases h with
  | switchTo =>
    cases hg
    rfl
  | _ => cases hg

/-- Code that does something else is not about to switch. -/
theorem FiberStep.switchTarget_eq_none {pc pc' : FiberPc} (h : FiberStep opts s f tls pc act pc')
    (hact : ∀ g, act ≠ .switchTo tls g) : pc.switchTarget = none :=
  Option.eq_none_iff_forall_ne_some.mpr fun g hg => hact g (h.switchTo_of_target hg)

theorem ThreadStep.switchTarget_eq_none {pc pc' : ThreadPc} (h : ThreadStep s t pc act pc')
    (hact : ∀ g, act ≠ .switchTo t g) : pc.switchTarget = none :=
  Option.eq_none_iff_forall_ne_some.mpr fun g hg => hact g (h.switchTo_of_target hg)

/-- It does not ask for its `TLS` again. -/
theorem FiberState.currentTLS_of_switchTarget {fiber : FiberState}
    (hg : fiber.pc.switchTarget = some g) : fiber.currentTLS t = fiber.tls := by
  have hget : fiber.pc.getsCurrentTLS = false := by
    revert hg
    cases fiber.pc with
    | getNextJob | mainSwitchTo => exact fun _ => rfl
    | waitForCounter ctx caller c v pc =>
      cases pc with
      | switchTo => exact fun _ => rfl
      | _ => rintro ⟨⟩
    | _ => rintro ⟨⟩
  rw [FiberState.currentTLS, hget, if_neg Bool.false_ne_true]

/-- What a fiber does does not depend on where the fibers are, and where they return to. -/
theorem FiberPc.next_congr (pc : FiberPc) (choice : Choice) (fibers : ℕ → FiberState)
    (returnFiber : ℕ → ℕ) :
    pc.next opts { s with fibers := fibers, returnFiber := returnFiber } f tls choice =
      pc.next opts s f tls choice := by
  cases pc <;> rfl

theorem ThreadPc.next_congr (pc : ThreadPc) (choice : Choice) (fibers : ℕ → FiberState)
    (returnFiber : ℕ → ℕ) :
    pc.next opts { s with fibers := fibers, returnFiber := returnFiber } t choice =
      pc.next opts s t choice := by
  cases pc <;> rfl

/-- An act that leaves the threads where they are does not depend on that either. -/
theorem ManagerState.apply_congr (hact : act.moves = false) (fibers : ℕ → FiberState)
    (returnFiber : ℕ → ℕ) :
    ManagerState.apply { s with fibers := fibers, returnFiber := returnFiber } t f act =
      { s.apply t f act with fibers := fibers, returnFiber := returnFiber } := by
  cases act with
  | switchTo | switchBack => cases hact
  | endWait caller | throwThrough caller => cases caller <;> rfl
  | _ => rfl

/-- Such an act keeps the own code of the threads, and where the fibers return to. -/
theorem ManagerState.apply_of_stays (hact : act.moves = false) :
    (s.apply t f act).threads = s.threads ∧ (s.apply t f act).returnFiber = s.returnFiber := by
  cases act with
  | switchTo | switchBack => cases hact
  | endWait caller | throwThrough caller => cases caller <;> exact ⟨rfl, rfl⟩
  | _ => exact ⟨rfl, rfl⟩

end Steps

namespace ContextState

/-- An act that does not switch changes the point of its thread. -/
theorem fiberAct_of_stays {s : ContextState} {t f : ℕ} {fiber : FiberState} {act : Act}
    (hact : act.moves = false) : s.fiberAct t f fiber act =
      { s with mgr := s.mgr.apply t f act, current := Function.update s.current t fiber } := by
  cases act with
  | switchTo | switchBack => cases hact
  | _ => rfl

theorem threadAct_of_stays {s : ContextState} {t : ℕ} {pc : ThreadPc} {act : Act}
    (hact : act.moves = false) : s.threadAct t pc act =
      { s with mgr := (s.mgr.apply t noFiber act).setThread t pc } := by
  cases act with
  | switchTo => cases hact
  | _ => rfl

/-- The `TLS` on whose `_threadFiber` thread `t` calls `SwitchTo`. -/
def switchTls (s : ContextState) (t : ℕ) : ℕ :=
  match s.mgr.running t with
  | some _ => (s.current t).tls
  | none => t

/-- Every fiber is at the one point that `fibers` says, and no fiber is executed by two threads;
`returnFiber` says where the executed fibers return to. What the assignments of a `SwitchTo` have
set is still there when its thread calls `SwitchToFiber`. -/
structure OnePoint (opts : ManagerOptions) (s : ContextState) (fibers : ℕ → FiberState)
    (returnFiber : ℕ → ℕ) : Prop where
  current : ∀ t f, s.mgr.running t = some f → fibers f = s.current t
  returns : ∀ t f, s.mgr.running t = some f → returnFiber f = s.mgr.returnFiber f
  saved : ∀ f, (∀ t, s.mgr.running t ≠ some f) → fibers f = s.mgr.fibers f
  alone : ∀ t u f, s.mgr.running t = some f → s.mgr.running u = some f → t = u
  absent : ∀ u, opts.threadCount ≤ u → s.mgr.running u = none ∧ s.mgr.threads u = .returned
  assigned : ∀ t, s.assigned t = true →
    (∃ g, s.switchTarget t = some g ∧ s.mgr.returnFiber g = s.switchTls t) ∨
      s.mgr.running t = none ∧ s.mgr.threads t = .returned

namespace OnePoint

variable {opts : ManagerOptions} {s s' : ContextState} {t : ℕ} {fibers fibers' : ℕ → FiberState}
  {returnFiber returnFiber' : ℕ → ℕ}

/-- A thread that executes a fiber exists. -/
theorem lt_of_running (hi : OnePoint opts s fibers returnFiber) {f : ℕ}
    (hrun : s.mgr.running t = some f) : t < opts.threadCount := by
  by_contra hge
  cases hrun.symm.trans (hi.absent t (by omega)).1

/-- A thread that is about to switch exists. -/
theorem lt_of_switchTarget (hi : OnePoint opts s fibers returnFiber) {g : ℕ}
    (hg : s.switchTarget t = some g) : t < opts.threadCount := by
  by_contra hge
  obtain ⟨hrun, hret⟩ := hi.absent t (by omega)
  simp [switchTarget, hrun, hret, ThreadPc.switchTarget] at hg

/-- What a thread is about to switch to, no thread executes. -/
theorem target_free (hi : OnePoint opts s fibers returnFiber) (hapart : s.SwitchesApart opts t)
    {g : ℕ} (hg : s.switchTarget t = some g) (u : ℕ) : s.mgr.running u ≠ some g :=
  fun hu => (hapart g hg u (hi.lt_of_running hu)).1 hu

/-- What another thread has assigned stays, if this thread does not assign to the same fiber. -/
theorem assigned_of_frame (hi : OnePoint opts s fibers returnFiber) {u : ℕ}
    (hu : s.assigned u = true) (hrun : s'.mgr.running u = s.mgr.running u)
    (hcur : s'.current u = s.current u)
    (hthread : s'.mgr.threads u = s.mgr.threads u ∨ s'.mgr.threads u = .returned)
    (hreturn : ∀ g, s.switchTarget u = some g → s'.mgr.returnFiber g = s.mgr.returnFiber g) :
    (∃ g, s'.switchTarget u = some g ∧ s'.mgr.returnFiber g = s'.switchTls u) ∨
      s'.mgr.running u = none ∧ s'.mgr.threads u = .returned := by
  by_cases hkept : s.mgr.running u = none ∧ s'.mgr.threads u = .returned
  · exact .inr ⟨hrun.trans hkept.1, hkept.2⟩
  · rcases hi.assigned u hu with ⟨g, hg, htls⟩ | ⟨hnone, hret⟩
    -- the thread is where it was
    · have htarget : s'.switchTarget u = s.switchTarget u := by
        cases hold : s.mgr.running u with
        | some f => simp only [switchTarget, hrun, hold, hcur]
        | none =>
          have hsame := hthread.resolve_right fun hret => hkept ⟨hold, hret⟩
          simp only [switchTarget, hrun, hold, hsame]
      have hpointer : s'.switchTls u = s.switchTls u := by
        simp only [switchTls, hrun, hcur]
      exact .inl ⟨g, htarget.trans hg, by rw [hreturn g hg, htls, hpointer]⟩
    · exact absurd ⟨hnone, hthread.elim (fun hsame => hsame.trans hret) id⟩ hkept

/-- A step of thread `t` in its fiber or its own code. -/
theorem stay (hi : OnePoint opts s fibers returnFiber) (hlt : t < opts.threadCount)
    (hrun : s'.mgr.running = s.mgr.running) (hreturn : s'.mgr.returnFiber = s.mgr.returnFiber)
    (hsaved : s'.mgr.fibers = s.mgr.fibers)
    (hothers : ∀ u, u ≠ t → s'.current u = s.current u ∧ s'.mgr.threads u = s.mgr.threads u)
    (hassigned : s'.assigned = s.assigned) (hnot : s.assigned t = false)
    (hfibers : ∀ f, s.mgr.running t ≠ some f → fibers' f = fibers f)
    (hself : ∀ f, s.mgr.running t = some f → fibers' f = s'.current t) :
    OnePoint opts s' fibers' returnFiber := by
  refine ⟨fun u f hu => ?_, fun u f hu => ?_, fun f hf => ?_, ?_, fun u hu => ?_, fun u hu => ?_⟩
  -- where the executed fibers are
  · rw [hrun] at hu
    by_cases hut : u = t
    · subst hut
      exact hself f hu
    · rw [hfibers f fun ht => hut (hi.alone u t f hu ht), (hothers u hut).1]
      exact hi.current u f hu
  -- where they return to
  · rw [hrun] at hu
    rw [hreturn]
    exact hi.returns u f hu
  -- what is saved
  · rw [hrun] at hf
    rw [hfibers f (hf t), hsaved]
    exact hi.saved f hf
  -- no fiber is executed twice
  · rw [hrun]
    exact hi.alone
  -- the threads that there are not
  · rw [hrun, (hothers u (by omega)).2]
    exact hi.absent u hu
  -- what has been assigned
  · rw [hassigned] at hu
    have hut : u ≠ t := by
      rintro rfl
      cases hnot.symm.trans hu
    exact hi.assigned_of_frame hu (by rw [hrun]) (hothers u hut).1 (.inl (hothers u hut).2)
      fun g _ => by rw [hreturn]

/-- Thread `t` leaves what it executes, and goes on with the fiber `n` or with its own code. -/
theorem move (hi : OnePoint opts s fibers returnFiber) (hlt : t < opts.threadCount)
    {n : Option ℕ} (hrun : s'.mgr.running = Function.update s.mgr.running t n)
    (hreturn : s'.mgr.returnFiber = s.mgr.returnFiber)
    (hsaved : ∀ f, s.mgr.running t ≠ some f → s'.mgr.fibers f = s.mgr.fibers f)
    (hleft : ∀ f, s.mgr.running t = some f → s'.mgr.fibers f = fibers' f)
    (hothers : ∀ u, u ≠ t → s'.current u = s.current u ∧ s'.assigned u = s.assigned u ∧
      (s'.mgr.threads u = s.mgr.threads u ∨ s'.mgr.threads u = .returned))
    (hnot : s'.assigned t = false)
    (hfibers : ∀ f, s.mgr.running t ≠ some f → fibers' f = fibers f)
    (hreturns : ∀ f, n ≠ some f → returnFiber' f = returnFiber f)
    (hnext : ∀ g, n = some g → (∀ u, s.mgr.running u ≠ some g) ∧ s.mgr.fibers g = s'.current t ∧
      returnFiber' g = s.mgr.returnFiber g) : OnePoint opts s' fibers' returnFiber' := by
  have hself : s'.mgr.running t = n := by rw [hrun, Function.update_self]
  have hother : ∀ u, u ≠ t → s'.mgr.running u = s.mgr.running u := fun u hu => by
    rw [hrun, Function.update_of_ne hu]
  -- nobody else executes what the thread goes on with
  have hnew : ∀ u f, u ≠ t → s'.mgr.running u = some f → n ≠ some f := fun u f hu hf hn =>
    (hnext f hn).1 u ((hother u hu).symm.trans hf)
  refine ⟨fun u f hu => ?_, fun u f hu => ?_, fun f hf => ?_, fun u v f hu hv => ?_, fun u hu => ?_,
    fun u hu => ?_⟩
  -- where the executed fibers are
  · by_cases hut : u = t
    · subst hut
      obtain ⟨hfree, hcurrent, -⟩ := hnext f (hself.symm.trans hu)
      rw [hfibers f (hfree u), hi.saved f hfree, hcurrent]
    · have hold := (hother u hut).symm.trans hu
      rw [hfibers f fun ht => hut (hi.alone u t f hold ht), (hothers u hut).1]
      exact hi.current u f hold
  -- where they return to
  · rw [hreturn]
    by_cases hut : u = t
    · subst hut
      exact (hnext f (hself.symm.trans hu)).2.2
    · rw [hreturns f (hnew u f hut hu)]
      exact hi.returns u f ((hother u hut).symm.trans hu)
  -- what is saved
  · by_cases ht : s.mgr.running t = some f
    · exact (hleft f ht).symm
    · rw [hfibers f ht, hsaved f ht]
      refine hi.saved f fun u hu => ?_
      by_cases hut : u = t
      · exact ht (hut ▸ hu)
      · exact hf u ((hother u hut).trans hu)
  -- no fiber is executed twice
  · by_cases hut : u = t <;> by_cases hvt : v = t
    · rw [hut, hvt]
    · exact absurd (hself.symm.trans (hut ▸ hu)) (hnew v f hvt hv)
    · exact absurd (hself.symm.trans (hvt ▸ hv)) (hnew u f hut hu)
    · exact hi.alone u v f ((hother u hut).symm.trans hu) ((hother v hvt).symm.trans hv)
  -- the threads that there are not
  · have hut : u ≠ t := by omega
    obtain ⟨hnone, hret⟩ := hi.absent u hu
    exact ⟨(hother u hut).trans hnone,
      (hothers u hut).2.2.elim (fun hsame => hsame.trans hret) id⟩
  -- what has been assigned
  · have hut : u ≠ t := by
      rintro rfl
      cases hnot.symm.trans hu
    obtain ⟨hcur, hsame, hthread⟩ := hothers u hut
    exact hi.assigned_of_frame (hsame ▸ hu) (hother u hut) hcur hthread fun g _ => by rw [hreturn]

/-- Thread `t` makes the assignments of its `SwitchTo`. -/
theorem assign (hi : OnePoint opts s fibers returnFiber) (hapart : s.SwitchesApart opts t) {g : ℕ}
    (hg : s.switchTarget t = some g) :
    OnePoint opts
      { s with
        mgr := { s.mgr with
          returnFiber := Function.update s.mgr.returnFiber g (s.switchTls t) }
        assigned := Function.update s.assigned t true } fibers returnFiber := by
  refine ⟨hi.current, fun u f hu => ?_, hi.saved, hi.alone, hi.absent, fun u hu => ?_⟩
  · have hfg : f ≠ g := by
      rintro rfl
      exact hi.target_free hapart hg u hu
    exact (hi.returns u f hu).trans (Function.update_of_ne hfg ..).symm
  · by_cases hut : u = t
    · subst hut
      exact .inl ⟨g, hg, Function.update_self ..⟩
    · refine hi.assigned_of_frame (by simpa [hut] using hu) rfl rfl (.inl rfl) fun k hk => ?_
      -- another thread is about to switch to another fiber
      have hkg : k ≠ g := by
        rintro rfl
        exact hut ((hapart k hg u (hi.lt_of_switchTarget hk)).2 hk)
      exact Function.update_of_ne hkg ..

/-- A thread that is not about to switch is not inside `SwitchTo`. -/
theorem not_assigned (hi : OnePoint opts s fibers returnFiber) (hnone : s.switchTarget t = none)
    (hactive : s.mgr.running t = none → s.mgr.threads t ≠ .returned) : s.assigned t = false := by
  by_contra hassigned
  rcases hi.assigned t (by simpa using hassigned) with ⟨g, hg, -⟩ | ⟨hrun, hret⟩
  · rw [hnone] at hg
    cases hg
  · exact hactive hrun hret

/-- The `_returnFiber` has been assigned before `SwitchToFiber`. -/
theorem returnFiber_of_assigned (hi : OnePoint opts s fibers returnFiber)
    (hassigned : s.assigned t = true) {g : ℕ} (hg : s.switchTarget t = some g) :
    s.mgr.returnFiber g = s.switchTls t := by
  rcases hi.assigned t hassigned with ⟨g', hg', htls⟩ | ⟨hrun, hret⟩
  · obtain rfl : g = g' := Option.some.inj (hg.symm.trans hg')
    exact htls
  · simp [switchTarget, hrun, hret, ThreadPc.switchTarget] at hg

end OnePoint

/-- The state of the manager, with one program point for each fiber. -/
def onePoint (s : ContextState) (fibers : ℕ → FiberState) (returnFiber : ℕ → ℕ) : ManagerState :=
  { s.mgr with fibers := fibers, returnFiber := returnFiber }

/-- A step with saved contexts is one of the manager, or leaves it as it is. -/
def Follows (opts : ManagerOptions) (s s' : ContextState) (a : ManagerAction)
    (fibers : ℕ → FiberState) (returnFiber : ℕ → ℕ) : Prop :=
  s'.onePoint fibers returnFiber = s.onePoint fibers returnFiber ∧
    OnePoint opts s' fibers returnFiber ∨
  ∃ fibers' returnFiber', managerStep opts (s.onePoint fibers returnFiber) a =
    some (s'.onePoint fibers' returnFiber') ∧ OnePoint opts s' fibers' returnFiber'

namespace OnePoint

variable {opts : ManagerOptions} {s s' : ContextState} {a : ManagerAction} {act : Act}
  {fibers : ℕ → FiberState} {returnFiber : ℕ → ℕ}

/-- A step of a fiber. -/
theorem fiber_step (hi : OnePoint opts s fibers returnFiber)
    (hapart : s.SwitchesApart opts a.thread) {f : ℕ} {pc : FiberPc}
    (hrun : s.mgr.running a.thread = some f)
    (hn : (s.current a.thread).pc.next opts s.mgr f ((s.current a.thread).currentTLS a.thread)
      a.choice = some (act, pc)) :
    Follows opts s
      (s.fiberAct a.thread f ⟨(s.current a.thread).currentTLS a.thread, pc⟩ act) a fibers
      returnFiber := by
  have hlt := hi.lt_of_running hrun
  have hstep := fiberStep_of_next hn
  have htarget : s.switchTarget a.thread = (s.current a.thread).pc.switchTarget := by
    simp only [switchTarget, hrun]
  have hactive : s.mgr.running a.thread = none → s.mgr.threads a.thread ≠ .returned := by
    intro hnone
    cases hrun.symm.trans hnone
  -- the same step, with the point of the fiber that the thread executes
  have hmanager : managerStep opts (s.onePoint fibers returnFiber) a =
      some (((s.onePoint fibers returnFiber).apply a.thread f act).setFiber f
        ⟨(s.current a.thread).currentTLS a.thread, pc⟩) := by
    have hcur := hi.current a.thread f hrun
    have hrun' : (s.onePoint fibers returnFiber).running a.thread = some f := hrun
    have hfiber : (s.onePoint fibers returnFiber).fibers f = s.current a.thread := hcur
    simp only [managerStep, hrun', hfiber]
    rw [onePoint, FiberPc.next_congr, hn]
    rfl
  generalize htls : (s.current a.thread).currentTLS a.thread = tls at hn hstep hmanager ⊢
  have hother : ∀ (points : ℕ → FiberState) (k : ℕ), s.mgr.running a.thread ≠ some k →
      Function.update points f ⟨tls, pc⟩ k = points k := fun points k hk =>
    Function.update_of_ne (by rintro rfl; exact hk hrun) ..
  have hself : ∀ (points : ℕ → FiberState) (k : ℕ), s.mgr.running a.thread = some k →
      Function.update points f ⟨tls, pc⟩ k = ⟨tls, pc⟩ := fun points k hk => by
    obtain rfl : f = k := Option.some.inj (hrun.symm.trans hk)
    exact Function.update_self ..
  have hleft : ∀ k, s.mgr.running a.thread = some k →
      Function.update s.mgr.fibers f ⟨tls, pc⟩ k = Function.update fibers f ⟨tls, pc⟩ k :=
    fun k hk => (hself _ k hk).trans (hself _ k hk).symm
  rcases hstep.moves_cases with hstay | ⟨g, rfl, hg, -⟩ | ⟨rfl, -⟩
  · -- it stays in its fiber
    have hnone : s.switchTarget a.thread = none :=
      htarget.trans (hstep.switchTarget_eq_none fun g hact => by cases hact ▸ hstay)
    obtain ⟨hthreads, hreturn⟩ := s.mgr.apply_of_stays (t := a.thread) (f := f) hstay
    rw [fiberAct_of_stays hstay]
    refine .inr ⟨Function.update fibers f ⟨tls, pc⟩, returnFiber, ?_, ?_⟩
    · rw [hmanager, onePoint, ManagerState.apply_congr hstay]
      rfl
    · refine hi.stay hlt (s.mgr.apply_running hstay) hreturn (s.mgr.apply_fibers ..)
        (fun u hu => ⟨Function.update_of_ne hu .., by rw [hthreads]⟩) rfl
        (hi.not_assigned hnone hactive) (hother fibers) fun k hk => ?_
      exact (hself fibers k hk).trans (Function.update_self a.thread _ s.current).symm
  · have htarget' := htarget.trans hg
    have hpointer : s.switchTls a.thread = tls := by
      rw [← htls, FiberState.currentTLS_of_switchTarget hg]
      simp only [switchTls, hrun]
    have hfree := hi.target_free hapart htarget'
    have hgf : g ≠ f := fun hgf => hfree a.thread (hgf ▸ hrun)
    simp only [fiberAct, ContextState.switchTo]
    split
    · next hassigned =>
      -- `SwitchToFiber`
      refine .inr ⟨Function.update fibers f ⟨tls, pc⟩, Function.update returnFiber g tls, ?_, ?_⟩
      · rw [hmanager]
        rfl
      · refine hi.move hlt (n := some g) rfl rfl (hother s.mgr.fibers) hleft (fun u hu =>
          ⟨Function.update_of_ne hu .., Function.update_of_ne hu .., .inl rfl⟩)
          (Function.update_self ..) (hother fibers) (fun k hk => Function.update_of_ne ?_ ..) ?_
        · rintro rfl
          exact hk rfl
        · rintro k ⟨⟩
          refine ⟨hfree, ?_, ?_⟩
          · simp [hgf]
          · rw [Function.update_self, hi.returnFiber_of_assigned hassigned htarget', hpointer]
    · -- the assignments
      refine .inl ⟨rfl, ?_⟩
      rw [← hpointer]
      exact hi.assign hapart htarget'
  · -- `SwitchBack`
    have hnone : s.switchTarget a.thread = none :=
      htarget.trans (hstep.switchTarget_eq_none fun g hact => by cases hact)
    refine .inr ⟨Function.update fibers f ⟨tls, pc⟩, returnFiber, ?_, ?_⟩
    · rw [hmanager]
      simp only [fiberAct, onePoint, ManagerState.apply, ManagerState.setFiber,
        hi.returns a.thread f hrun]
    · refine hi.move hlt (n := none) rfl rfl (hother s.mgr.fibers) hleft (fun u _ => ⟨rfl, rfl, ?_⟩)
        (hi.not_assigned hnone hactive) (hother fibers) (fun k _ => rfl) (by simp)
      exact s.mgr.apply_threads a.thread f .switchBack u

/-- A step of a thread's own code. -/
theorem thread_step (hi : OnePoint opts s fibers returnFiber)
    (hapart : s.SwitchesApart opts a.thread) {pc : ThreadPc}
    (hrun : s.mgr.running a.thread = none)
    (hn : (s.mgr.threads a.thread).next opts s.mgr a.thread a.choice = some (act, pc)) :
    Follows opts s (s.threadAct a.thread pc act) a fibers returnFiber := by
  have hstep := threadStep_of_next hn
  have htarget : s.switchTarget a.thread = (s.mgr.threads a.thread).switchTarget := by
    simp only [switchTarget, hrun]
  have hactive : s.mgr.running a.thread = none → s.mgr.threads a.thread ≠ .returned := by
    rintro - hret
    rw [hret] at hn
    cases hn
  have hlt : a.thread < opts.threadCount := by
    by_contra hge
    exact hactive hrun (hi.absent a.thread (by omega)).2
  have hmanager : managerStep opts (s.onePoint fibers returnFiber) a =
      some
        (((s.onePoint fibers returnFiber).apply a.thread noFiber act).setThread a.thread pc) := by
    have hrun' : (s.onePoint fibers returnFiber).running a.thread = none := hrun
    simp only [managerStep, hrun']
    rw [onePoint, ThreadPc.next_congr, hn]
    rfl
  have hnever : ∀ k, s.mgr.running a.thread ≠ some k := fun k hk => by
    cases hrun.symm.trans hk
  rcases hstep.moves_cases with hstay | ⟨g, rfl, hg⟩
  · have hnone : s.switchTarget a.thread = none :=
      htarget.trans (hstep.switchTarget_eq_none fun g hact => by cases hact ▸ hstay)
    obtain ⟨hthreads, hreturn⟩ := s.mgr.apply_of_stays (t := a.thread) (f := noFiber) hstay
    rw [threadAct_of_stays hstay]
    refine .inr ⟨fibers, returnFiber, ?_, ?_⟩
    · rw [hmanager, onePoint, ManagerState.apply_congr hstay]
      rfl
    · refine hi.stay hlt (s.mgr.apply_running hstay) hreturn (s.mgr.apply_fibers ..)
        (fun u hu => ⟨rfl, ?_⟩) rfl (hi.not_assigned hnone hactive) (fun _ _ => rfl)
        fun k hk => absurd hk (hnever k)
      rw [ManagerState.setThread_threads, Function.update_of_ne hu, hthreads]
  · have htarget' := htarget.trans hg
    have hpointer : s.switchTls a.thread = a.thread := by simp only [switchTls, hrun]
    simp only [threadAct, ContextState.switchTo]
    split
    · next hassigned =>
      refine .inr ⟨fibers, Function.update returnFiber g a.thread, ?_, ?_⟩
      · rw [hmanager]
        rfl
      · refine hi.move hlt (n := some g) rfl rfl (fun _ _ => rfl) (fun k hk => absurd hk (hnever k))
          (fun u hu => ⟨Function.update_of_ne hu .., Function.update_of_ne hu ..,
            .inl (Function.update_of_ne hu ..)⟩)
          (Function.update_self ..) (fun _ _ => rfl) (fun k hk => Function.update_of_ne ?_ ..) ?_
        · rintro rfl
          exact hk rfl
        · rintro k ⟨⟩
          refine ⟨hi.target_free hapart htarget', by simp, ?_⟩
          rw [Function.update_self, hi.returnFiber_of_assigned hassigned htarget', hpointer]
    · have hassign := hi.assign hapart htarget'
      rw [hpointer] at hassign
      exact .inl ⟨rfl, hassign⟩

/-- Every step follows the manager, while the switches do not meet. -/
theorem step (hi : OnePoint opts s fibers returnFiber) (hapart : s.SwitchesApart opts a.thread)
    (hs : contextStep opts s a = some s') : Follows opts s s' a fibers returnFiber := by
  rw [contextStep] at hs
  cases hrun : s.mgr.running a.thread with
  | some f =>
    simp only [hrun, Option.map_eq_some_iff, Prod.exists] at hs
    obtain ⟨act, pc, hn, rfl⟩ := hs
    exact hi.fiber_step hapart hrun hn
  | none =>
    simp only [hrun, Option.map_eq_some_iff, Prod.exists] at hs
    obtain ⟨act, pc, hn, rfl⟩ := hs
    exact hi.thread_step hapart hrun hn

/-- Where the fibers are. -/
theorem fiber_eq (hi : OnePoint opts s fibers returnFiber) (f : ℕ) : s.fiber opts f = fibers f := by
  rw [ContextState.fiber]
  cases hfind : (List.range opts.threadCount).find? fun t => s.mgr.running t = some f with
  | some t =>
    have hrun : s.mgr.running t = some f := by simpa using List.find?_some hfind
    exact (hi.current t f hrun).symm
  | none =>
    refine (hi.saved f fun t hrun => ?_).symm
    have hnot := List.find?_eq_none.mp hfind t (List.mem_range.mpr (hi.lt_of_running hrun))
    exact hnot (by simpa using hrun)

/-- The state with one program point for each fiber. -/
theorem onePoint_eq (hi : OnePoint opts s fibers returnFiber) :
    s.onePoint fibers returnFiber = { s.manager opts with returnFiber := returnFiber } := by
  rw [ContextState.onePoint, ContextState.manager, funext hi.fiber_eq]

/-- What a thread is about to switch to. -/
theorem switchTarget_eq (hi : OnePoint opts s fibers returnFiber) (t : ℕ) :
    (s.onePoint fibers returnFiber).switchTarget t = s.switchTarget t := by
  have hrun' : (s.onePoint fibers returnFiber).running t = s.mgr.running t := rfl
  rw [ManagerState.switchTarget, ContextState.switchTarget, hrun']
  cases hrun : s.mgr.running t with
  | some f => exact congrArg (fun fiber => fiber.pc.switchTarget) (hi.current t f hrun)
  | none => rfl

end OnePoint

end ContextState

/-- A thread goes on with the fiber that it has executed, or with what it was about to switch to;
and only what is saved for the former changes. -/
theorem contextStep_moves {opts : ManagerOptions} {s s' : ContextState} {a : ManagerAction}
    (hs : contextStep opts s a = some s') :
    (∀ u f, s'.mgr.running u = some f →
      s.mgr.running u = some f ∨ s.switchTarget a.thread = some f) ∧
    ∀ f, s.mgr.running a.thread ≠ some f → s'.mgr.fibers f = s.mgr.fibers f := by
  -- `SwitchTo` with either way to save the place
  have hswitch : ∀ tls g (save : ManagerState → ManagerState),
      (∀ m : ManagerState, (save m).running = m.running) → s.switchTarget a.thread = some g →
      ∀ u f, (s.switchTo a.thread tls g save).mgr.running u = some f →
        s.mgr.running u = some f ∨ s.switchTarget a.thread = some f := by
    intro tls g save hsave hg u f hu
    rw [ContextState.switchTo] at hu
    split at hu
    · simp only [hsave] at hu
      by_cases hut : u = a.thread
      · rw [hut, Function.update_self] at hu
        exact .inr (hg.trans hu)
      · rw [Function.update_of_ne hut] at hu
        exact .inl hu
    · exact .inl hu
  rw [contextStep] at hs
  cases hrun : s.mgr.running a.thread with
  | some k =>
    simp only [hrun, Option.map_eq_some_iff, Prod.exists] at hs
    obtain ⟨act, pc, hn, rfl⟩ := hs
    have hkept : ∀ (fiber : FiberState) (f : ℕ), some k ≠ some f →
        Function.update s.mgr.fibers k fiber f = s.mgr.fibers f := fun fiber f hf =>
      Function.update_of_ne (fun hfk => hf (by rw [hfk])) ..
    rcases (fiberStep_of_next hn).moves_cases with hstay | ⟨g, rfl, hg, -⟩ | ⟨rfl, -⟩
    · rw [ContextState.fiberAct_of_stays hstay]
      exact ⟨fun u f hu => .inl ((congrFun (s.mgr.apply_running hstay) u).symm.trans hu),
        fun f _ => congrFun (s.mgr.apply_fibers ..) f⟩
    · refine ⟨hswitch _ g _ (fun _ => rfl) ?_, fun f hf => ?_⟩
      · simp only [ContextState.switchTarget, hrun, hg]
      · simp only [ContextState.fiberAct, ContextState.switchTo]
        split
        · exact hkept _ f hf
        · rfl
    · refine ⟨fun u f hu => ?_, fun f hf => hkept _ f hf⟩
      have hu' : Function.update s.mgr.running a.thread none u = some f := hu
      by_cases hut : u = a.thread
      · rw [hut, Function.update_self] at hu'
        cases hu'
      · rw [Function.update_of_ne hut] at hu'
        exact .inl hu'
  | none =>
    simp only [hrun, Option.map_eq_some_iff, Prod.exists] at hs
    obtain ⟨act, pc, hn, rfl⟩ := hs
    rcases (threadStep_of_next hn).moves_cases with hstay | ⟨g, rfl, hg⟩
    · rw [ContextState.threadAct_of_stays hstay]
      exact ⟨fun u f hu => .inl ((congrFun (s.mgr.apply_running hstay) u).symm.trans hu),
        fun f _ => congrFun (s.mgr.apply_fibers ..) f⟩
    · refine ⟨hswitch _ g _ (fun _ => rfl) ?_, fun f _ => ?_⟩
      · simp only [ContextState.switchTarget, hrun, hg]
      · simp only [ContextState.threadAct, ContextState.switchTo]
        split <;> rfl

/-! ## Runs -/

/-- The manager is, but for the `_returnFiber` of fibers that no thread executes, in the state that
has one program point for each fiber. -/
def ContextState.Simulates (opts : ManagerOptions) (s : ContextState) (m : ManagerState) : Prop :=
  ∃ fibers returnFiber, m = s.onePoint fibers returnFiber ∧ s.OnePoint opts fibers returnFiber

namespace ContextState.Simulates

variable {opts : ManagerOptions} {s : ContextState} {m : ManagerState}

theorem eq_manager (h : s.Simulates opts m) :
    m = { s.manager opts with returnFiber := m.returnFiber } := by
  obtain ⟨fibers, returnFiber, rfl, hi⟩ := h
  exact hi.onePoint_eq

/-- A fiber that a thread executes is where the thread is. -/
theorem fiber_of_running (h : s.Simulates opts m) {t f : ℕ} (hrun : s.mgr.running t = some f) :
    m.running t = some f ∧ m.fibers f = s.current t := by
  obtain ⟨fibers, returnFiber, rfl, hi⟩ := h
  exact ⟨hrun, hi.current t f hrun⟩

/-- The switches meet in both or in neither. -/
theorem switchesApart_iff (h : s.Simulates opts m) (t : ℕ) :
    m.SwitchesApart opts t ↔ s.SwitchesApart opts t := by
  obtain ⟨fibers, returnFiber, rfl, hi⟩ := h
  simp only [ManagerState.SwitchesApart, SwitchesApart, hi.switchTarget_eq]
  rfl

end ContextState.Simulates

section Run

variable {opts : ManagerOptions} {M : System ManagerState ManagerAction}
  {ok : History ContextState ManagerAction → ContextState → ManagerAction → Prop}
  {ok' : History ManagerState ManagerAction → ManagerState → ManagerAction → Prop}
  {h : History ContextState ManagerAction} {s : ContextState}

/-- In every run whose switches do not meet, the manager with saved contexts is one with a program
point for each fiber: a run of the latter leads to the same state. `ok'` is any condition on the
steps of the latter that follows from the condition `ok` on those of the former. -/
theorem simulates_of_run (hstep : M.step = managerStep opts)
    (hinit : ∀ m, M.init m → ∀ u, m.running u = none ∧
      (opts.threadCount ≤ u → m.threads u = .returned))
    (hok : ∀ h s a h' m, ok h s a → M.Run ok' h' m → s.Simulates opts m →
      s.SwitchesApart opts a.thread ∧ ok' h' m a)
    (hr : (contextSystem opts M).Run ok h s) : ∃ h' m, M.Run ok' h' m ∧ s.Simulates opts m := by
  refine hr.simulate (fun s m => s.Simulates opts m) (fun s hs => ?_) ?_
  · obtain ⟨m, hm, rfl⟩ := hs
    refine ⟨m, hm, m.fibers, m.returnFiber, rfl, ⟨fun t f hrun => ?_, fun _ _ _ => rfl,
      fun _ _ => rfl, fun t u f hrun _ => ?_, fun u hu => ⟨(hinit m hm u).1, (hinit m hm u).2 hu⟩,
      fun t hassigned => ?_⟩⟩
    · cases (hinit m hm t).1.symm.trans hrun
    · cases (hinit m hm t).1.symm.trans hrun
    · cases hassigned
  · intro h h' s m a s' hrun hsim hmet hs
    obtain ⟨hapart, hmet'⟩ := hok h s a h' m hmet hrun hsim
    obtain ⟨fibers, returnFiber, rfl, hi⟩ := hsim
    rcases hi.step hapart hs with ⟨hsame, hi'⟩ | ⟨fibers', returnFiber', hm, hi'⟩
    · exact .inl ⟨fibers, returnFiber, hsame.symm, hi'⟩
    · exact .inr ⟨a, _, hmet', (congrFun (congrFun hstep _) a).trans hm, fibers', returnFiber', rfl,
        hi'⟩

/-- The runs of `managerSystem` begin without a fiber on a thread. -/
theorem managerSystem_init {m : ManagerState} (hm : (managerSystem opts).init m) (u : ℕ) :
    m.running u = none ∧ (opts.threadCount ≤ u → m.threads u = .returned) := by
  obtain rfl : m = .start opts := hm
  exact ⟨rfl, fun hu => by simp [ManagerState.start, Nat.not_lt.mpr hu]⟩

/-- In a run that is orderly in the state with one program point for each fiber, the switches do not
meet, so that it is an orderly run of the manager. -/
theorem simulates_of_orderly
    (hr : (contextSystem opts (managerSystem opts)).Run
      (fun _ s a => Orderly [] (s.manager opts) a) h s) :
    ∃ h' m, (managerSystem opts).Run Orderly h' m ∧ s.Simulates opts m := by
  refine simulates_of_run rfl (fun m hm => managerSystem_init hm) ?_ hr
  intro h s a h' m hok hrun hsim
  refine ⟨(hsim.switchesApart_iff a.thread).mp ((managerInv_of_run hrun).switchesApart _ _), ?_⟩
  rw [hsim.eq_manager]
  exact hok

end Run

end NomadTasks
