import NomadTasks.Manager.Flags

/-!
# Orderly runs

`GetNextJob` keeps the `TLS` pointer of the thread that has called it while its fiber is parked.
When another thread resumes the fiber, the call goes on with the wrong `TLS`. A run is orderly when
that does not happen, and neither does a stale claim on a counter, nor a step on a `TinyCounter`
that is gone.

* `Orderly`: the condition on the steps of a run.
* `Apart`: a weaker one, that no fiber is switched to from two sides.
* `managerInv_of_run`: in every orderly run, every fiber is in one place, and every flag lives as
  long as it is referred to.
-/

namespace NomadTasks

open Transition

/-! ## The condition -/

/-- The fiber that the next step switches to. -/
def FiberPc.switchTarget : FiberPc → Option ℕ
  | .getNextJob (.switchTo g) | .waitForCounter _ _ _ _ (.switchTo _ g) | .mainSwitchTo g => some g
  | _ => none

/-- The fiber that the next step of a thread's own code switches to. -/
def ThreadPc.switchTarget : ThreadPc → Option ℕ
  | .switchTo g => some g
  | _ => none

namespace ManagerState

/-- The fiber that the next step of thread `t` switches to. -/
def switchTarget (s : ManagerState) (t : ℕ) : Option ℕ :=
  match s.running t with
  | some f => (s.fibers f).pc.switchTarget
  | none => (s.threads t).switchTarget

/-- The next step of thread `t` does not switch to a fiber that a thread executes, or that another
thread is about to switch to. -/
def SwitchesApart (opts : ManagerOptions) (s : ManagerState) (t : ℕ) : Prop :=
  ∀ g ∈ s.switchTarget t, ∀ u < opts.threadCount,
    s.running u ≠ some g ∧ (s.switchTarget u = some g → u = t)

instance (opts : ManagerOptions) (s : ManagerState) (t : ℕ) : Decidable (s.SwitchesApart opts t) :=
  inferInstanceAs (Decidable (∀ g ∈ s.switchTarget t, _))

/-- The counter and the call that the next step of thread `t` works on. -/
def counterCall (s : ManagerState) (t : ℕ) : Option (CtrId × ℕ) :=
  match s.running t with
  | some f =>
      match (s.fibers f).pc with
      | .call _ c x => if ((s.counters c).calls x).inProgress then some (c, x) else none
      | _ => none
  | none => none

end ManagerState

/-- The step resumes a fiber inside a `GetNextJob` that it has called on another thread. -/
def resumesElsewhere (s : ManagerState) (a : ManagerAction) : Bool :=
  match s.switchTarget a.thread with
  | some g => decide ((s.fibers g).pc = .getNextJob .parked) && (s.fibers g).tls != a.thread
  | none => false

/-- The step is the last exchange of an `AddWaitingFiber`, and takes a registration that is not its
own. -/
def claimsStale (s : ManagerState) (a : ManagerAction) : Bool :=
  match s.counterCall a.thread with
  | some (c, x) => staleClaim (s.counters c) (.step x)
  | none => false

/-- The `WaitForSingle` call has ended, and its `TinyCounter` is gone. -/
def SingleCall.ended : SingleCall → Bool
  | .returned _ | .threw => true
  | _ => false

/-- The step is one of a call on a `TinyCounter` that is gone. What it does to whatever is in that
storage by then is not modelled. -/
def usesDeadCounter (s : ManagerState) (a : ManagerAction) : Bool :=
  match s.counterCall a.thread with
  | some (.tiny n, _) => (s.singles n).ended
  | _ => false

/-- The condition of a run. -/
def Orderly (_ : History ManagerState ManagerAction) (s : ManagerState) (a : ManagerAction) :
    Prop :=
  resumesElsewhere s a = false ∧ claimsStale s a = false ∧ usesDeadCounter s a = false

instance (h : History ManagerState ManagerAction) (s : ManagerState) (a : ManagerAction) :
    Decidable (Orderly h s a) :=
  inferInstanceAs (Decidable (_ ∧ _ ∧ _))

/-- The switches of the run do not meet: no step switches to a fiber that a thread executes, or that
another thread is about to switch to. -/
def Apart (opts : ManagerOptions) (_ : History ManagerState ManagerAction) (s : ManagerState)
    (a : ManagerAction) : Prop :=
  s.SwitchesApart opts a.thread

instance (opts : ManagerOptions) (h : History ManagerState ManagerAction) (s : ManagerState)
    (a : ManagerAction) : Decidable (Apart opts h s a) :=
  inferInstanceAs (Decidable (s.SwitchesApart opts a.thread))

/-! ## What a step does -/

/-- What is switched to has been taken before. -/
theorem FiberPc.reserved_of_switchTarget {pc : FiberPc} {g : ℕ} (h : pc.switchTarget = some g) :
    pc.reserved = some g := by
  cases pc with
  | getNextJob pc => cases pc <;> first | exact h | cases h
  | waitForCounter ctx caller c v pc => cases pc <;> first | exact h | cases h
  | mainSwitchTo => exact h
  | _ => cases h

theorem ThreadPc.reserved_of_switchTarget {pc : ThreadPc} {g : ℕ} (h : pc.switchTarget = some g) :
    pc.reserved = some g := by
  cases pc with
  | switchTo => exact h
  | _ => cases h

section Step

variable {opts : ManagerOptions} {s : ManagerState} {t f : ℕ} {act : Act} {pc pc' : FiberPc}

/-- A step of a fiber stays on its thread, or switches to another fiber, or back to the thread. -/
theorem FiberStep.switch_cases (h : FiberStep opts s f t pc act pc') :
    pc' ≠ .start ∧
      (act.localTo t = true ∨
        (∃ g, act = .switchTo t g ∧ pc.switchTarget = some g ∧
          ∀ b, pc'.stage b = .received → pc'.resumable = true) ∨
        (act = .switchBack ∧ pc' = .ended)) := by
  cases h with
  | nextSwitchTo => exact ⟨by simp, .inr (.inl ⟨_, rfl, rfl, fun _ _ => rfl⟩)⟩
  | waitSwitchTo => exact ⟨by simp, .inr (.inl ⟨_, rfl, rfl, fun _ _ => rfl⟩)⟩
  | mainSwitchTo => exact ⟨by simp, .inr (.inl ⟨_, rfl, rfl, fun _ hst => by cases hst⟩)⟩
  | switchBack => exact ⟨by simp, .inr (.inr ⟨rfl, rfl⟩)⟩
  | _ => exact ⟨by simp, .inl (by simp [Act.localTo])⟩

/-- The step of a fiber on a counter is that of its call. -/
theorem FiberStep.counterCall_of_step (h : FiberStep opts s f t pc act pc') {c : CtrId} {x : ℕ}
    (hact : act = .counter c (.step x)) :
    (∃ use, pc = .call use c x) ∧ ((s.counters c).calls x).inProgress = true := by
  subst hact
  generalize hb : Act.counter c (.step x) = act at h
  cases h with
  | call hx =>
    cases hb
    exact ⟨⟨_, rfl⟩, hx⟩
  | @«begin» use c' x' hx =>
    cases use <;> cases hb
  | _ => cases hb

end Step

/-! ## The invariant -/

/-- What holds in every orderly run. -/
structure ManagerInv (s : ManagerState) : Prop where
  own : OwnInv s
  flag : FlagInv s

/-- A fiber that can be switched to uses the `TLS` of the thread that switches to it, unless it is
inside a `GetNextJob` called on another thread. -/
theorem currentTLS_of_resumable {s : ManagerState} {a : ManagerAction} {g : ℕ}
    (htarget : s.switchTarget a.thread = some g) (hhere : resumesElsewhere s a = false)
    (hres : (s.fibers g).pc.resumable = true) : (s.fibers g).currentTLS a.thread = a.thread := by
  simp only [resumesElsewhere, htarget, Bool.and_eq_false_iff, decide_eq_false_iff_not,
    bne_eq_false_iff_eq] at hhere
  rw [FiberState.currentTLS]
  cases hpc : (s.fibers g).pc with
  | start => rfl
  | getNextJob pc =>
    cases pc with
    | parked => simpa [hpc, FiberPc.getsCurrentTLS] using hhere
    | _ => rw [hpc] at hres; cases hres
  | waitForCounter ctx caller c v pc =>
    cases pc with
    | parked => rfl
    | _ => rw [hpc] at hres; cases hres
  | _ => rw [hpc] at hres; cases hres

/-- What a thread is about to switch to is nowhere else: the switches do not meet. -/
theorem ManagerInv.switchesApart {s : ManagerState} (hi : ManagerInv s) (opts : ManagerOptions)
    (t : ℕ) : s.SwitchesApart opts t := by
  -- the fiber is with what the thread executes
  have hplace : ∀ {u g}, s.switchTarget u = some g →
      s.holds ((s.running u).elim (.thread u) .fiber) = some g := by
    intro u g hg
    rw [ManagerState.switchTarget] at hg
    cases hrun : s.running u with
    | some f =>
      rw [hrun] at hg
      exact FiberPc.reserved_of_switchTarget hg
    | none =>
      rw [hrun] at hg
      exact ThreadPc.reserved_of_switchTarget hg
  intro g hg u _
  refine ⟨fun hu => ?_, fun hu => ?_⟩
  · have hsame := hi.own.exclusive _ _ _ (show s.holds (.run u) = some g from hu) (hplace hg)
    cases hrun : s.running t <;> rw [hrun] at hsame <;> cases hsame
  · have hsame := hi.own.exclusive _ _ _ (hplace hu) (hplace hg)
    cases ht : s.running t <;> cases hu' : s.running u <;> rw [ht, hu'] at hsame <;>
      simp only [Option.elim_none, Option.elim_some, Place.thread.injEq, Place.fiber.injEq,
        reduceCtorEq] at hsame
    · exact hsame
    · exact hi.own.run_unique hu' (hsame ▸ ht)

/-- Every orderly step keeps the invariant. -/
theorem ManagerInv.step {opts : ManagerOptions} {s s' : ManagerState} {a : ManagerAction}
    (hi : ManagerInv s) (hhere : resumesElsewhere s a = false) (hfresh : claimsStale s a = false)
    (hs : managerStep opts s a = some s') : ManagerInv s' := by
  rcases managerStep_inv hs with
    ⟨f, pc, act, pc', hrun, rfl, h, rfl⟩ | ⟨pc, act, pc', hrun, rfl, h, rfl⟩
  · rw [hi.own.onThread a.thread f hrun] at h ⊢
    obtain ⟨hstart, hlocal | ⟨g, rfl, htarget, hparked⟩ | ⟨rfl, rfl⟩⟩ := h.switch_cases
    -- the call that the step makes is the one that `claimsStale` looks at
    · have hstale : act.NotStale s := by
        intro c x hact
        obtain ⟨⟨use, hpc⟩, hx⟩ := h.counterCall_of_step hact
        simpa [claimsStale, ManagerState.counterCall, hrun, hpc, hx] using hfresh
      refine ⟨hi.own.local_step hrun (h.stageStep (hi.own.not_gone hrun)) hlocal hstart
        (fun k hact => ?_) fun hact => (hi.flag.stored hrun h hi.own hact).1,
        hi.flag.local_step hi.own hrun h hlocal hstale⟩
      exact hi.flag.erased hrun h hact
    · have hplace : s.holds (.fiber f) = some g := FiberPc.reserved_of_switchTarget htarget
      -- the fiber is resumed on the thread whose `TLS` it has read
      have hcur := currentTLS_of_resumable (by rw [ManagerState.switchTarget, hrun]; exact htarget)
        hhere (hi.own.resumable _ g rfl hplace)
      exact ⟨hi.own.switch_step hrun (h.stageStep (hi.own.not_gone hrun)) hstart
        (hparked (s.mainCallback f)) hcur, hi.flag.switch_step hi.own hrun h⟩
    · exact ⟨hi.own.switchBack_step hrun, hi.flag.switchBack_step hi.own hrun⟩
  · refine ⟨hi.own.thread_step hrun h fun g hact => ?_, hi.flag.thread_step hi.own hrun h⟩
    subst hact
    have hpc : s.threads a.thread = .switchTo g := by
      generalize s.threads a.thread = pc₀ at h
      cases h
      rfl
    have hplace : s.holds (.thread a.thread) = some g := by
      simp [ManagerState.holds, hpc, ThreadPc.reserved]
    exact currentTLS_of_resumable (by simp [ManagerState.switchTarget, hrun, hpc,
      ThreadPc.switchTarget]) hhere (hi.own.resumable _ g rfl hplace)

/-- Before the first thread runs, all fibers are idle. -/
theorem ManagerInv.start (opts : ManagerOptions) : ManagerInv (.start opts) where
  own := by
    -- every fiber is idle, and no thread or fiber has one reserved
    have hidle : ∀ l k, (ManagerState.start opts).holds l = some k → l = .idle k := by
      intro l k hk
      cases l with
      | idle f =>
        simp only [ManagerState.holds, Option.ite_none_right_eq_some, Option.some.injEq] at hk
        rw [hk.2]
      | thread t =>
        by_cases ht : t < opts.threadCount <;>
          simp [ManagerState.holds, ManagerState.start, ht, ThreadPc.reserved] at hk
      | run | fiber | handoff | stored => cases hk
    refine ⟨fun l l' k hl hl' => (hidle l k hl).trans (hidle l' k hl').symm, fun _ _ _ _ => rfl,
      fun t f hrun => ?_, fun t f hrun => ?_, fun t f hrun => ?_, fun t f hrun => ?_,
      fun t _ => ?_, fun f hmain => ?_⟩
    · cases hrun
    · cases hrun
    · cases hrun
    · cases hrun
    · by_cases ht : t < opts.threadCount <;> simp [ManagerState.start, ht, ThreadPc.TlsOk]
    · cases hmain
  flag := by
    refine ⟨⟨fun c => .idle c.slots, fun t g p hp => ?_, fun _ => List.nodup_nil,
      fun t u g h p hp _ => ?_, fun c a reg hreg _ _ => ?_⟩, fun _ => trivial,
      fun t f hrun _ _ => ?_, fun t f k g hrun _ => ?_⟩
    · cases hp
    · cases hp
    · cases hreg
    · cases hrun
    · cases hrun

/-- In every orderly run, every fiber is in one place, and flags live as long as they must. -/
theorem managerInv_of_run {opts : ManagerOptions} {h : History ManagerState ManagerAction}
    {s : ManagerState} (hr : (managerSystem opts).Run Orderly h s) : ManagerInv s := by
  refine hr.invariant (P := fun _ s => ManagerInv s) (fun s hs => ?_)
    fun _ _ _ _ _ hi hok hs => hi.step hok.1 hok.2.1 hs
  obtain rfl : s = .start opts := hs
  exact .start opts

end NomadTasks
