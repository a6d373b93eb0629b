import NomadTasks.Manager.Exclusive
import NomadTasks.Manager.Indices

/-!
# `Run` executes the main callback

The main thread takes a fiber from the pool, sets its callback to `FiberCallback_Main` and switches
to it. The callback counts only when the fiber starts. But the worker threads run already, and when
a job of theirs has waited, the pool holds a fiber that has started before.

* `loadedSystem`: the manager with jobs that are scheduled before `Run`.
* `main_runs`: the fiber of the main thread has not started, and the main callback is called once,
  if the main thread does not take a fiber that has been put back into the pool, and the switches do
  not meet.
* `main_not_run`: else it may never be called.
-/

namespace NomadTasks

open Transition

/-! ## Jobs before `Run` -/

/-- The state that `Run` has prepared when the first thread is spawned, if `jobs` are in the queues:
`ScheduleJob` has incremented their counters, for which no fiber waits yet. -/
def ManagerState.loaded (opts : ManagerOptions) (jobs : JobPriority → List JobInfo)
    (values : CtrId → CounterUnit) : ManagerState :=
  { ManagerState.start opts with
    jobs := jobs
    counters := fun c => .idle { BaseCounter.construct c.slots with counter := values c } }

/-- The manager from the start of `Run` on, with any jobs scheduled before. -/
def loadedSystem (opts : ManagerOptions) : System ManagerState ManagerAction where
  init s := ∃ jobs values, s = .loaded opts jobs values
  step := managerStep opts

/-! ## The main callback -/

namespace ManagerState

/-- The fiber that the next step of thread `t` puts back into the pool. -/
def putsBack (s : ManagerState) (t : ℕ) : Option ℕ :=
  match s.running t with
  | some f =>
      match (s.fibers f).pc with
      | .cleanup .storeIdle _ => some (s.tls ((s.fibers f).currentTLS t)).previousFiberIndex
      | _ => none
  | none => none

/-- The fiber that a step of `Run` takes from the pool. -/
def mainTakes (s : ManagerState) (a : ManagerAction) : Option ℕ :=
  match s.running a.thread, s.threads a.thread with
  | none, .findFree (.casIdle g) =>
      if a.thread = 0 ∧ a.choice = .succeed ∧ s.idleFibers g = true then some g else none
  | _, _ => none

/-- The next step of thread `t` calls the main callback. -/
def callsMain (s : ManagerState) (t : ℕ) : Bool :=
  match s.running t with
  | some f => s.mainCallback f && decide ((s.fibers f).pc = .start)
  | none => false

/-- `Run` has switched to the main fiber. -/
def mainSwitched (s : ManagerState) : Bool :=
  match s.threads 0 with
  | .inFiber | .returned => true
  | _ => false

end ManagerState

/-- The fiber that `FindFreeFiber` has returned to `Run` has not started; and when `Run` has
switched to it, the main callback has been called once, or is called in the next step. -/
structure MainRuns (h : History ManagerState ManagerAction) (s : ManagerState) : Prop where
  fresh : ∀ g, (s.threads 0).reserved = some g → (s.fibers g).pc = .start
  once : h.countP (fun e => e.1.callsMain e.2.thread) + (s.callsMain 0).toNat =
    s.mainSwitched.toNat

/-- `Run` does not take a fiber that `CleanupPreviousFiber` has put back into the pool. -/
def MainTakesUnused (h : History ManagerState ManagerAction) (s : ManagerState)
    (a : ManagerAction) : Prop :=
  ∀ g ∈ s.mainTakes a, ∀ e ∈ h, e.1.putsBack e.2.thread ≠ some g

instance (h : History ManagerState ManagerAction) (s : ManagerState) (a : ManagerAction) :
    Decidable (MainTakesUnused h s a) :=
  inferInstanceAs (Decidable (∀ g ∈ s.mainTakes a, _))

/-- `Run` does not take such a fiber, and the step does not switch to a fiber that a thread executes
or that another thread is about to switch to. -/
def MainUndisturbed (opts : ManagerOptions) (h : History ManagerState ManagerAction)
    (s : ManagerState) (a : ManagerAction) : Prop :=
  MainTakesUnused h s a ∧ Apart opts h s a

instance (opts : ManagerOptions) (h : History ManagerState ManagerAction) (s : ManagerState)
    (a : ManagerAction) : Decidable (MainUndisturbed opts h s a) :=
  inferInstanceAs (Decidable (_ ∧ _))

/-! ## The invariant -/

/-- The main thread alone has taken the fiber, which has not started. -/
structure ManagerState.MainHolds (s : ManagerState) (g : ℕ) : Prop where
  only : s.OnlyMain g
  taken : s.idleFibers g = false
  fiber : g ≠ noFiber

/-- The main thread executes no fiber yet, and the main callback has not been called. -/
structure ManagerState.BeforeMain (s : ManagerState) (calls : ℕ) : Prop where
  calls : calls = 0
  running : s.running 0 = none
  apart : s.MainApart

/-- `Run` has switched to the main fiber: it starts in the next step, or the main callback has been
called once. -/
def ManagerState.AfterSwitch (s : ManagerState) (calls : ℕ) : Prop :=
  ∃ g, (∀ k, s.mainCallback k = true ↔ k = g) ∧
    (calls = 0 ∧ s.running 0 = some g ∧ s.MainApart ∧ s.MainHolds g ∨
      calls = 1 ∧ (s.fibers g).pc ≠ .start)

/-- How far `Run` is with the main callback, which has been called `calls` times. -/
def MainPhase (h : History ManagerState ManagerAction) (s : ManagerState) (calls : ℕ) :
    ThreadPc → Prop
  | .findFree _ =>
      s.BeforeMain calls ∧ (∀ k, s.mainCallback k = false) ∧ ∀ g, s.idleFibers g = true →
        s.OnlyMain g ∧ g ≠ noFiber ∨ ∃ e ∈ h, e.1.putsBack e.2.thread = some g
  | .setCurrent g | .setCallback g =>
      s.BeforeMain calls ∧ (∀ k, s.mainCallback k = false) ∧ s.MainHolds g
  | .switchTo g =>
      s.BeforeMain calls ∧ (∀ k, s.mainCallback k = true ↔ k = g) ∧ s.MainHolds g
  | .inFiber | .returned => s.AfterSwitch calls

/-- Only `Run` sets a callback. -/
structure MainInv (h : History ManagerState ManagerAction) (s : ManagerState) : Prop where
  worker : ∀ t g, t ≠ 0 → s.threads t ≠ .setCallback g
  phase : MainPhase h s (h.countP fun e => e.1.callsMain e.2.thread) (s.threads 0)

section FiberStep

variable {opts : ManagerOptions} {s : ManagerState} {t f g n tls : ℕ} {act : Act} {pc' : FiberPc}

/-- A fiber sets no callback. -/
theorem FiberStep.apply_mainCallback {pc : FiberPc} (h : FiberStep opts s f tls pc act pc') :
    (s.apply t f act).mainCallback = s.mainCallback := by
  cases h with
  | @threw _ caller => cases caller <;> rfl
  | _ => rfl

/-- A fiber takes an idle fiber from the pool. -/
theorem FiberStep.idle_of_takeIdle {pc : FiberPc}
    (h : FiberStep opts s f tls pc (.takeIdle g) pc') :
    s.idleFibers g = true := by
  cases h with
  | waitFound hg | mainFound hg => exact hg

theorem ManagerState.callsMain_of_running (hrun : s.running t = some f) :
    s.callsMain t = (s.mainCallback f && decide ((s.fibers f).pc = .start)) := by
  rw [ManagerState.callsMain, hrun]

theorem ManagerState.BeforeMain.ne_zero (hb : s.BeforeMain n) (hrun : s.running t = some f) :
    t ≠ 0 := by
  rintro rfl
  cases hb.running.symm.trans hrun

/-- A fiber keeps what is before the main callback. -/
theorem ManagerState.BeforeMain.fiber_step (hb : s.BeforeMain n) (hrun : s.running t = some f)
    (h : FiberStep opts s f ((s.fibers f).currentTLS t) (s.fibers f).pc act pc') :
    ((s.apply t f act).setFiber f ⟨(s.fibers f).currentTLS t, pc'⟩).BeforeMain n := by
  have ht := hb.ne_zero hrun
  refine ⟨hb.calls, ?_, hb.apart.fiber_step ht h⟩
  exact (ManagerState.apply_running_of_ne ht.symm).trans hb.running

/-- No other thread gets at the fiber that the main thread has taken. -/
theorem ManagerState.MainHolds.fiber_step (hm : s.MainHolds g) (ha : s.MainApart) (ht : t ≠ 0)
    (hrun : s.running t = some f)
    (h : FiberStep opts s f ((s.fibers f).currentTLS t) (s.fibers f).pc act pc') :
    ((s.apply t f act).setFiber f ⟨(s.fibers f).currentTLS t, pc'⟩).MainHolds g := by
  have hact : act ≠ .takeIdle g := by
    rintro rfl
    cases hm.taken.symm.trans h.idle_of_takeIdle
  refine ⟨hm.only.fiber_step hm.fiber ha ht hrun h hact, ?_, hm.fiber⟩
  by_contra hidle
  rcases ManagerState.idle_of_apply (Bool.eq_true_of_not_eq_false hidle) with hold | ⟨τ, -, hτ⟩
  · cases hm.taken.symm.trans hold
  · exact hm.only.previous τ hτ

/-- The main fiber calls the main callback when it starts, and other steps of fibers keep that. -/
theorem ManagerState.AfterSwitch.fiber_step (hp : s.AfterSwitch n) (hrun : s.running t = some f)
    (h : FiberStep opts s f ((s.fibers f).currentTLS t) (s.fibers f).pc act pc') :
    ((s.apply t f act).setFiber f ⟨(s.fibers f).currentTLS t, pc'⟩).AfterSwitch
      (n + (s.callsMain t).toNat) := by
  obtain ⟨g, hmain, hcase⟩ := hp
  have hcb := h.apply_mainCallback (t := t)
  have hcalls := ManagerState.callsMain_of_running hrun
  refine ⟨g, fun k => by rw [← hmain k]; exact iff_of_eq (congrArg (· = true) (congrFun hcb k)), ?_⟩
  by_cases hgf : g = f
  · subst hgf
    -- the main fiber has started after this step
    have hpc' : (((s.apply t g act).setFiber g ⟨(s.fibers g).currentTLS t, pc'⟩).fibers g).pc ≠
        .start := by
      rw [ManagerState.setFiber_fibers, Function.update_self]
      exact h.switch_cases.1
    have hset : s.mainCallback g = true := (hmain g).mpr rfl
    rcases hcase with ⟨rfl, -, -, hm⟩ | ⟨rfl, hg⟩
    · exact .inr ⟨by simp [hcalls, hset, hm.only.start], hpc'⟩
    · exact .inr ⟨by simp [hcalls, hg], hpc'⟩
  · have hfalse : s.mainCallback f = false := by
      by_contra hf
      exact hgf ((hmain f).mp (Bool.eq_true_of_not_eq_false hf)).symm
    have hnone : n + (s.callsMain t).toNat = n := by simp [hcalls, hfalse]
    rw [hnone]
    rcases hcase with ⟨hzero, hrun0, ha, hm⟩ | ⟨hone, hg⟩
    -- the main fiber is on the main thread still, and this is a step of another thread
    · have ht : t ≠ 0 := by
        rintro rfl
        exact hgf (Option.some.inj (hrun0.symm.trans hrun))
      exact .inl ⟨hzero, (ManagerState.apply_running_of_ne ht.symm).trans hrun0,
        ha.fiber_step ht h, hm.fiber_step ha ht hrun h⟩
    · refine .inr ⟨hone, ?_⟩
      rwa [ManagerState.setFiber_fibers, Function.update_of_ne hgf, ManagerState.apply_fibers]

end FiberStep

section ThreadStep

variable {opts : ManagerOptions} {s : ManagerState} {t g n : ℕ} {act : Act} {pc' : ThreadPc}

/-- The own code of a thread keeps what is before the main callback, but for the switch of `Run`. -/
theorem ManagerState.BeforeMain.thread_step (hb : s.BeforeMain n)
    (h : ThreadStep s t (s.threads t) act pc') (hstay : t ≠ 0 ∨ act.moves = false) :
    ((s.apply t noFiber act).setThread t pc').BeforeMain n := by
  refine ⟨hb.calls, ?_, hb.apart.thread_step h fun ht k hk => ?_⟩
  · rcases hstay with ht | hact
    · exact (ManagerState.apply_running_of_ne ht.symm).trans hb.running
    · exact (congrFun (ManagerState.apply_running hact) 0).trans hb.running
  · have hact := hstay.resolve_left (not_not.mpr ht)
    generalize s.threads t = pc at h hk
    cases h with
    | switchTo => cases hact
    | _ => cases hk

/-- No other thread takes the fiber that the main thread has taken. -/
theorem ManagerState.MainHolds.thread_step (hm : s.MainHolds g)
    (h : ThreadStep s t (s.threads t) act pc') :
    ((s.apply t noFiber act).setThread t pc').MainHolds g := by
  generalize hpc : s.threads t = pc at h
  have hact : act ≠ .takeIdle g := by
    rintro rfl
    cases h with
    | found hg => cases hm.taken.symm.trans hg
  refine ⟨hm.only.thread_step hm.fiber (hpc ▸ h) fun _ => hact, ?_, hm.fiber⟩
  by_contra hidle
  rcases ManagerState.idle_of_apply (Bool.eq_true_of_not_eq_false hidle) with hold | ⟨τ, -, hτ⟩
  · cases hm.taken.symm.trans hold
  · exact hm.only.previous τ hτ

end ThreadStep

namespace MainInv

variable {opts : ManagerOptions} {s s' : ManagerState} {a : ManagerAction}
  {h : History ManagerState ManagerAction}

/-- What a fiber puts back into the pool, the history says. -/
theorem putsBack_of_storeIdle {f g τ : ℕ} {pc' : FiberPc} (hrun : s.running a.thread = some f)
    (hstep : FiberStep opts s f ((s.fibers f).currentTLS a.thread) (s.fibers f).pc (.storeIdle τ)
      pc')
    (hτ : (s.tls τ).previousFiberIndex = g) : s.putsBack a.thread = some g := by
  rw [ManagerState.putsBack, hrun]
  generalize htls : (s.fibers f).currentTLS a.thread = tls at hstep
  cases hpc : (s.fibers f).pc <;> rw [hpc] at hstep <;> cases hstep
  simp only [hpc, htls, hτ]

/-- A step of a fiber keeps the invariant. -/
theorem fiber_step (hv : MainInv h s) {f : ℕ} {act : Act} {pc' : FiberPc}
    (hrun : s.running a.thread = some f)
    (hstep : FiberStep opts s f ((s.fibers f).currentTLS a.thread) (s.fibers f).pc act pc') :
    MainInv ((s, a) :: h)
      ((s.apply a.thread f act).setFiber f ⟨(s.fibers f).currentTLS a.thread, pc'⟩) := by
  refine ⟨fun t g ht hpc => ?_, ?_⟩
  · rcases s.apply_threads a.thread f act t with hsame | hret
    · exact hv.worker t g ht (hsame.symm.trans hpc)
    · cases hret.symm.trans hpc
  have hcount : ((s, a) :: h).countP (fun e => e.1.callsMain e.2.thread) =
      h.countP (fun e => e.1.callsMain e.2.thread) + (s.callsMain a.thread).toNat := by
    rw [List.countP_cons]
    cases s.callsMain a.thread <;> rfl
  have hcb := hstep.apply_mainCallback (t := a.thread)
  have hp := hv.phase
  rw [hcount, ManagerState.setFiber_threads]
  -- a step of a fiber before the main callback is one of another thread
  have hbefore : ∀ {n}, s.BeforeMain n → s.mainCallback f = false →
      (s.apply a.thread f act).threads 0 = s.threads 0 ∧ (s.callsMain a.thread).toNat = 0 := by
    intro n hb hf
    refine ⟨hb.apart.threads_apply (hb.ne_zero hrun) hrun, ?_⟩
    rw [ManagerState.callsMain_of_running hrun, hf]
    rfl
  cases hpc : s.threads 0 with
  -- an idle fiber stays unknown to the other threads, until one of them takes it
  | findFree pc =>
    rw [hpc] at hp
    obtain ⟨hb, hnone, hidle⟩ := hp
    obtain ⟨hthreads, hcalls⟩ := hbefore hb (hnone f)
    rw [hthreads, hpc, hcalls]
    refine ⟨hb.fiber_step hrun hstep, fun k => (congrFun hcb k).trans (hnone k), fun g hg => ?_⟩
    rcases ManagerState.idle_of_apply hg with hold | ⟨τ, rfl, hτ⟩
    · refine (hidle g hold).imp ?_ ?_
      · rintro ⟨ho, hno⟩
        refine ⟨ho.fiber_step hno hb.apart (hb.ne_zero hrun) hrun hstep ?_, hno⟩
        rintro rfl
        simp [ManagerState.apply] at hg
      · rintro ⟨e, he, hback⟩
        exact ⟨e, List.mem_cons_of_mem _ he, hback⟩
    · exact .inr ⟨(s, a), List.mem_cons_self, putsBack_of_storeIdle hrun hstep hτ⟩
  | setCurrent g | setCallback g =>
    rw [hpc] at hp
    obtain ⟨hb, hnone, hm⟩ := hp
    obtain ⟨hthreads, hcalls⟩ := hbefore hb (hnone f)
    rw [hthreads, hpc, hcalls]
    exact ⟨hb.fiber_step hrun hstep, fun k => (congrFun hcb k).trans (hnone k),
      hm.fiber_step hb.apart (hb.ne_zero hrun) hrun hstep⟩
  | switchTo g =>
    rw [hpc] at hp
    obtain ⟨hb, hmain, hm⟩ := hp
    -- the fiber that steps is not the main fiber, which no other thread executes
    have hf : s.mainCallback f = false := by
      by_contra hf
      obtain rfl := (hmain f).mp (Bool.eq_true_of_not_eq_false hf)
      exact hm.only.running _ (hb.ne_zero hrun) hrun
    obtain ⟨hthreads, hcalls⟩ := hbefore hb hf
    rw [hthreads, hpc, hcalls]
    refine ⟨hb.fiber_step hrun hstep, fun k => ?_,
      hm.fiber_step hb.apart (hb.ne_zero hrun) hrun hstep⟩
    rw [← hmain k]
    exact iff_of_eq (congrArg (· = true) (congrFun hcb k))
  | inFiber | returned =>
    rw [hpc] at hp
    have hafter := ManagerState.AfterSwitch.fiber_step hp hrun hstep
    rcases s.apply_threads a.thread f act 0 with hsame | hret
    · rw [hsame, hpc]
      exact hafter
    · rw [hret]
      exact hafter

/-- What `Run` takes from the pool. -/
theorem mainTakes_of_found {g : ℕ} {pc : FindPc} (hrun : s.running a.thread = none)
    (ht : a.thread = 0) (hpc : s.threads a.thread = .findFree pc)
    (hn : (s.threads a.thread).next opts s a.thread a.choice = some (.takeIdle g, .setCurrent g)) :
    s.mainTakes a = some g := by
  rw [hpc, ThreadPc.next] at hn
  cases hfind : pc.next opts.numFibers s.idleFibers (a.choice == .succeed) with
  | inl pc' => simp [hfind] at hn
  | inr k =>
    obtain rfl : k = g := by simpa [hfind] using hn
    cases pc with
    | casIdle i =>
      simp only [FindPc.next, Bool.and_eq_true, beq_iff_eq] at hfind
      split at hfind
      · next hidle =>
        cases hfind
        rw [ManagerState.mainTakes, hrun, hpc]
        exact if_pos ⟨ht, hidle.2, hidle.1⟩
      · cases hfind
    | loadRelaxed i | loadAcquire i =>
      simp only [FindPc.next] at hfind
      split at hfind <;> first | cases hfind | (split at hfind <;> cases hfind)

/-- A step of the own code of a worker thread keeps the invariant. -/
theorem worker_step (hv : MainInv h s) {act : Act} {pc' : ThreadPc} (ht : a.thread ≠ 0)
    (hstep : ThreadStep s a.thread (s.threads a.thread) act pc') :
    MainPhase ((s, a) :: h) ((s.apply a.thread noFiber act).setThread a.thread pc')
      (h.countP fun e => e.1.callsMain e.2.thread) (s.threads 0) := by
  -- only `Run` sets a callback
  have hcb : (s.apply a.thread noFiber act).mainCallback = s.mainCallback := by
    have hno := hv.worker a.thread
    generalize s.threads a.thread = pc at hstep hno
    cases hstep with
    | setCallback => exact absurd rfl (hno _ ht)
    | _ => rfl
  have hmain : ∀ g, (∀ k, s.mainCallback k = true ↔ k = g) →
      ∀ k, (s.apply a.thread noFiber act).mainCallback k = true ↔ k = g := by
    intro g hmain k
    rw [hcb]
    exact hmain k
  have hp := hv.phase
  cases hpc : s.threads 0 with
  | findFree pc =>
    rw [hpc] at hp
    obtain ⟨hb, hnone, hidle⟩ := hp
    refine ⟨hb.thread_step hstep (.inl ht), fun k => (congrFun hcb k).trans (hnone k),
      fun g hg => ?_⟩
    -- the own code of a worker puts no fiber into the pool
    rcases ManagerState.idle_of_apply hg with hold | ⟨τ, rfl, -⟩
    · refine (hidle g hold).imp ?_ ?_
      · rintro ⟨ho, hno⟩
        refine ⟨ho.thread_step hno hstep fun _ => ?_, hno⟩
        rintro rfl
        simp [ManagerState.apply] at hg
      · rintro ⟨e, he, hback⟩
        exact ⟨e, List.mem_cons_of_mem _ he, hback⟩
    · generalize s.threads a.thread = pc at hstep
      cases hstep
  | setCurrent g | setCallback g =>
    rw [hpc] at hp
    obtain ⟨hb, hnone, hm⟩ := hp
    exact ⟨hb.thread_step hstep (.inl ht), fun k => (congrFun hcb k).trans (hnone k),
      hm.thread_step hstep⟩
  | switchTo g =>
    rw [hpc] at hp
    obtain ⟨hb, hcall, hm⟩ := hp
    exact ⟨hb.thread_step hstep (.inl ht), hmain g hcall, hm.thread_step hstep⟩
  | inFiber | returned =>
    rw [hpc] at hp
    obtain ⟨g, hcall, ⟨hzero, hrun0, ha, hm⟩ | ⟨hone, hg⟩⟩ := hp
    · exact ⟨g, hmain g hcall, .inl ⟨hzero,
        (ManagerState.apply_running_of_ne ht.symm).trans hrun0,
        ha.thread_step hstep fun h0 => absurd h0 ht, hm.thread_step hstep⟩⟩
    · refine ⟨g, hmain g hcall, .inr ⟨hone, ?_⟩⟩
      rwa [ManagerState.setThread_fibers, ManagerState.apply_fibers]

/-- A step of `Run` keeps the invariant, if it takes no fiber that has been put back. -/
theorem main_step (hv : MainInv h s) {act : Act} {pc' : ThreadPc} (ht : a.thread = 0)
    (hrun : s.running a.thread = none)
    (hn : (s.threads a.thread).next opts s a.thread a.choice = some (act, pc'))
    (hunused : MainTakesUnused h s a) :
    MainPhase ((s, a) :: h) ((s.apply a.thread noFiber act).setThread a.thread pc')
      (h.countP fun e => e.1.callsMain e.2.thread) pc' := by
  have hstep := threadStep_of_next hn
  have hp := hv.phase
  rw [← ht] at hp
  have hbefore : ∀ {n}, s.BeforeMain n → act.moves = false →
      ((s.apply a.thread noFiber act).setThread a.thread pc').BeforeMain n :=
    fun hb hact => hb.thread_step hstep (.inr hact)
  have hholds : ∀ {g}, s.MainHolds g →
      ((s.apply a.thread noFiber act).setThread a.thread pc').MainHolds g :=
    fun hm => hm.thread_step hstep
  cases hpc : s.threads a.thread with
  | findFree pc =>
    rw [hpc] at hp
    obtain ⟨hb, hnone, hidle⟩ := hp
    have hstep' := hstep
    rw [hpc] at hstep'
    cases hstep' with
    | search =>
      refine ⟨hbefore hb rfl, hnone, fun g hg => (hidle g hg).imp ?_ ?_⟩
      · rintro ⟨ho, hno⟩
        exact ⟨ho.thread_step hno hstep fun h0 => absurd ht h0, hno⟩
      · rintro ⟨e, he, hback⟩
        exact ⟨e, List.mem_cons_of_mem _ he, hback⟩
    -- the fiber has not been put back, so that no other thread knows it
    | @found _ g hg =>
      have htakes : s.mainTakes a = some g := mainTakes_of_found hrun ht hpc hn
      obtain ⟨ho, hno⟩ : s.OnlyMain g ∧ g ≠ noFiber := by
        refine (hidle g hg).resolve_right ?_
        rintro ⟨e, he, hback⟩
        exact hunused g htakes e he hback
      exact ⟨hbefore hb rfl, hnone, ho.thread_step hno hstep fun h0 => absurd ht h0,
        Function.update_self .., hno⟩
  | setCurrent g =>
    rw [hpc] at hp
    obtain ⟨hb, hnone, hm⟩ := hp
    have hstep' := hstep
    rw [hpc] at hstep'
    cases hstep' with
    | setCurrentMain => exact ⟨hbefore hb rfl, hnone, hholds hm⟩
    | setCurrentWorker hne => exact absurd ht hne
  | setCallback g =>
    rw [hpc] at hp
    obtain ⟨hb, hnone, hm⟩ := hp
    have hstep' := hstep
    rw [hpc] at hstep'
    cases hstep'
    refine ⟨hbefore hb rfl, fun k => ?_, hholds hm⟩
    by_cases hk : k = g
    · simp [ManagerState.apply, hk]
    · simp [ManagerState.apply, hk, hnone k]
  | switchTo g =>
    rw [hpc] at hp
    obtain ⟨hb, hmain, hm⟩ := hp
    have hstep' := hstep
    rw [hpc] at hstep'
    cases hstep'
    -- no other thread executes the fiber that `Run` switches to
    refine ⟨g, hmain, .inl ⟨hb.calls, ?_, hb.apart.thread_step hstep fun _ k hk => ?_, hholds hm⟩⟩
    · rw [ManagerState.setThread_running, ht]
      exact ManagerState.apply_switchTo_running ..
    · rw [hpc] at hk
      obtain rfl : g = k := Option.some.inj hk
      exact hm.only.running
  | inFiber | returned =>
    rw [hpc] at hstep
    cases hstep

/-- A step of the own code of a thread keeps the invariant, if `Run` takes no fiber that has been
put back. -/
theorem thread_step (hv : MainInv h s) {act : Act} {pc' : ThreadPc}
    (hrun : s.running a.thread = none)
    (hn : (s.threads a.thread).next opts s a.thread a.choice = some (act, pc'))
    (hunused : MainTakesUnused h s a) :
    MainInv ((s, a) :: h) ((s.apply a.thread noFiber act).setThread a.thread pc') := by
  have hstep := threadStep_of_next hn
  have hsame : (s.apply a.thread noFiber act).threads = s.threads := by
    generalize s.threads a.thread = pc at hstep
    cases hstep <;> rfl
  refine ⟨fun t g ht hpc => ?_, ?_⟩
  · rw [ManagerState.setThread_threads, hsame] at hpc
    by_cases hta : t = a.thread
    · subst hta
      rw [Function.update_self] at hpc
      subst hpc
      generalize s.threads a.thread = pc at hstep
      cases hstep
      contradiction
    · rw [Function.update_of_ne hta] at hpc
      exact hv.worker t g ht hpc
  · have hcalls : ¬ s.callsMain a.thread = true := by simp [ManagerState.callsMain, hrun]
    rw [List.countP_cons, if_neg hcalls, Nat.add_zero, ManagerState.setThread_threads, hsame]
    by_cases ht : a.thread = 0
    · rw [ht, Function.update_self, ← ht]
      exact hv.main_step ht hrun hn hunused
    · rw [Function.update_of_ne (Ne.symm ht)]
      exact hv.worker_step ht hstep

end MainInv

/-! ## The main callback is called -/

section Run

variable {opts : ManagerOptions} {s : ManagerState} {h : History ManagerState ManagerAction}
  {jobs : JobPriority → List JobInfo} {values : CtrId → CounterUnit}

/-- No fiber has started. -/
theorem ManagerState.mainApart_loaded : (ManagerState.loaded opts jobs values).MainApart where
  tls f hf := absurd rfl hf
  returns _ _ _ hrun := by cases hrun

/-- No index is in use; that of a current fiber is `noFiber`, as is each previous one. -/
theorem ManagerState.onlyMain_loaded {g : ℕ} (hno : noFiber ≠ g) :
    (ManagerState.loaded opts jobs values).OnlyMain g where
  start := rfl
  running _ _ hrun := by cases hrun
  current _ _ := hno
  previous _ := hno
  ready _ e he := by cases he
  threads t _ ht := by
    by_cases hlt : t < opts.threadCount <;>
      simp [ManagerState.loaded, ManagerState.start, hlt, ThreadPc.reserved] at ht
  fibers _ hnamed := by cases hnamed
  counters _ := ⟨fun _ => hno, fun _ => trivial⟩

/-- The invariant in every such run. -/
theorem mainInv_of_run (hopts : opts.numFibers ≤ noFiber)
    (hr : (loadedSystem opts).Run MainTakesUnused h s) : MainInv h s := by
  refine hr.invariant (P := MainInv) (fun s hs => ?_) fun h s a s' _ hi hok hs => ?_
  · obtain ⟨jobs, values, rfl⟩ := hs
    refine ⟨fun t g _ hpc => ?_, ?_⟩
    · by_cases ht : t < opts.threadCount <;>
        simp [ManagerState.loaded, ManagerState.start, ht] at hpc
    · have hzero :
          (ManagerState.loaded opts jobs values).threads 0 = .findFree (.loadRelaxed 0) := by
        simp [ManagerState.loaded, ManagerState.start, ManagerOptions.threadCount]
      rw [hzero]
      refine ⟨⟨rfl, rfl, ManagerState.mainApart_loaded⟩, fun _ => rfl, fun g hg => .inl ?_⟩
      have hlt : g < opts.numFibers := of_decide_eq_true hg
      have hno : noFiber ≠ g := by omega
      exact ⟨ManagerState.onlyMain_loaded hno, hno.symm⟩
  · rcases managerStep_cases hs with ⟨f, act, pc', hrun, hn, rfl⟩ | ⟨act, pc', hrun, hn, rfl⟩
    · exact hi.fiber_step hrun (fiberStep_of_next hn)
    · exact hi.thread_step hrun hn hok

/-- In every run in which `Run` does not take a fiber that has been put back into the pool, and
whose switches do not meet, the fiber that `Run` takes has not started, and the main callback is
called once. `NumFibers` is a `uint16_t`. -/
theorem main_runs (hopts : opts.numFibers ≤ noFiber)
    (hr : (loadedSystem opts).Run (MainUndisturbed opts) h s) : MainRuns h s := by
  have hp := (mainInv_of_run hopts (hr.mono fun _ _ _ hok => hok.1)).phase
  have hbefore : ∀ {n}, s.BeforeMain n → n + (s.callsMain 0).toNat = 0 := by
    intro n hb
    rw [hb.calls, ManagerState.callsMain, hb.running]
    rfl
  refine ⟨fun g hg => ?_, ?_⟩
  · cases hpc : s.threads 0 <;> rw [hpc] at hp hg <;> cases hg <;> exact hp.2.2.only.start
  · cases hpc : s.threads 0 with
    | inFiber | returned =>
      rw [hpc] at hp
      obtain ⟨g, hmain, ⟨hzero, hrun, -, hm⟩ | ⟨hone, hg⟩⟩ := hp
      · have hcalls : s.callsMain 0 = true := by
          rw [ManagerState.callsMain_of_running hrun, (hmain g).mpr rfl, hm.only.start]
          rfl
        rw [hzero, hcalls, ManagerState.mainSwitched, hpc]
        rfl
      · have hcalls : s.callsMain 0 = false := by
          rw [ManagerState.callsMain]
          cases hrun : s.running 0 with
          | none => rfl
          | some f =>
            by_cases hf : s.mainCallback f = true
            · obtain rfl := (hmain f).mp hf
              simp [hg]
            · simp [hf]
        rw [hone, hcalls, ManagerState.mainSwitched, hpc]
        rfl
    | _ =>
      rw [hpc] at hp
      rw [hbefore hp.1, ManagerState.mainSwitched, hpc]
      rfl

end Run

/-- One job is in the queue of normal priority. -/
def oneJob : JobPriority → List JobInfo
  | .normal => [⟨some 7, none⟩]
  | _ => []

theorem main_runs_first :
    ∃ h s, (loadedSystem twoWorkers).Run (MainUndisturbed twoWorkers) h s ∧
      h.countP (fun e => e.1.callsMain e.2.thread) = 1 ∧ MainRuns h s := by
  have hrun : ∃ (h : History ManagerState ManagerAction) (s : ManagerState),
      (loadedSystem twoWorkers).Run (MainUndisturbed twoWorkers) h s ∧
        h.countP (fun e => e.1.callsMain e.2.thread) = 1 :=
    System.exists_run_of_trace_by (managerStepEval_eq _) ⟨oneJob, fun _ => 0, rfl⟩
      (threadSteps 0 7) (by decide +kernel)
  obtain ⟨h, s, hr, hone⟩ := hrun
  exact ⟨h, s, hr, hone, main_runs (by decide) hr⟩

/-- On thread 1 the job waits for a job of its own; fiber 1 executes that one, and goes back into
the pool when the first job goes on. -/
def workerWaits : List ManagerAction :=
  threadSteps 1 13 ++ [⟨1, .op (.waitForSingle .normal (some 8) 0)⟩, ⟨1, .call 0⟩] ++
    threadSteps 1 7 ++ [⟨1, .address 1⟩, ⟨1, .call 1⟩] ++ threadSteps 1 28 ++
    [⟨1, .op .finish⟩, ⟨1, .call 2⟩] ++ threadSteps 1 25

/-- The main thread takes fiber 1 then, and switches to it: the fiber goes on inside `GetNextJob`.
-/
theorem main_not_run :
    ∃ h s, (loadedSystem twoWorkers).Run (Apart twoWorkers) h s ∧ s.running 0 = some 1 ∧
      s.mainCallback 1 = true ∧ (s.fibers 1).pc = .getNextJob .parked ∧
      h.countP (fun e => e.1.callsMain e.2.thread) = 0 ∧ ¬ MainRuns h s := by
  have hrun : ∃ (h : History ManagerState ManagerAction) (s : ManagerState),
      (loadedSystem twoWorkers).Run (Apart twoWorkers) h s ∧
        (s.running 0 = some 1 ∧ s.mainCallback 1 = true ∧
          (s.fibers 1).pc = .getNextJob .parked ∧
          h.countP (fun e => e.1.callsMain e.2.thread) = 0) ∧
        s.callsMain 0 = false ∧ s.mainSwitched = true :=
    System.exists_run_of_trace_by (managerStepEval_eq _) ⟨oneJob, fun _ => 0, rfl⟩
      (workerWaits ++ threadSteps 0 7) (by decide +kernel)
  obtain ⟨h, s, hr, hfacts, hcalls, hswitched⟩ := hrun
  refine ⟨h, s, hr, hfacts.1, hfacts.2.1, hfacts.2.2.1, hfacts.2.2.2, fun hruns => ?_⟩
  have honce := hruns.once
  rw [hfacts.2.2.2, hcalls, hswitched] at honce
  cases honce

end NomadTasks
