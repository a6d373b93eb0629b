import NomadTasks.Manager.Setup
import NomadTasks.Manager.Exclusive

/-!
# A waiter registers the fiber that it runs on

`WaitForCounter` registers `tls->_currentFiberIndex`. Every switch to a fiber is preceded by an
assignment of its index, so that the index names the fiber that runs; but `SetupThread` and
`Run(nullptr)` take a fiber and assign its index without a switch.

* `waiter_registers_itself`: the registered index is that of the fiber whose context is the
  caller's own, exactly if the caller runs on a fiber of the pool.
* `waiter_registers_other`: the code of a thread that is set up registers a fiber that has never
  run.
-/

namespace NomadTasks

open Transition

/-! ## The index of the current fiber -/

/-- The fiber uses the `TLS` pointer that it has asked for on its present thread. -/
def FiberPc.ownTls : FiberPc → Bool
  | .getNextJob .parked | .getNextJob .dequeueNormal | .getNextJob .dequeueLow => false
  | .getNextJob _ => true
  | .waitForCounter _ _ _ _ .getValue | .waitForCounter _ _ _ _ (.parked _) => false
  | .waitForCounter .. => true
  | .begin (.waitForCounter ..) _ | .call (.waitForCounter ..) _ _ => true
  | .mainFindFree _ | .mainSetCurrent _ | .mainSwitchTo _ => true
  | _ => false

/-- The fiber whose index a thread's own code has assigned, to switch to it. -/
def ThreadPc.goesTo : ThreadPc → Option ℕ
  | .setCallback g | .switchTo g => some g
  | _ => none

theorem ThreadPc.goesTo_of_switchTarget {pc : ThreadPc} {g : ℕ} (h : pc.switchTarget = some g) :
    pc.goesTo = some g := by
  cases pc with
  | switchTo => exact h
  | _ => cases h

/-- A thread's own code assigns the index of the fiber that it goes to. -/
theorem ThreadStep.current_cases {s : ManagerState} {t : ℕ} {act : Act} {pc pc' : ThreadPc}
    (h : ThreadStep s t pc act pc') :
    (∃ g, act = .writeTls t (.currentFiberIndex g) ∧ pc'.goesTo = some g) ∨
    (∀ τ g, act ≠ .writeTls τ (.currentFiberIndex g)) ∧
      (pc'.goesTo ≠ none → act.moves = false) ∧ ∀ g, pc'.goesTo = some g → pc.goesTo = some g := by
  cases h with
  | setCurrentMain | setCurrentWorker => exact .inl ⟨_, rfl, rfl⟩
  | _ => exact .inr ⟨by simp, by simp [Act.moves, ThreadPc.goesTo], by simp [ThreadPc.goesTo]⟩

section FiberStep

variable {opts : ManagerOptions} {s : ManagerState} {t f tls : ℕ} {act : Act} {pc pc' : FiberPc}

/-- The `TLS` pointer is asked for before it is used. -/
theorem FiberStep.ownTls_cases (h : FiberStep opts s f tls pc act pc') (hown : pc'.ownTls = true) :
    pc.ownTls = true ∨ pc.getsCurrentTLS = true := by
  cases h with
  | @previousPool k | @previousWaiting k | @storeIdle k | @storeStored k => cases hown
  | @«begin» use | @call use => exact .inl (by cases use <;> first | rfl | cases hown)
  | _ => simp_all [FiberPc.ownTls, FiberPc.getsCurrentTLS]

/-- The index of the current fiber is assigned in the `TLS` of the present thread, before the switch
to that fiber, and not otherwise. -/
theorem FiberStep.current_cases (h : FiberStep opts s f tls pc act pc') :
    (∃ g, act = .writeTls tls (.currentFiberIndex g) ∧ pc.ownTls = true ∧
      pc.switchTarget = none ∧ pc'.switchTarget = some g) ∨
    (∀ τ g, act ≠ .writeTls τ (.currentFiberIndex g)) ∧ pc'.switchTarget = none ∧
      (act.moves = false → pc.switchTarget = none) := by
  cases h with
  | nextSetCurrent | waitSetCurrent | mainSetCurrent => exact .inl ⟨_, rfl, rfl, rfl, rfl⟩
  | _ => exact .inr ⟨by simp, rfl, by simp [Act.moves, FiberPc.switchTarget]⟩

/-- A fiber at rest has no `TLS` pointer in use, and is not about to switch. -/
theorem FiberPc.ownTls_of_atRest (h : pc.atRest = true) :
    pc.ownTls = false ∧ pc.switchTarget = none := by
  revert h
  fun_cases FiberPc.atRest pc <;> simp [FiberPc.ownTls, FiberPc.switchTarget]

/-- Where code is about to switch, it uses the `TLS` pointer that it has asked for. -/
theorem FiberPc.ownTls_of_switchTarget {g : ℕ} (h : pc.switchTarget = some g) :
    pc.ownTls = true := by
  revert h
  fun_cases FiberPc.switchTarget pc <;> simp [FiberPc.ownTls]

/-- Other acts keep the indices of the current fibers. -/
theorem ManagerState.apply_currentFiberIndex
    (hact : ∀ τ g, act ≠ .writeTls τ (.currentFiberIndex g)) (u : ℕ) :
    ((s.apply t f act).tls u).currentFiberIndex = (s.tls u).currentFiberIndex := by
  cases act with
  | writeTls τ w =>
    by_cases hu : u = τ
    · subst hu
      cases w with
      | currentFiberIndex g => exact absurd rfl (hact u g)
      | _ => simp [ManagerState.apply, TLS.write]
    · simp [ManagerState.apply, hu]
  | erase τ k =>
    by_cases hu : u = τ
    · subst hu
      simp [ManagerState.apply]
    · simp [ManagerState.apply, hu]
  -- a modifier adds to the ready list of its thread
  | counter c a =>
    by_cases hu : u = t
    · subst hu
      simp [ManagerState.apply]
    · simp [ManagerState.apply, hu]
  | endWait caller | throwThrough caller => cases caller <;> rfl
  | _ => rfl

/-- The assignment. -/
@[simp] theorem ManagerState.apply_writeCurrent (g : ℕ) :
    ((s.apply t f (.writeTls tls (.currentFiberIndex g))).tls tls).currentFiberIndex = g := by
  simp [ManagerState.apply, TLS.write]

/-- A step of code on thread `t` keeps the indices of the other threads. -/
theorem FiberStep.current_frame (h : FiberStep opts s f tls pc act pc')
    (htls : pc.ownTls = true → tls = t) {u : ℕ} (hu : u ≠ t) :
    ((s.apply t f act).tls u).currentFiberIndex = (s.tls u).currentFiberIndex := by
  rcases h.current_cases with ⟨g, rfl, hown, -⟩ | ⟨hact, -⟩
  · obtain rfl := htls hown
    simp [ManagerState.apply, hu]
  · exact ManagerState.apply_currentFiberIndex hact u

end FiberStep

/-- What holds of code on thread `t`, whether of the fiber `own` or of the thread itself: it uses
the `TLS` of its thread, and before a switch the index is that of the next fiber. -/
structure CodeOn (s : ManagerState) (t : ℕ) (fiber : FiberState) : Prop where
  tls : fiber.pc.ownTls = true → fiber.tls = t
  target : ∀ g, fiber.pc.switchTarget = some g → (s.tls t).currentFiberIndex = g

section CodeOn

variable {opts : ManagerOptions} {s : ManagerState} {t f : ℕ} {fiber : FiberState} {act : Act}
  {pc' : FiberPc}

/-- Code that uses the `TLS` of its thread goes on to use it, and so does code that asks for it
anew. -/
theorem FiberState.currentTLS_of_ownTls (htls : fiber.pc.ownTls = true → fiber.tls = t)
    (hown : fiber.pc.ownTls = true ∨ fiber.pc.getsCurrentTLS = true) : fiber.currentTLS t = t := by
  rw [FiberState.currentTLS]
  split
  · rfl
  · next hget => exact htls (hown.resolve_right hget)

theorem CodeOn.currentTLS (hc : CodeOn s t fiber) (hown : fiber.pc.ownTls = true) :
    fiber.currentTLS t = t :=
  FiberState.currentTLS_of_ownTls hc.tls (.inl hown)

/-- A step of the code. -/
theorem CodeOn.step (hc : CodeOn s t fiber)
    (h : FiberStep opts s f (fiber.currentTLS t) fiber.pc act pc') :
    CodeOn (s.apply t f act) t ⟨fiber.currentTLS t, pc'⟩ := by
  refine ⟨fun hown => ?_, fun g hg => ?_⟩
  · exact FiberState.currentTLS_of_ownTls hc.tls (h.ownTls_cases hown)
  · rcases h.current_cases with ⟨g', rfl, hown, -, hg'⟩ | ⟨-, hnone, -⟩
    · obtain rfl : g = g' := Option.some.inj (hg.symm.trans hg')
      rw [hc.currentTLS hown, ManagerState.apply_writeCurrent]
    · rw [hnone] at hg
      cases hg

theorem CodeOn.of_atRest (hrest : fiber.pc.atRest = true) : CodeOn s t fiber := by
  obtain ⟨hown, htarget⟩ := FiberPc.ownTls_of_atRest hrest
  refine ⟨fun h => ?_, fun g h => ?_⟩
  · rw [hown] at h
    cases h
  · rw [htarget] at h
    cases h

/-- It depends on the index of its thread only. -/
theorem CodeOn.congr {s' : ManagerState} (hc : CodeOn s t fiber)
    (hcur : (s'.tls t).currentFiberIndex = (s.tls t).currentFiberIndex) : CodeOn s' t fiber :=
  ⟨hc.tls, fun g hg => hcur.trans (hc.target g hg)⟩

end CodeOn

section HostStep

variable {opts : ManagerOptions} {s : ManagerState} {t : ℕ} {act : Act} {pc pc' : HostPc}

/-- A step of a thread's own code stays there, or switches to a fiber, or back to the thread. -/
theorem HostStep.moves_cases (h : HostStep opts s t pc act pc') :
    act.moves = false ∨
      (∃ tls g, act = .switchTo tls g ∧ pc.switchTarget = some g ∧
        ∀ fiber, pc' = .code fiber → fiber.pc.switchTarget = none) ∨
      act = .switchBack := by
  cases h with
  | @code fiber act pc' h =>
    rcases h.moves_cases with hstay | ⟨g, rfl, hg, hrest⟩ | ⟨rfl, -⟩
    · exact .inl hstay
    · refine .inr (.inl ⟨_, g, rfl, hg, ?_⟩)
      rintro _ ⟨⟩
      exact (FiberPc.ownTls_of_atRest hrest).2
    · exact .inr (.inr rfl)
  | _ => exact .inl rfl

/-- The thread that is set up switches to what `SwitchTo` was given, or stays. -/
theorem HostStep.stepMoves (h : HostStep opts s t pc act pc') (hrun : s.running t = none) :
    StepMoves s (s.apply t noFiber act) t pc.switchTarget := by
  refine ⟨fun u hu => ?_, fun g _ => by rw [ManagerState.apply_fibers], ?_⟩
  · rcases h.moves_cases with hstay | ⟨tls, g, rfl, -⟩ | rfl
    · rw [s.apply_running hstay]
    · exact Function.update_of_ne hu ..
    · exact Function.update_of_ne hu ..
  · rcases h.moves_cases with hstay | ⟨tls, g, rfl, hg, -⟩ | rfl
    · exact .inl (by rw [s.apply_running hstay])
    · refine .inr ⟨fun f hf => ?_, rfl, .inr ⟨g, hg, ManagerState.apply_switchTo_running ..⟩⟩
      rw [hrun] at hf
      cases hf
    · exact .inl ((ManagerState.apply_switchBack_running ..).trans hrun.symm)

/-- A fiber goes on to another program point. -/
theorem StepMoves.setFiber {f : ℕ} {fiber : FiberState} (hrun : s.running t = some f) :
    StepMoves s (s.setFiber f fiber) t none := by
  refine ⟨fun _ _ => rfl, fun g hg => Function.update_of_ne (fun hgf => hg ?_) .., .inl rfl⟩
  rw [hrun, hgf]

/-- The code of a thread that is set up keeps the indices of the other threads. -/
theorem HostStep.current_frame (h : HostStep opts s t pc act pc')
    (hcode : ∀ fiber, pc = .code fiber → CodeOn s t fiber) {u : ℕ} (hu : u ≠ t) :
    ((s.apply t noFiber act).tls u).currentFiberIndex = (s.tls u).currentFiberIndex := by
  cases h with
  | code h => exact h.current_frame (hcode _ rfl).currentTLS hu
  | setCurrent | setCurrentMain | nullCallback => simp [ManagerState.apply, hu]
  | _ => rfl

/-- Before it switches, the index is that of the next fiber. -/
theorem HostPc.current_of_switch (hcode : ∀ fiber, pc = .code fiber → CodeOn s t fiber) {g : ℕ}
    (hg : pc.switchTarget = some g) : (s.tls t).currentFiberIndex = g := by
  cases pc with
  | code fiber => exact (hcode fiber rfl).target g hg
  | _ => cases hg

/-- Its steps keep what holds of code on its thread. -/
theorem HostStep.code_step {fiber : FiberState} (h : HostStep opts s t pc act (.code fiber))
    (hcode : ∀ fiber, pc = .code fiber → CodeOn s t fiber) :
    CodeOn (s.apply t noFiber act) t fiber := by
  cases h with
  | code h => exact (hcode _ rfl).step h
  | setCurrent | setCallback =>
    exact ⟨nofun, nofun⟩

end HostStep

/-! ## The invariant -/

/-- The index of the current fiber names the fiber that runs, and what a thread's own code is about
to switch to. -/
structure CurrentInv (opts : ManagerOptions) (s : HostedState) : Prop where
  rest : ∀ g, (∀ u, s.mgr.running u ≠ some g) → (s.mgr.fibers g).pc.atRest = true
  absent : ∀ u, opts.threadCount ≤ u →
    s.mgr.running u = none ∧ s.mgr.threads u = .returned ∧ s.host u = .none
  alone : ∀ u t f, s.mgr.running u = some f → s.mgr.running t = some f → u = t
  code : ∀ t f, s.mgr.running t = some f → CodeOn s.mgr t (s.mgr.fibers f)
  current : ∀ t f, s.mgr.running t = some f → (s.mgr.fibers f).pc.switchTarget = none →
    (s.mgr.tls t).currentFiberIndex = f
  thread : ∀ t g, (s.mgr.threads t).goesTo = some g →
    s.host t = .none ∧ s.mgr.running t = none ∧ (s.mgr.tls t).currentFiberIndex = g
  host : ∀ t fiber, s.host t = .code fiber → CodeOn s.mgr t fiber ∧
    (fiber.pc.switchTarget ≠ none → s.mgr.running t = none)

/-- The step does not switch to a fiber that another thread executes. -/
def NoSharedFiber (opts : ManagerOptions) (_ : History HostedState ManagerAction) (s : HostedState)
    (a : ManagerAction) : Prop :=
  ∀ g ∈ s.switchTarget a.thread, ∀ u < opts.threadCount, s.mgr.running u ≠ some g

instance (opts : ManagerOptions) (h : History HostedState ManagerAction) (s : HostedState)
    (a : ManagerAction) : Decidable (NoSharedFiber opts h s a) :=
  inferInstanceAs (Decidable (∀ g ∈ s.switchTarget a.thread, _))

/-- A step of thread `t` that leaves the others as they are keeps the invariant, if it keeps it for
the thread itself. -/
theorem CurrentInv.of_frame {opts : ManagerOptions} {s s' : HostedState} {t : ℕ}
    {target : Option ℕ} (hi : CurrentInv opts s) (hlt : t < opts.threadCount)
    (hm : StepMoves s.mgr s'.mgr t target)
    (htarget : ∀ g ∈ target, ∀ u, s.mgr.running u ≠ some g)
    (hcur : ∀ u, u ≠ t →
      (s'.mgr.tls u).currentFiberIndex = (s.mgr.tls u).currentFiberIndex)
    (hthreads : ∀ u, u ≠ t → s'.mgr.threads u = s.mgr.threads u ∨ s'.mgr.threads u = .returned)
    (hhost : ∀ u, u ≠ t → s'.host u = s.host u)
    (hfiber : ∀ f, s'.mgr.running t = some f → CodeOn s'.mgr t (s'.mgr.fibers f) ∧
      ((s'.mgr.fibers f).pc.switchTarget = none → (s'.mgr.tls t).currentFiberIndex = f))
    (hthread : ∀ g, (s'.mgr.threads t).goesTo = some g →
      s'.host t = .none ∧ s'.mgr.running t = none ∧ (s'.mgr.tls t).currentFiberIndex = g)
    (hcode : ∀ fiber, s'.host t = .code fiber → CodeOn s'.mgr t fiber ∧
      (fiber.pc.switchTarget ≠ none → s'.mgr.running t = none)) : CurrentInv opts s' := by
  -- the fibers of the other threads have not moved
  have hother : ∀ u f, u ≠ t → s'.mgr.running u = some f →
      s.mgr.running u = some f ∧ s'.mgr.fibers f = s.mgr.fibers f := by
    intro u f hu hf
    rw [hm.others u hu] at hf
    exact ⟨hf, hm.fibers f fun ht => hu (hi.alone u t f hf ht)⟩
  -- the fiber that thread `t` goes on with was on no other thread
  have hnew : ∀ u f, u ≠ t → s'.mgr.running u = some f → s'.mgr.running t ≠ some f := by
    intro u f hu hf ht
    have hold := (hother u f hu hf).1
    rcases hm.move with hsame | ⟨-, -, hnone | ⟨g, hg, hrun⟩⟩
    · exact hu (hi.alone u t f hold (hsame ▸ ht))
    · rw [hnone] at ht
      cases ht
    · obtain rfl : g = f := Option.some.inj (hrun.symm.trans ht)
      exact htarget g hg u hold
  -- each field holds of the other threads as before, and of thread `t` by hypothesis
  refine ⟨fun g hg => hm.rest hi.rest hg, fun u hu => ?_, fun u v f hu hv => ?_, fun u f hu => ?_,
    fun u f hu hnone => ?_, fun u g hg => ?_, fun u fiber hu => ?_⟩
  · have hut : u ≠ t := by omega
    obtain ⟨hrun, hret, hnone⟩ := hi.absent u hu
    refine ⟨(hm.others u hut).trans hrun, ?_, (hhost u hut).trans hnone⟩
    rcases hthreads u hut with hsame | hret'
    · exact hsame.trans hret
    · exact hret'
  · by_cases hut : u = t <;> by_cases hvt : v = t
    · rw [hut, hvt]
    · exact absurd (hut ▸ hu) (hnew v f hvt hv)
    · exact absurd (hvt ▸ hv) (hnew u f hut hu)
    · exact hi.alone u v f (hother u f hut hu).1 (hother v f hvt hv).1
  · by_cases hut : u = t
    · subst hut
      exact (hfiber f hu).1
    · obtain ⟨hold, hsame⟩ := hother u f hut hu
      rw [hsame]
      exact (hi.code u f hold).congr (hcur u hut)
  · by_cases hut : u = t
    · subst hut
      exact (hfiber f hu).2 hnone
    · obtain ⟨hold, hsame⟩ := hother u f hut hu
      rw [hcur u hut]
      exact hi.current u f hold (hsame ▸ hnone)
  · by_cases hut : u = t
    · subst hut
      exact hthread g hg
    · rcases hthreads u hut with hsame | hret
      · obtain ⟨hnone, hrun, hidx⟩ := hi.thread u g (hsame ▸ hg)
        exact ⟨(hhost u hut).trans hnone, (hm.others u hut).trans hrun, (hcur u hut).trans hidx⟩
      · rw [hret] at hg
        cases hg
  · by_cases hut : u = t
    · subst hut
      exact hcode fiber hu
    · obtain ⟨hc, hrun⟩ := hi.host u fiber (hhost u hut ▸ hu)
      exact ⟨hc.congr (hcur u hut), fun h => (hm.others u hut).trans (hrun h)⟩

section Step

variable {opts : ManagerOptions} {setUp : ℕ → Bool} {s s' : HostedState} {a : ManagerAction}

/-- A thread that takes a step exists. -/
theorem CurrentInv.lt_of_step (hi : CurrentInv opts s)
    (hs : hostedStep opts setUp s a = some s') : a.thread < opts.threadCount := by
  by_contra hge
  obtain ⟨hrun, hthread, hhost⟩ := hi.absent a.thread (by omega)
  simp [hostedStep, managerStep, hrun, hthread, hhost, ThreadPc.next] at hs

/-- An act does not make a thread's own code go to a fiber. -/
theorem ManagerState.goesTo_of_apply {s : ManagerState} {t f u g : ℕ} {act : Act}
    (hg : ((s.apply t f act).threads u).goesTo = some g) : (s.threads u).goesTo = some g := by
  rcases s.apply_threads t f act u with hsame | hret
  · rwa [hsame] at hg
  · rw [hret] at hg
    cases hg

/-- A fiber that no thread executes can be gone on with on any thread. -/
theorem CurrentInv.resting (hi : CurrentInv opts s) {g : ℕ} (hg : ∀ u, s.mgr.running u ≠ some g)
    (t : ℕ) : CodeOn s.mgr t (s.mgr.fibers g) :=
  .of_atRest (hi.rest g hg)

/-- A step of a fiber keeps the invariant. -/
theorem CurrentInv.fiber_step (hi : CurrentInv opts s) {mgr : ManagerState} {t f : ℕ} {act : Act}
    {pc' : FiberPc} (hlt : t < opts.threadCount) (hrun : s.mgr.running t = some f)
    (hm : StepMoves s.mgr mgr t (s.mgr.switchTarget t))
    (htarget : ∀ g ∈ s.mgr.switchTarget t, ∀ u, s.mgr.running u ≠ some g)
    (h : FiberStep opts s.mgr f ((s.mgr.fibers f).currentTLS t) (s.mgr.fibers f).pc act pc')
    (hmgr : mgr = (s.mgr.apply t f act).setFiber f ⟨(s.mgr.fibers f).currentTLS t, pc'⟩) :
    CurrentInv opts { s with mgr } := by
  have hcode := hi.code t f hrun
  have hthreads : ∀ u, mgr.threads u = (s.mgr.apply t f act).threads u := fun u => by rw [hmgr]; rfl
  refine hi.of_frame hlt hm htarget (fun u hu => ?_) (fun u _ => ?_) (fun _ _ => rfl)
    (fun g hg => ?_) (fun g hg => ?_) fun fiber hfiber => ?_
  · rw [hmgr]
    exact h.current_frame hcode.currentTLS hu
  · rw [hthreads u]
    exact s.mgr.apply_threads t f act u
  · subst hmgr
    simp only [ManagerState.setFiber_running, ManagerState.setFiber_fibers,
      ManagerState.apply_fibers, ManagerState.setFiber_tls] at hg ⊢
    -- the fiber goes on, switches to another one, or gives the thread back
    rcases h.moves_cases with hstay | ⟨g', rfl, hg', -⟩ | ⟨rfl, -⟩
    · rw [s.mgr.apply_running hstay, hrun] at hg
      obtain rfl := Option.some.inj hg
      rw [Function.update_self]
      refine ⟨(hcode.step h).congr rfl, fun hnone => ?_⟩
      -- after the write of `currentFiberIndex` the next step is the switch
      rcases h.current_cases with ⟨g, -, -, -, hg⟩ | ⟨hact, -, hold⟩
      · rw [hnone] at hg
        cases hg
      · rw [ManagerState.apply_currentFiberIndex hact]
        exact hi.current _ _ hrun (hold hstay)
    · obtain rfl : g' = g :=
        Option.some.inj ((ManagerState.apply_switchTo_running ..).symm.trans hg)
      have hfree : ∀ u, s.mgr.running u ≠ some g' := by
        refine htarget g' ?_
        rw [ManagerState.switchTarget, hrun]
        exact hg'
      have hne : g' ≠ f := fun hgf => hfree t (hgf ▸ hrun)
      rw [Function.update_of_ne hne]
      exact ⟨(hi.resting hfree t).congr rfl, fun _ => hcode.target g' hg'⟩
    · cases (ManagerState.apply_switchBack_running ..).symm.trans hg
  -- a thread that executes a fiber is not on its way to one by its own code
  · rw [hthreads t] at hg
    obtain ⟨-, hnone, -⟩ := hi.thread t g (ManagerState.goesTo_of_apply hg)
    rw [hrun] at hnone
    cases hnone
  · -- the thread's own code waits inside `SwitchTo` while a fiber runs
    obtain ⟨hc, hnone⟩ := hi.host t fiber hfiber
    have hstay : fiber.pc.switchTarget = none := by
      by_contra hne
      rw [hnone hne] at hrun
      cases hrun
    refine ⟨⟨hc.tls, fun g hg => ?_⟩, fun hne => absurd hstay hne⟩
    rw [hstay] at hg
    cases hg

/-- A step of a thread with a callback of the manager keeps the invariant. -/
theorem CurrentInv.thread_step (hi : CurrentInv opts s) {mgr : ManagerState} {t : ℕ} {act : Act}
    {pc' : ThreadPc} (hlt : t < opts.threadCount) (hrun : s.mgr.running t = none)
    (hhost : s.host t = .none) (hm : StepMoves s.mgr mgr t (s.mgr.switchTarget t))
    (htarget : ∀ g ∈ s.mgr.switchTarget t, ∀ u, s.mgr.running u ≠ some g)
    (h : ThreadStep s.mgr t (s.mgr.threads t) act pc')
    (hmgr : mgr = (s.mgr.apply t noFiber act).setThread t pc') :
    CurrentInv opts { s with mgr } := by
  refine hi.of_frame hlt hm htarget (fun u hu => ?_) (fun u hu => ?_) (fun _ _ => rfl)
    (fun g hg => ?_) (fun g hg => ?_) fun fiber hfiber => ?_
  · subst hmgr
    -- the fiber found is written; afterwards the thread only goes on to it
    rcases h.current_cases with ⟨g, rfl, -⟩ | ⟨hact, -⟩
    · simp [ManagerState.apply, hu]
    · exact ManagerState.apply_currentFiberIndex hact u
  · subst hmgr
    rw [ManagerState.setThread_threads, Function.update_of_ne hu]
    exact s.mgr.apply_threads t noFiber act u
  · subst hmgr
    simp only [ManagerState.setThread_running, ManagerState.setThread_fibers,
      ManagerState.apply_fibers, ManagerState.setThread_tls] at hg ⊢
    -- `SwitchTo` is called right after the write of `_currentFiberIndex`
    rcases h.moves_cases with hstay | ⟨g', rfl, hg'⟩
    · rw [s.mgr.apply_running hstay, hrun] at hg
      cases hg
    · obtain rfl : g' = g :=
        Option.some.inj ((ManagerState.apply_switchTo_running ..).symm.trans hg)
      have hfree : ∀ u, s.mgr.running u ≠ some g' := by
        refine htarget g' ?_
        rw [ManagerState.switchTarget, hrun]
        exact hg'
      exact ⟨(hi.resting hfree t).congr rfl,
        fun _ => (hi.thread t g' (ThreadPc.goesTo_of_switchTarget hg')).2.2⟩
  · subst hmgr
    rw [ManagerState.setThread_threads, Function.update_self] at hg
    refine ⟨hhost, ?_⟩
    rcases h.current_cases with ⟨g', rfl, hg'⟩ | ⟨hact, hstay, hold⟩
    · obtain rfl : g = g' := Option.some.inj (hg.symm.trans hg')
      exact ⟨hrun, ManagerState.apply_writeCurrent (t := t) (f := noFiber) g⟩
    · rw [ManagerState.setThread_running, s.mgr.apply_running (hstay (by simp [hg]))]
      have hidx := (hi.thread t g (hold g hg)).2.2
      exact ⟨hrun, (ManagerState.apply_currentFiberIndex hact t).trans hidx⟩
  · rw [hhost] at hfiber
    cases hfiber

/-- A main fiber that starts without a main callback is on its way back. -/
theorem CurrentInv.startsWithoutMain_step (hi : CurrentInv opts s) {t f : ℕ}
    (hlt : t < opts.threadCount) (hrun : s.mgr.running t = some f)
    (hpc : (s.mgr.fibers f).pc = .start) :
    CurrentInv opts { s with mgr := s.mgr.setFiber f ⟨t, .switchBack⟩ } := by
  refine hi.of_frame hlt (.setFiber hrun) (by simp) (fun _ _ => rfl) (fun _ _ => .inl rfl)
    (fun _ _ => rfl)
    (fun g hg => ?_) (fun g hg => hi.thread t g hg) fun fiber hfiber => ?_
  · obtain rfl := Option.some.inj (hrun.symm.trans hg)
    have hcur := hi.current t f hrun (by rw [hpc]; rfl)
    rw [ManagerState.setFiber_fibers, Function.update_self]
    exact ⟨⟨nofun, nofun⟩, fun _ => hcur⟩
  · obtain ⟨hc, hnone⟩ := hi.host t fiber hfiber
    exact ⟨hc.congr rfl, hnone⟩

/-- A step of the own code of a thread that is set up keeps the invariant. -/
theorem CurrentInv.host_step (hi : CurrentInv opts s) {t : ℕ} {act : Act} {pc' : HostPc}
    (hlt : t < opts.threadCount) (hrun : s.mgr.running t = none) (hhost : s.host t ≠ .none)
    (htarget : ∀ g ∈ (s.host t).switchTarget, ∀ u, s.mgr.running u ≠ some g)
    (h : HostStep opts s.mgr t (s.host t) act pc') :
    CurrentInv opts { mgr := s.mgr.apply t noFiber act, host := Function.update s.host t pc' } := by
  have hcode : ∀ fiber, s.host t = .code fiber → CodeOn s.mgr t fiber := fun fiber hfiber =>
    (hi.host t fiber hfiber).1
  have hmoves := h.moves_cases
  refine hi.of_frame hlt (h.stepMoves hrun) htarget (fun u hu => h.current_frame hcode hu)
    (fun u _ => s.mgr.apply_threads t noFiber act u) (fun u hu => Function.update_of_ne hu ..)
    (fun g hg => ?_) (fun g hg => ?_) fun fiber hfiber => ?_
  · rcases hmoves with hstay | ⟨tls, g', rfl, hg', -⟩ | rfl
    · rw [s.mgr.apply_running hstay, hrun] at hg
      cases hg
    · obtain rfl : g' = g :=
        Option.some.inj ((s.mgr.apply_switchTo_running t noFiber tls g').symm.trans hg)
      rw [ManagerState.apply_fibers]
      exact ⟨(hi.resting (htarget g' hg') t).congr rfl, fun _ => HostPc.current_of_switch hcode hg'⟩
    · cases (s.mgr.apply_switchBack_running t noFiber).symm.trans hg
  · exact absurd (hi.thread t g (ManagerState.goesTo_of_apply hg)).1 hhost
  · obtain rfl : pc' = .code fiber := (Function.update_self ..).symm.trans hfiber
    refine ⟨h.code_step hcode, fun hne => ?_⟩
    rcases hmoves with hstay | ⟨tls, g', rfl, -, hnone⟩ | rfl
    · rw [s.mgr.apply_running hstay, hrun]
    · exact absurd (hnone fiber rfl) hne
    · exact ManagerState.apply_switchBack_running ..

/-- What is switched to, no thread executes. -/
theorem CurrentInv.target_free (hi : CurrentInv opts s) {h : History HostedState ManagerAction}
    (hok : NoSharedFiber opts h s a) :
    ∀ g ∈ s.switchTarget a.thread, ∀ u, s.mgr.running u ≠ some g := by
  intro g hg u hu
  rcases Nat.lt_or_ge u opts.threadCount with hlt | hge
  · exact hok g hg u hlt hu
  · rw [(hi.absent u hge).1] at hu
    cases hu

/-- Every step keeps the invariant, unless it switches to a fiber that another thread executes. -/
theorem CurrentInv.step (hi : CurrentInv opts s) {h : History HostedState ManagerAction}
    (hok : NoSharedFiber opts h s a) (hs : hostedStep opts setUp s a = some s') :
    CurrentInv opts s' := by
  have hlt := hi.lt_of_step hs
  have htarget := hi.target_free hok
  rcases hostedStep_cases hs with ⟨hmgr, mgr, hstep, rfl⟩ | ⟨f, hrun, hpc, rfl⟩ |
      ⟨act, pc', hrun, hhost, h, rfl⟩
  · have hsame : s.switchTarget a.thread = s.mgr.switchTarget a.thread := by
      rw [HostedState.switchTarget, if_neg]
      rintro ⟨hrun, hhost⟩
      rcases hmgr with hne | hnone
      · exact hne hrun
      · exact hhost hnone
    rw [hsame] at htarget
    have hm := managerStep_moves hstep
    rcases managerStep_act hstep with ⟨f, act, pc', hrun, -, h, rfl⟩ | ⟨act, pc', hrun, -, h, rfl⟩
    · exact hi.fiber_step hlt hrun hm htarget h rfl
    · exact hi.thread_step hlt hrun (hmgr.resolve_left fun hne => hne hrun) hm htarget h rfl
  · exact hi.startsWithoutMain_step hlt hrun hpc
  · have hsame : s.switchTarget a.thread = (s.host a.thread).switchTarget := by
      rw [HostedState.switchTarget, if_pos ⟨hrun, hhost⟩]
    exact hi.host_step hlt hrun hhost (hsame ▸ htarget) h

theorem CurrentInv.start (opts : ManagerOptions) (setUp : ℕ → Bool) :
    CurrentInv opts (.start opts setUp) := by
  refine ⟨fun _ _ => rfl, fun u hu => ⟨rfl, ?_, ?_⟩, nofun, nofun, nofun, fun t g hg => ?_,
    fun t fiber hf => ?_⟩
  · simp [HostedState.start, ManagerState.start, Nat.not_lt.mpr hu]
  · simp [HostedState.start, Nat.not_lt.mpr hu]
  · simp only [HostedState.start, ManagerState.start] at hg
    split at hg
    · cases hg
    · split at hg <;> cases hg
  · simp only [HostedState.start] at hf
    split at hf <;> cases hf

/-- It holds at the end of every run without such a switch. -/
theorem currentInv_of_run {h : History HostedState ManagerAction}
    (hr : (hostedSystem opts setUp).Run (NoSharedFiber opts) h s) : CurrentInv opts s := by
  refine hr.invariant (P := fun _ s => CurrentInv opts s) (fun s hs => ?_)
    fun _ _ _ _ _ hi hok hs => hi.step hok hs
  obtain rfl : s = .start opts setUp := hs
  exact .start opts setUp

end Step

/-! ## The registered fiber -/

/-- The index that the code hands to `AddWaitingFiber` in its next step. -/
def FiberState.registering (s : ManagerState) (fiber : FiberState) : Option ℕ :=
  match fiber.pc with
  | .begin (.waitForCounter ..) _ => some (s.tls fiber.tls).currentFiberIndex
  | _ => none

/-- The index that thread `t` hands to `AddWaitingFiber` in its next step. -/
def HostedState.registering (s : HostedState) (t : ℕ) : Option ℕ :=
  match s.mgr.running t, s.host t with
  | some f, _ => (s.mgr.fibers f).registering s.mgr
  | none, .code fiber => fiber.registering s.mgr
  | none, _ => none

/-- Where the code registers, it uses its `TLS` pointer and does not switch. -/
theorem FiberState.of_registering {s : ManagerState} {fiber : FiberState} {i : ℕ}
    (h : fiber.registering s = some i) : fiber.pc.ownTls = true ∧ fiber.pc.switchTarget = none ∧
      (s.tls fiber.tls).currentFiberIndex = i := by
  rw [FiberState.registering] at h
  split at h
  · next hpc => exact ⟨by rw [hpc]; rfl, by rw [hpc]; rfl, Option.some.inj h⟩
  · cases h

/-- In every run in which no step switches to a fiber that another thread executes, a thread
registers the fiber that it executes exactly if it executes one. -/
theorem waiter_registers_itself {opts : ManagerOptions} {setUp : ℕ → Bool}
    {h : History HostedState ManagerAction} {s : HostedState}
    (hr : (hostedSystem opts setUp).Run (NoSharedFiber opts) h s) {t i : ℕ}
    (hreg : s.registering t = some i) :
    s.mgr.running t = some i ↔ s.mgr.running t ≠ none := by
  have hi := currentInv_of_run hr
  constructor
  · intro hrun hnone
    rw [hnone] at hrun
    cases hrun
  · intro hne
    obtain ⟨f, hrun⟩ := Option.ne_none_iff_exists'.mp hne
    simp only [HostedState.registering, hrun] at hreg
    obtain ⟨hown, hstay, hidx⟩ := FiberState.of_registering hreg
    rw [(hi.code t f hrun).tls hown, hi.current t f hrun hstay] at hidx
    rw [hrun, hidx]

/-- Thread 1 has called `SetupThread`. -/
def setsUpOne (t : ℕ) : Bool := t == 1

/-- The code on thread `t` calls `WaitForCounter` on counter 0. -/
def waitsForFive (t : ℕ) : List ManagerAction :=
  [⟨t, .op (.waitForCounter (some 0) 5)⟩, ⟨t, .succeed⟩, ⟨t, .address 1⟩]

theorem waiter_registers_itself_main :
    ∃ h s, (hostedSystem twoWorkers setsUpOne).Run (NoSharedFiber twoWorkers) h s ∧
      s.registering 0 = some 0 ∧ (s.mgr.running 0 = some 0 ↔ s.mgr.running 0 ≠ none) := by
  have hrun : ∃ h s, (hostedSystem twoWorkers setsUpOne).Run (NoSharedFiber twoWorkers) h s ∧
      s.registering 0 = some 0 :=
    System.exists_run_of_trace rfl (threadSteps 0 7 ++ waitsForFive 0) (by decide +kernel)
  obtain ⟨h, s, hr, hreg⟩ := hrun
  exact ⟨h, s, hr, hreg, waiter_registers_itself hr hreg⟩

/-- A thread that has called `SetupThread` waits: it registers fiber 0, which it has taken from the
pool but not switched to, and which has not started yet. -/
theorem waiter_registers_other :
    ∃ s, (hostedSystem twoWorkers setsUpOne).Reachable s ∧ s.registering 1 = some 0 ∧
      s.mgr.running 1 = none ∧ (s.mgr.fibers 0).pc = .start := by
  have hrun : ∃ (h : History HostedState ManagerAction) (s : HostedState),
      (hostedSystem twoWorkers setsUpOne).Run (fun _ _ _ => True) h s ∧
        s.registering 1 = some 0 ∧ s.mgr.running 1 = none ∧ (s.mgr.fibers 0).pc = .start :=
    System.exists_run_of_trace rfl (threadSteps 1 4 ++ waitsForFive 1) (by decide +kernel)
  obtain ⟨h, s, hr, hreg⟩ := hrun
  exact ⟨s, hr.reachable, hreg⟩

end NomadTasks
