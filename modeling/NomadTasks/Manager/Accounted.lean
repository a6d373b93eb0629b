import Mathlib.Algebra.Order.BigOperators.Group.Finset
import Mathlib.Data.Finset.Option
import NomadTasks.Manager.Outstanding
import NomadTasks.Ownership.Conserved

/-!
# No fiber of the pool is lost

`FindFreeFiber` waits until a fiber is idle, so a fiber that nobody puts back would be missed
forever. In every orderly run, each fiber of the pool is in one place, or it has left its thread for
good: it has ended with its thread, or it is that of a main callback that has returned. The runs are
those of `Run` with a main callback and spawned threads; a fiber whose index `SetupThread` has taken
would be in none of the places.

* `local_conserved`, `switch_conserved`, `switchBack_conserved`, `thread_conserved`: every step
  passes the fibers on.
* `fibers_accounted`: in every orderly run, each fiber of the pool is in one place or gone.
* `findFreeFiber_returns`: how large a pool has to be for `FindFreeFiber` to find an idle fiber.
-/

namespace NomadTasks

open Transition Ownership

/-- The fiber has left its thread for good. -/
def ManagerState.Gone (s : ManagerState) (f : ℕ) : Prop := s.stage f = .gone

section Fiber

variable {opts : ManagerOptions} {s : ManagerState} {t f : ℕ} {act : Act} {pc' : FiberPc}

/-- The flag that `CleanupPreviousFiber` sets has not been set before. -/
theorem FlagInv.unset (hf : FlagInv s) (hi : OwnInv s) (hrun : s.running t = some f)
    (h : FiberStep opts s f t (s.fibers f).pc act pc') (hact : act = .storeStored t) :
    s.flags (s.tls t).previousFiberStored = some false := by
  subst hact
  have hstage : s.stage f = .receivedWaiting := by
    rw [ManagerState.stage]
    generalize (s.fibers f).pc = pc at h
    cases h
    rfl
  have hat := hi.atStage t f hrun
  rw [hstage] at hat
  exact (hf.handoff t f hrun (by rw [hstage]; rfl) hat.2).1

/-- The flag that `WaitForCounter` deletes has not been set. -/
theorem FlagInv.deleted (hf : FlagInv s) (h : FiberStep opts s f t (s.fibers f).pc act pc')
    {p : FlagPtr} (hact : act = .deleteStored p) : s.flags p = some false := by
  subst hact
  have hu := hf.uses f
  generalize (s.fibers f).pc = pc at h hu
  cases h
  exact hu.1

/-- A step of a fiber that does not switch passes the fibers on. -/
theorem local_conserved (hi : OwnInv s) (hf : FlagInv s) (hrun : s.running t = some f)
    (h : FiberStep opts s f t (s.fibers f).pc act pc') (hlocal : act.localTo t = true)
    {gone : ℕ → Prop} :
    Conserved s.holds ((s.apply t f act).setFiber f ⟨t, pc'⟩).holds gone := by
  have hl : LocalStep s t f pc' ((s.apply t f act).setFiber f ⟨t, pc'⟩) := .of_apply pc' hlocal
  have hne : ∀ u g, u ≠ t → s.running u = some g → g ≠ f :=
    fun u g hu hg hgf => hu (hi.run_unique (hgf ▸ hg) hrun)
  have hat := hi.atStage t f hrun
  have hhand : s.holds (.handoff t) =
      if (s.stage f).pending then (s.tls t).previous else none := by
    simp [ManagerState.holds, ManagerState.handedOff, hrun]
  have hhand' := hl.holds_handoff hrun
  have hfib := hl.holds_fiber
  have hfib₀ : s.holds (.fiber f) = (s.fibers f).pc.reserved := rfl
  have herased := fun k => hf.erased hrun h (k := k)
  have hstored := hf.stored hrun h hi
  have hunset := hf.unset hi hrun h
  have hdeleted := fun p => hf.deleted h (p := p)
  have hstep := h.stageStep (hi.not_gone hrun)
  change StageStep s t (s.tls t) (s.stage f) (s.fibers f).pc.reserved act
    (pc'.stage (s.mainCallback f)) pc'.reserved at hstep
  generalize s.stage f = st at hstep hat hhand
  generalize (s.fibers f).pc.reserved = r at hstep hfib₀
  generalize pc'.stage (s.mainCallback f) = st' at hstep hhand'
  generalize pc'.reserved = r' at hstep hfib herased
  -- where a step changes no place, it is enough to look at the two that depend on its fiber
  have hsame : r' = r →
      (((s.apply t f act).setFiber f ⟨t, pc'⟩).holds (.handoff t) = s.holds (.handoff t)) →
      (s.apply t f act).idleFibers = s.idleFibers →
      (∀ p, ((s.apply t f act).setFiber f ⟨t, pc'⟩).holds (.stored p) = s.holds (.stored p)) →
      Conserved s.holds ((s.apply t f act).setFiber f ⟨t, pc'⟩).holds gone := by
    intro hr hh hidle hst
    refine .of_eq fun l => ?_
    by_cases hlf : l = .fiber f
    · rw [hlf, hfib, hfib₀, hr]
    by_cases hlt : l = .handoff t
    · rw [hlt, hh]
    cases l with
    | stored p => exact hst p
    | _ => exact hl.holds_other hne hlf hlt (fun _ _ => by simp [hidle]) fun _ hp => by cases hp
  cases hstep with
  | quiet hact hst =>
    obtain ⟨hcore, hidle, hflags, hff⟩ := OwnInv.quiet_apply (s := s) hact t f
    refine hsame rfl ?_ hidle fun p => by simp [ManagerState.holds, hflags, hff]
    rw [hhand', hhand, ManagerState.setFiber_tls, ← TLS.previous_core, hcore, TLS.previous_core]
  | @newStored p hp =>
    refine hsame rfl (by simp [hhand, hhand', Stage.pending]) rfl fun q => ?_
    by_cases hqp : q = p
    · subst hqp
      simp [ManagerState.holds, ManagerState.apply, hp]
    · simp [ManagerState.holds, ManagerState.apply, hqp]
  | @deleteStored p =>
    refine hsame rfl (by simp [hhand, hhand', Stage.pending]) rfl fun q => ?_
    by_cases hqp : q = p
    · subst hqp
      simp [ManagerState.holds, ManagerState.apply, hdeleted q rfl]
    · simp [ManagerState.holds, ManagerState.apply, hqp]
  | nothing hd =>
    exact hsame rfl (by simp [hhand, hhand', Stage.pending, TLS.previous, hd]) rfl fun _ => rfl
  | pool hd | waitingStored hd =>
    exact hsame rfl (by rw [hhand, hhand']; rfl) rfl fun _ => rfl
  | cleanup | setPrevious | setPool | setWaiting | setStored | setCurrent | mainSetCurrent =>
    exact hsame rfl (by simp [hhand, hhand', Stage.pending]) rfl fun _ => rfl
  -- from the hand-off into the pool
  | storeIdle =>
    have hplace : s.holds (.handoff t) = some (s.tls t).previousFiberIndex := by
      simp [hhand, Stage.pending, TLS.previous, hat.2]
    refine .move (x := .handoff t) (y := .idle (s.tls t).previousFiberIndex)
      (by simp [hhand', Stage.pending]) ?_ ?_ fun l hlh hli => ?_
    · rw [hplace]
      simp [ManagerState.holds, ManagerState.apply]
    · -- it has not been idle, or it would be in two places
      by_contra hidle
      have hidle' : s.holds (.idle (s.tls t).previousFiberIndex) =
          some (s.tls t).previousFiberIndex := by simpa [ManagerState.holds] using hidle
      cases hi.exclusive _ _ _ hidle' hplace
    · by_cases hlf : l = .fiber f
      · rw [hlf, hfib, hfib₀]
      · refine hl.holds_other hne hlf hlh (fun g hg => ?_) fun _ _ => ⟨rfl, rfl⟩
        have hgne : g ≠ (s.tls t).previousFiberIndex := fun heq => hli (by rw [hg, heq])
        simp [ManagerState.apply, hgne]
  -- from the hand-off to the stored flag
  | storeStored =>
    obtain ⟨hff, hplace⟩ := hstored rfl
    have hflag := hunset rfl
    refine .move (x := .handoff t) (y := .stored (s.tls t).previousFiberStored)
      (by simp [hhand', Stage.pending]) ?_ ?_ fun l hlh hls => ?_
    · rw [hplace]
      simp [ManagerState.holds, ManagerState.apply, hflag, hff]
    · simp [ManagerState.holds, hflag]
    · by_cases hlf : l = .fiber f
      · rw [hlf, hfib, hfib₀]
      · refine hl.holds_other hne hlf hlh (fun _ _ => rfl) fun p hp => ?_
        have hpne : p ≠ (s.tls t).previousFiberStored := fun heq => hls (by rw [hp, heq])
        simp [ManagerState.apply, hpne]
  -- from the stored flag to the fiber that takes it
  | @erase k g =>
    obtain ⟨g', p, hk, hg', hp, hpg⟩ := herased k rfl
    obtain rfl : g = g' := Option.some.inj hg'
    rw [ManagerState.ready] at hk
    refine .move (x := .stored p) (y := .fiber f) ?_ ?_ hfib₀ fun l hls hlf => ?_
    · simp [ManagerState.holds, ManagerState.apply, ManagerState.flagsAfterErase, hk]
    · rw [hfib]
      simp [ManagerState.holds, hp, hpg]
    · by_cases hlh : l = .handoff t
      · subst hlh
        simp [hhand, hhand', Stage.pending]
      · refine hl.holds_other hne hlf hlh (fun _ _ => rfl) fun q hq => ?_
        have hqp : q ≠ p := fun heq => hls (by rw [hq, heq])
        simp [ManagerState.apply, ManagerState.flagsAfterErase, hk, hqp]
  -- from the pool to the fiber that takes it
  | @take st g hg hst =>
    refine .move (x := .idle g) (y := .fiber f) ?_ ?_ hfib₀ fun l hli hlf => ?_
    · simp [ManagerState.holds, ManagerState.apply]
    · rw [hfib]
      simp [ManagerState.holds, hg]
    · by_cases hlh : l = .handoff t
      · subst hlh
        simp [hhand, hhand', hst]
      · refine hl.holds_other hne hlf hlh (fun k hk => ?_) fun _ _ => ⟨rfl, rfl⟩
        have hkg : k ≠ g := fun heq => hli (by rw [hk, heq])
        simp [ManagerState.apply, hkg]
  | switchTo | mainSwitchTo | switchBack => cases hlocal

/-- A switch leaves alone the places that are not those of its thread. -/
theorem OwnInv.SwitchStep.holds_eq (hi : OwnInv s) {s' : ManagerState} {g : ℕ}
    (hs : OwnInv.SwitchStep s t g s') {l : Place} (hrun : l ≠ .run t) (hhandoff : l ≠ .handoff t)
    (hthread : l ≠ .thread t) (hfiber : ∀ k, s.running t = some k → l ≠ .fiber k) :
    s'.holds l = s.holds l := by
  cases l with
  | run u =>
    have hut : u ≠ t := fun h => hrun (h ▸ rfl)
    rw [ManagerState.holds, hs.running, Function.update_of_ne hut]
    rfl
  | idle k => rw [ManagerState.holds, hs.idleFibers]; rfl
  | thread u =>
    have hut : u ≠ t := fun h => hthread (h ▸ rfl)
    rw [ManagerState.holds, hs.threads u hut]
    rfl
  | fiber k =>
    rw [ManagerState.holds, hs.fibers k fun hk => hfiber k hk rfl]
    rfl
  | handoff u =>
    have hut : u ≠ t := fun h => hhandoff (h ▸ rfl)
    simp only [ManagerState.holds, ManagerState.handedOff, hs.running, hs.tls,
      Function.update_of_ne hut]
    cases hu : s.running u with
    | none => rfl
    | some k =>
      have hkt : s.running t ≠ some k := fun ht => hut (hi.run_unique hu ht)
      simp only [hs.stage_other hkt]
  | stored p => rw [ManagerState.holds, hs.flags, hs.flagFiber]; rfl

/-- What is left of a fiber that switches to another one: its hand-off, or nothing. -/
theorem StageStep.of_switchTo {τ g : ℕ} {tls : TLS} {st st' : Stage} {r r' : Option ℕ}
    (h : StageStep s τ tls st r (.switchTo τ g) st' r') (hat : tls.AtStage f st) :
    st.pending = false ∧ (tls.previous = some f ∨ tls.previous = none ∧ st' = .gone) := by
  cases h with
  | quiet hact => cases hact
  | @switchTo p =>
    refine ⟨rfl, .inl ?_⟩
    cases p <;> obtain ⟨-, hat⟩ := hat <;> cases hd : tls.previousFiberDestination <;>
      simp_all [TLS.previous, TLS.handoff]
  | mainSwitchTo => exact ⟨rfl, .inr ⟨by simp [TLS.previous, hat.2], rfl⟩⟩

/-- A fiber that switches to another one hands itself off, or is gone. -/
theorem switch_conserved (hi : OwnInv s) (hrun : s.running t = some f) {g : ℕ}
    (h : FiberStep opts s f t (s.fibers f).pc (.switchTo t g) pc') (hstart : pc' ≠ .start)
    (hparked : ∀ b, pc'.stage b = .received → pc'.resumable = true) :
    Conserved s.holds ((s.apply t f (.switchTo t g)).setFiber f ⟨t, pc'⟩).holds
      ((s.apply t f (.switchTo t g)).setFiber f ⟨t, pc'⟩).Gone := by
  have hstage := h.stageStep (hi.not_gone hrun)
  obtain ⟨hstep, hplace, hcur⟩ := hi.switchStep_of_fiber hrun hstage hstart (hparked _)
  have hgone : pc'.stage (s.mainCallback f) = .gone →
      ((s.apply t f (.switchTo t g)).setFiber f ⟨t, pc'⟩).Gone f := by
    intro hpc
    rw [ManagerState.Gone, ManagerState.stage]
    simpa [ManagerState.apply] using hpc
  have hgrun : ∀ u, s.running u ≠ some g := fun u => hi.not_running rfl hplace
  have hrec : s.stage g = .received := hi.received_of_holds (l := .fiber f) rfl (by simp) hplace
  obtain ⟨hpend, hprev⟩ := hstage.of_switchTo (hi.atStage t f hrun)
  generalize (s.apply t f (.switchTo t g)).setFiber f ⟨t, pc'⟩ = s' at hstep hgone ⊢
  have hhand' : s'.holds (.handoff t) = (s.tls t).previous := by
    simp [ManagerState.holds, ManagerState.handedOff, hstep.running, hstep.tls,
      hstep.stage_other (hgrun t), hrec, Stage.pending]
  have hhand : s.holds (.handoff t) = none := by
    have hpend' : (s.stage f).pending = false := hpend
    simp [ManagerState.holds, ManagerState.handedOff, hrun, hpend']
  refine .shift (x := .fiber f) (y := .run t) (z := .handoff t) ?_ ?_ hhand ?_
    fun l hlf hlr hlh => ?_
  · exact (hstep.leaves f hrun).2
  · rw [hplace, ManagerState.holds, hstep.running, Function.update_self]
  · rw [hhand']
    rcases hprev with hprev | ⟨hnone, hst⟩
    · exact .inl (hprev.trans hrun.symm)
    · refine .inr ⟨hnone, fun k hk => ?_⟩
      obtain rfl : f = k := Option.some.inj (hrun.symm.trans hk)
      exact hgone hst
  · by_cases hlt : l = .thread t
    · subst hlt
      change (s'.threads t).reserved = (s.threads t).reserved
      rw [hstep.inFiber, hi.inFiber t f hrun]
    · refine hstep.holds_eq hi hlr hlh hlt fun k hk => ?_
      obtain rfl : f = k := Option.some.inj (hrun.symm.trans hk)
      exact hlf

/-- A fiber that switches back to its thread is gone. -/
theorem switchBack_conserved (hi : OwnInv s) (hrun : s.running t = some f)
    (hpc : (s.fibers f).pc = .switchBack) :
    Conserved s.holds ((s.apply t f .switchBack).setFiber f ⟨t, .ended⟩).holds
      ((s.apply t f .switchBack).setFiber f ⟨t, .ended⟩).Gone := by
  have hgone : ((s.apply t f .switchBack).setFiber f ⟨t, .ended⟩).Gone f := by
    simp [ManagerState.Gone, ManagerState.stage, FiberPc.stage]
  set s' := (s.apply t f .switchBack).setFiber f ⟨t, .ended⟩ with hs'
  have hrunning : s'.running = Function.update s.running t none := rfl
  have hthreads : s'.threads = Function.update s.threads t .returned := by
    rw [← hi.returns t f hrun]
    rfl
  have hfibers : ∀ g, g ≠ f → s'.fibers g = s.fibers g := fun g hg => by simp [hs', hg]
  refine .leave (x := .run t) (by simp [ManagerState.holds, hrunning]) (fun k hk => ?_)
    fun l hl => ?_
  · obtain rfl : f = k := Option.some.inj (hrun.symm.trans hk)
    exact hgone
  cases l with
  | run u =>
    have hut : u ≠ t := fun h => hl (h ▸ rfl)
    simp [ManagerState.holds, hrunning, hut]
  | idle g => rfl
  | thread u =>
    by_cases hut : u = t
    · subst hut
      simp [ManagerState.holds, hthreads, hi.inFiber u f hrun, ThreadPc.reserved]
    · simp [ManagerState.holds, hthreads, hut]
  | fiber g =>
    by_cases hgf : g = f
    · subst hgf
      simp [ManagerState.holds, hs', hpc, FiberPc.reserved]
    · simp [ManagerState.holds, hfibers g hgf]
  | handoff u =>
    by_cases hut : u = t
    · subst hut
      simp [ManagerState.holds, ManagerState.handedOff, hrunning, hrun, ManagerState.stage, hpc,
        FiberPc.stage, Stage.pending]
    · simp only [ManagerState.holds, ManagerState.handedOff, hrunning, Function.update_of_ne hut]
      cases hu : s.running u with
      | none => rfl
      | some g =>
        have hgf : g ≠ f := fun hgf => hut (hi.run_unique (hgf ▸ hu) hrun)
        simp only [ManagerState.stage, hfibers g hgf]
        rfl
  | stored p => rfl

/-- A step of a thread's own code that does not switch leaves alone the places that are not those of
the thread, but for the pool. -/
theorem OwnInv.OwnStep.holds_eq {s' : ManagerState} {pc : ThreadPc}
    (hs : OwnInv.OwnStep s t pc s') (hrun : s.running t = none) {l : Place} (hlt : l ≠ .thread t)
    (hidle : ∀ g, l = .idle g → s'.idleFibers g = s.idleFibers g) : s'.holds l = s.holds l := by
  cases l with
  | run u => rw [ManagerState.holds, hs.running]; rfl
  | idle g => simp [ManagerState.holds, hidle g rfl]
  | thread u =>
    have hut : u ≠ t := fun h => hlt (h ▸ rfl)
    simp [ManagerState.holds, hs.threads, hut]
  | fiber g => rw [ManagerState.holds, hs.fibers]; rfl
  | handoff u =>
    simp only [ManagerState.holds, ManagerState.handedOff, hs.running]
    cases hu : s.running u with
    | none => rfl
    | some g =>
      have hut : u ≠ t := by
        rintro rfl
        rw [hrun] at hu
        cases hu
      simp only [hs.stage u g hu, hs.tls u hut]
  | stored p => rw [ManagerState.holds, hs.flags, hs.flagFiber]; rfl

/-- A step of a thread's own code passes the fibers on. -/
theorem thread_conserved (hi : OwnInv s) (hrun : s.running t = none) {pc : ThreadPc}
    (h : ThreadStep s t (s.threads t) act pc) {gone : ℕ → Prop} :
    Conserved s.holds ((s.apply t noFiber act).setThread t pc).holds gone := by
  have hown := hi.ownCode t hrun
  have hplace : s.holds (.thread t) = (s.threads t).reserved := rfl
  have hcases := hi.ownStep_of_thread hrun h
  have hplace' : ((s.apply t noFiber act).setThread t pc).holds (.thread t) = pc.reserved := by
    simp [ManagerState.holds]
  have hhand : s.holds (.handoff t) = none := by
    simp [ManagerState.holds, ManagerState.handedOff, hrun]
  generalize hpc : s.threads t = pc₀ at h hplace hcases
  rw [hpc] at hown
  cases h with
  | search | setCurrentMain | setCurrentWorker | setCallback =>
    obtain hstep | ⟨g, hact, -⟩ := hcases
    · refine .of_eq fun l => ?_
      by_cases hlt : l = .thread t
      · rw [hlt, hplace, hplace']
        rfl
      · exact hstep.holds_eq hrun hlt fun _ _ => rfl
    · cases hact
  -- from the pool to the thread that takes it
  | @found _ g hg =>
    obtain hstep | ⟨g', hact, -⟩ := hcases
    · refine .move (x := .idle g) (y := .thread t) ?_ ?_ hplace fun l hli hlt => ?_
      · simp [ManagerState.holds, ManagerState.apply]
      · rw [hplace']
        simp [ManagerState.holds, hg, ThreadPc.reserved]
      · refine hstep.holds_eq hrun hlt fun k hk => ?_
        have hkg : k ≠ g := fun heq => hli (by rw [hk, heq])
        simp [ManagerState.apply, hkg]
    · cases hact
  -- onto the thread
  | @switchTo g =>
    obtain hstep | ⟨g', hact, -, hstep⟩ := hcases
    · have hrunning := congrFun hstep.running t
      simp [ManagerState.apply, hrun] at hrunning
    · cases hact
      refine .move (x := .thread t) (y := .run t) hplace' ?_ hrun fun l hlt hlr => ?_
      · rw [hplace, ManagerState.holds, hstep.running, Function.update_self]
        rfl
      · by_cases hlh : l = .handoff t
        · rw [hlh, hhand]
          by_contra hne
          obtain ⟨k, hk⟩ := Option.ne_none_iff_exists'.mp hne
          have hprev := hstep.previous_of_handoff hk
          simp [TLS.previous, hown.2] at hprev
        · exact hstep.holds_eq hi hlr hlh hlt fun k hk => by rw [hrun] at hk; cases hk

end Fiber

/-! ## Every step -/

/-- A fiber is gone where its `FiberCallback_Main` has switched to a fiber for good, or where it has
switched back to its thread. -/
theorem FiberPc.stage_eq_gone {pc : FiberPc} {b : Bool} :
    pc.stage b = .gone ↔ pc = .mainParked ∨ pc = .ended := by
  constructor
  · fun_cases FiberPc.stage b pc <;> simp
  · rintro (rfl | rfl) <;> rfl

section Manager

variable {opts : ManagerOptions} {s s' : ManagerState} {a : ManagerAction}

/-- Every orderly step passes the fibers on. -/
theorem managerStep_conserved (hm : ManagerInv s) (hs : managerStep opts s a = some s') :
    Conserved s.holds s'.holds s'.Gone := by
  rcases managerStep_inv hs with
    ⟨f, pc, act, pc', hrun, rfl, h, rfl⟩ | ⟨pc, act, pc', hrun, rfl, h, rfl⟩
  · rw [hm.own.onThread a.thread f hrun] at h ⊢
    obtain ⟨hstart, hlocal | ⟨g, rfl, -, hparked⟩ | ⟨rfl, rfl⟩⟩ := h.switch_cases
    · exact local_conserved hm.own hm.flag hrun h hlocal
    · exact switch_conserved hm.own hrun h hstart hparked
    · refine switchBack_conserved hm.own hrun ?_
      generalize (s.fibers f).pc = pc at h
      cases h
      rfl
  · exact thread_conserved hm.own hrun h

/-- A fiber that is gone stays so. -/
theorem ManagerState.Gone.step (hm : ManagerInv s) {k : ℕ} (hk : s.Gone k)
    (hs : managerStep opts s a = some s') : s'.Gone k := by
  have hfibers : s'.fibers k = s.fibers k :=
    (managerStep_moves hs).fibers k fun hrun => hm.own.not_gone hrun hk
  rw [ManagerState.Gone, ManagerState.stage, FiberPc.stage_eq_gone] at hk ⊢
  rwa [hfibers]

/-- Each fiber of the pool is somewhere, unless it is gone, and no other fiber is. -/
structure PoolInv (opts : ManagerOptions) (s : ManagerState) : Prop where
  placed : ∀ f < opts.numFibers, (∃ l, s.holds l = some f) ∨ s.Gone f
  bounded : ∀ l f, s.holds l = some f → f < opts.numFibers

theorem PoolInv.step (hp : PoolInv opts s) (hm : ManagerInv s)
    (hs : managerStep opts s a = some s') : PoolInv opts s' where
  placed f hf := by
    rcases hp.placed f hf with ⟨l, hl⟩ | hgone
    · exact (managerStep_conserved hm hs).forth l f hl
    · exact .inr (hgone.step hm hs)
  bounded l f hl := by
    obtain ⟨l₀, hl₀⟩ := (managerStep_conserved hm hs).back l f hl
    exact hp.bounded l₀ f hl₀

theorem PoolInv.start (opts : ManagerOptions) : PoolInv opts (.start opts) where
  placed f hf := .inl ⟨.idle f, by simp [ManagerState.holds, ManagerState.start, hf]⟩
  bounded l f hl := by
    cases l with
    | idle g =>
      simp only [ManagerState.holds, ManagerState.start, decide_eq_true_eq,
        Option.ite_none_right_eq_some, Option.some.injEq] at hl
      omega
    | thread t =>
      by_cases ht : t < opts.threadCount <;>
        simp [ManagerState.holds, ManagerState.start, ht, ThreadPc.reserved] at hl
    | run | fiber | handoff | stored => cases hl

theorem poolInv_of_run {h : History ManagerState ManagerAction}
    (hr : (managerSystem opts).Run Orderly h s) : PoolInv opts s := by
  induction hr with
  | init hs =>
    obtain rfl := hs
    exact .start opts
  | step hr _ hs ih => exact ih.step (managerInv_of_run hr) hs

/-- What is gone is in no place. -/
theorem ManagerInv.not_gone_of_holds (hm : ManagerInv s) {l : Place} {f : ℕ}
    (hl : s.holds l = some f) : ¬ s.Gone f := by
  intro hgone
  by_cases hoff : l.off = true
  · have hres := hm.own.resumable l f hoff hl
    rcases FiberPc.stage_eq_gone.mp hgone with hpc | hpc <;> rw [hpc] at hres <;> cases hres
  · cases l with
    | run t => exact hm.own.not_gone hl hgone
    | _ => exact hoff rfl

/-- In every orderly run, each fiber of the pool is in exactly one place (executed by a thread,
idle, taken for a switch, handed off, or waiting with its flag set), or it is gone and in none; and
no place holds a fiber that is not of the pool. -/
theorem fibers_accounted {h : History ManagerState ManagerAction}
    (hr : (managerSystem opts).Run Orderly h s) :
    (∀ f < opts.numFibers, (∃! l, s.holds l = some f) ∧ ¬ s.Gone f ∨
      (∀ l, s.holds l ≠ some f) ∧ s.Gone f) ∧
      ∀ l f, s.holds l = some f → f < opts.numFibers := by
  have hm := managerInv_of_run hr
  have hpool := poolInv_of_run hr
  refine ⟨fun f hf => ?_, hpool.bounded⟩
  rcases hpool.placed f hf with ⟨l, hl⟩ | hgone
  · exact .inl ⟨⟨l, hl, fun l' hl' => hm.own.exclusive l' l f hl' hl⟩, hm.not_gone_of_holds hl⟩
  · exact .inr ⟨fun l hl => hm.not_gone_of_holds hl hgone, hgone⟩

end Manager

/-! ## How many fibers a manager needs -/

section Pool

variable {opts : ManagerOptions} {s : ManagerState} {t f g : ℕ}

/-- The fiber has been switched away from in `WaitForCounter`, and waits to be resumed. -/
def ManagerState.Waiting (s : ManagerState) (f : ℕ) : Prop :=
  ∃ p, s.flags p = some true ∧ s.flagFiber p = f

/-- The fiber that thread `t` has in its hands besides the one that it executes: one that is taken
to be switched to, or one that is handed off. -/
def ManagerState.inHands (s : ManagerState) (t : ℕ) : Option ℕ :=
  match s.running t with
  | some f => if (s.stage f).pending then (s.tls t).previous else (s.fibers f).pc.reserved
  | none => (s.threads t).reserved

/-- A fiber that still has to look at its thread's hand-off has taken no other fiber. -/
theorem FiberPc.reserved_of_pending {pc : FiberPc} {b : Bool} (h : (pc.stage b).pending = true) :
    pc.reserved = none := by
  revert h
  fun_cases FiberPc.reserved pc <;> simp [FiberPc.stage, Stage.pending]

/-- A fiber at rest has taken no other fiber. -/
theorem FiberPc.reserved_of_atRest {pc : FiberPc} (h : pc.atRest = true) : pc.reserved = none := by
  revert h
  fun_cases FiberPc.reserved pc <;> simp [FiberPc.atRest]

/-- A fiber that is neither idle nor waiting is with one of the threads. -/
theorem withThread_of_holds (hi : OwnInv s) (hrest : RestInv opts s) {l : Place}
    (hl : s.holds l = some f) (hidle : s.idleFibers f = false) (hwait : ¬ s.Waiting f) :
    ∃ t < opts.threadCount, s.running t = some f ∨ s.inHands t = some f := by
  cases l with
  | run t => exact ⟨t, hrest.lt_of_running hl, .inl hl⟩
  | idle g =>
    simp only [ManagerState.holds, Option.ite_none_right_eq_some, Option.some.injEq] at hl
    rw [hl.2, hidle] at hl
    cases hl.1
  | thread t =>
    refine ⟨t, ?_, .inr ?_⟩
    · by_contra hge
      simp [ManagerState.holds, (hrest.absent t (by omega)).2, ThreadPc.reserved] at hl
    · cases hrun : s.running t with
      | none => simpa [ManagerState.inHands, ManagerState.holds, hrun] using hl
      | some g =>
        simp [ManagerState.holds, hi.inFiber t g hrun, ThreadPc.reserved] at hl
  | fiber g =>
    obtain ⟨t, ht⟩ : ∃ t, s.running t = some g := by
      by_contra hnone
      have hatRest := hrest.rest g fun t ht => hnone ⟨t, ht⟩
      rw [ManagerState.holds, FiberPc.reserved_of_atRest hatRest] at hl
      cases hl
    refine ⟨t, hrest.lt_of_running ht, .inr ?_⟩
    have hpend : (s.stage g).pending = false := by
      by_contra hpend
      have hnone := FiberPc.reserved_of_pending (Bool.eq_true_of_not_eq_false hpend)
      rw [ManagerState.holds, hnone] at hl
      cases hl
    simpa [ManagerState.inHands, ManagerState.holds, ht, hpend] using hl
  | handoff t =>
    simp only [ManagerState.holds, ManagerState.handedOff] at hl
    cases hrun : s.running t with
    | none => simp [hrun] at hl
    | some g =>
      simp only [hrun, Option.ite_none_right_eq_some] at hl
      exact ⟨t, hrest.lt_of_running hrun, .inr (by simp [ManagerState.inHands, hrun, hl.1, hl.2])⟩
  | stored p =>
    simp only [ManagerState.holds, Option.ite_none_right_eq_some, Option.some.injEq] at hl
    exact absurd ⟨p, hl⟩ hwait

/-- The fibers that the threads execute or have in their hands. -/
def ManagerState.withThreads (s : ManagerState) (n : ℕ) : Finset ℕ :=
  (Finset.range n).biUnion fun t => (s.running t).toFinset ∪ (s.inHands t).toFinset

theorem ManagerState.card_withThreads (s : ManagerState) (n : ℕ) :
    (s.withThreads n).card ≤ 2 * n := by
  have hone : ∀ o : Option ℕ, o.toFinset.card ≤ 1 := by
    intro o
    cases o <;> simp
  calc (s.withThreads n).card
      ≤ ∑ t ∈ Finset.range n, ((s.running t).toFinset ∪ (s.inHands t).toFinset).card :=
        Finset.card_biUnion_le
    _ ≤ ∑ _t ∈ Finset.range n, 2 := by
        refine Finset.sum_le_sum fun t _ => ?_
        have h₁ := hone (s.running t)
        have h₂ := hone (s.inHands t)
        have h₃ := Finset.card_union_le (s.running t).toFinset (s.inHands t).toFinset
        omega
    _ = 2 * n := by simp [mul_comm]

/-- `FindFreeFiber` from some point on, alone for `n` steps and with exchanges that fail on a
mismatch only: the fiber that it has taken, if it has returned. -/
def FindPc.alone (numFibers : ℕ) (idleFibers : ℕ → Bool) : ℕ → FindPc → Option ℕ
  | 0, _ => none
  | n + 1, pc =>
      match pc.next numFibers idleFibers true with
      | .inl pc' => FindPc.alone numFibers idleFibers n pc'
      | .inr f => some f

section Find

variable {n i : ℕ} {idle : ℕ → Bool}

/-- The search takes an idle fiber that it looks at, in three steps. -/
theorem FindPc.alone_of_idle (hi : i < n) (hidle : idle i = true) (m : ℕ) :
    FindPc.alone n idle (m + 3) (.loadRelaxed i) = some i := by
  simp [FindPc.alone, FindPc.next, hi, hidle]

/-- It goes on to the next fiber otherwise. -/
theorem FindPc.alone_of_not_idle (hi : i < n) (hidle : idle i = false) (m : ℕ) :
    FindPc.alone n idle (m + 1) (.loadRelaxed i) =
      FindPc.alone n idle m (.loadRelaxed (i + 1)) := by
  simp [FindPc.alone, FindPc.next, hi, hidle]

/-- The search does not go past an idle fiber. -/
theorem FindPc.alone_upTo (hg : g < n) (hidle : idle g = true) {d m : ℕ} (hd : i + d = g)
    (hm : d + 3 ≤ m) : ∃ k, FindPc.alone n idle m (.loadRelaxed i) = some k ∧ idle k = true := by
  induction d generalizing i m with
  | zero =>
    obtain rfl : i = g := hd
    obtain ⟨m, rfl⟩ := Nat.exists_eq_add_of_le' hm
    exact ⟨i, FindPc.alone_of_idle hg hidle m, hidle⟩
  | succ d ih =>
    have hi : i < n := by omega
    cases hidle' : idle i with
    | true =>
      obtain ⟨m, rfl⟩ := Nat.exists_eq_add_of_le' (show 3 ≤ m by omega)
      exact ⟨i, FindPc.alone_of_idle hi hidle' m, hidle'⟩
    | false =>
      obtain ⟨m, rfl⟩ := Nat.exists_eq_add_of_le' (show 1 ≤ m by omega)
      rw [FindPc.alone_of_not_idle hi hidle']
      exact ih (by omega) (by omega)

/-- From wherever it is, the search comes to an idle fiber, in one turn at most. -/
theorem FindPc.alone_around (hg : g < n) (hidle : idle g = true) {d m : ℕ} (hd : n ≤ i + d)
    (hm : d + 1 + n + 3 ≤ m) :
    ∃ k, FindPc.alone n idle m (.loadRelaxed i) = some k ∧ idle k = true := by
  induction d generalizing i m with
  | zero =>
    obtain ⟨m, rfl⟩ := Nat.exists_eq_add_of_le' (show 1 ≤ m by omega)
    have hi : ¬ i < n := by omega
    have hend : FindPc.alone n idle (m + 1) (.loadRelaxed i) =
        FindPc.alone n idle m (.loadRelaxed 0) := by
      simp [FindPc.alone, FindPc.next, hi]
    rw [hend]
    exact FindPc.alone_upTo (d := g) hg hidle (by omega) (by omega)
  | succ d ih =>
    by_cases hi : i < n
    · cases hidle' : idle i with
      | true =>
        obtain ⟨m, rfl⟩ := Nat.exists_eq_add_of_le' (show 3 ≤ m by omega)
        exact ⟨i, FindPc.alone_of_idle hi hidle' m, hidle'⟩
      | false =>
        obtain ⟨m, rfl⟩ := Nat.exists_eq_add_of_le' (show 1 ≤ m by omega)
        rw [FindPc.alone_of_not_idle hi hidle']
        exact ih (by omega) (by omega)
    · exact ih (by omega) (by omega)

/-- The search returns an idle fiber if there is one, whatever it is about to do. -/
theorem FindPc.alone_returns (hg : g < n) (hidle : idle g = true) (pc : FindPc) :
    ∃ k, FindPc.alone n idle (2 * n + 6) pc = some k ∧ idle k = true := by
  have hturn : ∀ i m, 2 * n + 4 ≤ m →
      ∃ k, FindPc.alone n idle m (.loadRelaxed i) = some k ∧ idle k = true :=
    fun i m hm => FindPc.alone_around (d := n) hg hidle (by omega) (by omega)
  cases pc with
  | loadRelaxed i => exact hturn i _ (by omega)
  | loadAcquire i =>
    cases hi : idle i with
    | true => exact ⟨i, by simp [FindPc.alone, FindPc.next, hi], hi⟩
    | false =>
      have hskip : FindPc.alone n idle (2 * n + 6) (.loadAcquire i) =
          FindPc.alone n idle (2 * n + 5) (.loadRelaxed (i + 1)) := by
        simp [FindPc.alone, FindPc.next, hi]
      rw [hskip]
      exact hturn _ _ (by omega)
  | casIdle i =>
    cases hi : idle i with
    | true => exact ⟨i, by simp [FindPc.alone, FindPc.next, hi], hi⟩
    | false =>
      have hskip : FindPc.alone n idle (2 * n + 6) (.casIdle i) =
          FindPc.alone n idle (2 * n + 5) (.loadRelaxed (i + 1)) := by
        simp [FindPc.alone, FindPc.next, hi]
      rw [hskip]
      exact hturn _ _ (by omega)

end Find

/-- If the fibers that wait or are gone, and two for each thread, are fewer than the pool has, then
one is idle. -/
theorem exists_idle {h : History ManagerState ManagerAction}
    (hr : (managerSystem opts).Run Orderly h s) {W : Finset ℕ}
    (hW : ∀ f, s.Waiting f ∨ s.Gone f → f ∈ W)
    (hfew : W.card + 2 * opts.threadCount < opts.numFibers) :
    ∃ f < opts.numFibers, s.idleFibers f = true := by
  by_contra hnone
  have hcover : Finset.range opts.numFibers ⊆ W ∪ s.withThreads opts.threadCount := by
    intro f hf
    have hlt := Finset.mem_range.mp hf
    have hidle : s.idleFibers f = false := by
      by_contra hidle
      exact hnone ⟨f, hlt, by simpa using hidle⟩
    rw [Finset.mem_union]
    by_cases hwait : s.Waiting f
    · exact .inl (hW f (.inl hwait))
    rcases (poolInv_of_run hr).placed f hlt with ⟨l, hl⟩ | hgone
    · obtain ⟨t, ht, hwith⟩ := withThread_of_holds (managerInv_of_run hr).own
        (restInv_of_run hr) hl hidle hwait
      refine .inr (Finset.mem_biUnion.mpr ⟨t, Finset.mem_range.mpr ht, ?_⟩)
      rcases hwith with hrun | hhand
      · simp [hrun]
      · simp [hhand]
    · exact .inl (hW f (.inr hgone))
  have hcard := Finset.card_le_card hcover
  have hunion := Finset.card_union_le W (s.withThreads opts.threadCount)
  have hthreads := s.card_withThreads opts.threadCount
  rw [Finset.card_range] at hcard
  omega

/-- A pool that is large enough: as long as the fibers that wait or are gone, and two for each
thread, are fewer than the pool has, a `FindFreeFiber` that is left alone returns an idle fiber,
from any of its points, within two turns. -/
theorem findFreeFiber_returns {h : History ManagerState ManagerAction}
    (hr : (managerSystem opts).Run Orderly h s) {W : Finset ℕ}
    (hW : ∀ f, s.Waiting f ∨ s.Gone f → f ∈ W)
    (hfew : W.card + 2 * opts.threadCount < opts.numFibers) (pc : FindPc) :
    ∃ g, pc.alone opts.numFibers s.idleFibers (2 * opts.numFibers + 6) = some g ∧
      s.idleFibers g = true := by
  obtain ⟨f, hf, hidle⟩ := exists_idle hr hW hfew
  exact FindPc.alone_returns hf hidle pc

end Pool

/-! ## A run of two threads -/

theorem fibers_accounted_resumed :
    ∃ h s, (managerSystem twoWorkers).Run Orderly h s ∧ s.holds (.run 0) = some 0 ∧
      ∀ f < 3, (∃! l, s.holds l = some f) ∧ ¬ s.Gone f ∨
        (∀ l, s.holds l ≠ some f) ∧ s.Gone f := by
  obtain ⟨h, s, hr, hrun, -⟩ := exists_mainResumes
  exact ⟨h, s, hr, hrun, (fibers_accounted hr).1⟩

/-- One worker thread besides the IO thread, and six fibers. -/
def sixFibers : ManagerOptions := ⟨1, 6, false⟩

/-- The main callback waits for a job: its fiber is the only one that waits. -/
theorem findFreeFiber_returns_waiting :
    ∃ h s, (managerSystem sixFibers).Run Orderly h s ∧ s.Waiting 0 ∧
      ∃ g, (FindPc.loadRelaxed 0).alone 6 s.idleFibers 18 = some g ∧ s.idleFibers g = true := by
  have hrun : ∃ (h : History ManagerState ManagerAction) (s : ManagerState),
      (managerSystem sixFibers).Run Orderly h s ∧
        (s.flags 1 = some true ∧ s.flagFiber 1 = 0 ∧ s.running 0 = some 1 ∧
          ∀ f < 6, 2 ≤ f → s.idleFibers f = true) ∧
        (∀ f < 6, s.stage f ≠ .gone) ∧ ∀ e ∈ h, ∀ f ∈ e.1.running e.2.thread, f < 6 :=
    System.exists_run_of_trace_by (managerStepEval_eq _) rfl (mainWaitsFor .normal)
      (by decide +kernel)
  obtain ⟨h, s, hr, ⟨hflag, hfiber, hone, hidle⟩, hgone, hlt⟩ := hrun
  have hi := (managerInv_of_run hr).own
  refine ⟨h, s, hr, ⟨1, hflag, hfiber⟩, findFreeFiber_returns hr (W := {0}) (fun f hf => ?_)
    (by decide) (.loadRelaxed 0)⟩
  rw [Finset.mem_singleton]
  rcases hf with ⟨p, hp, hpf⟩ | hf
  · have hplace : s.holds (.stored p) = some f := by simp [ManagerState.holds, hp, hpf]
    have hf6 := (poolInv_of_run hr).bounded _ f hplace
    by_contra hf0
    rcases Nat.lt_or_ge f 2 with hf2 | hf2
    · obtain rfl : f = 1 := by omega
      exact hi.not_running rfl hplace hone
    · have hpool : s.holds (.idle f) = some f := by simp [ManagerState.holds, hidle f hf6 hf2]
      cases hi.exclusive _ _ f hplace hpool
  · exfalso
    rcases Nat.lt_or_ge f 6 with hf6 | hf6
    · exact hgone f hf6 hf
    · rcases FiberPc.stage_eq_gone.mp hf with hpc | hpc <;>
        rw [startedBelow_of_run hr hlt f hf6] at hpc <;> cases hpc

end NomadTasks
