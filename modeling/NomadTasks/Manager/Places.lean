import NomadTasks.Manager.Stage
import NomadTasks.Ownership.Exclusive

/-!
# Where the fibers are

Every fiber of the pool is in one place at a time: it is executed by a thread, it is idle, it has
been taken for a switch that has not happened yet, it has been switched away from and its hand-off
is pending, or it waits and its `fiberStored` flag is set. `OwnInv` says so, and ties the `TLS` of
the threads to the program points of their fibers.

* `Place`, `ManagerState.holds`: the places, and the fiber in each.
* `OwnInv.local_step`: steps of a fiber that does not switch keep the invariant.
* `OwnInv.switch_step`: so do switches, if they resume `GetNextJob` on the thread that has called
  it only.
-/

namespace NomadTasks

open Transition Ownership

/-- The members of a `TLS` that hand-offs depend on. -/
def TLS.core (tls : TLS) : TLS := { tls with readyFibers := [] }

/-- The fiber that is handed off. -/
def TLS.previous (tls : TLS) : Option ℕ :=
  if tls.previousFiberDestination = .none then none else some tls.previousFiberIndex

theorem TLS.previous_core (tls : TLS) : tls.core.previous = tls.previous := rfl

theorem TLS.handoff_core (tls : TLS) : tls.core.handoff = tls.handoff := rfl

/-- The stages depend on these members only. -/
theorem TLS.atStage_core (tls : TLS) (f : ℕ) (st : Stage) :
    tls.core.AtStage f st ↔ tls.AtStage f st := by
  rcases st with _ | _ | _ | _ | _ | _ | _ | _ | p | ⟨p, g⟩ | _
  all_goals exact Iff.rfl

/-- The places where a fiber can be. -/
inductive Place
  /-- Executed by thread `t`. -/
  | run (t : ℕ)
  /-- In the pool, with its idle flag set. -/
  | idle (f : ℕ)
  /-- Taken by the own code of thread `t`. -/
  | thread (t : ℕ)
  /-- Taken by fiber `f`. -/
  | fiber (f : ℕ)
  /-- Switched away from on thread `t`, until its hand-off is performed. -/
  | handoff (t : ℕ)
  /-- Waiting, with its flag `p` set. -/
  | stored (p : FlagPtr)
  deriving DecidableEq

/-- A place other than a thread. -/
def Place.off : Place → Bool
  | .run _ => false
  | _ => true

namespace ManagerState

/-- The stage of fiber `f`. -/
def stage (s : ManagerState) (f : ℕ) : Stage := (s.fibers f).pc.stage (s.mainCallback f)

/-- The fiber whose hand-off is pending on thread `t`. -/
def handedOff (s : ManagerState) (t : ℕ) : Option ℕ :=
  match s.running t with
  | some f => if (s.stage f).pending then (s.tls t).previous else none
  | none => none

/-- The fiber in each place. -/
def holds (s : ManagerState) : Place → Option ℕ
  | .run t => s.running t
  | .idle f => if s.idleFibers f then some f else none
  | .thread t => (s.threads t).reserved
  | .fiber f => (s.fibers f).pc.reserved
  | .handoff t => s.handedOff t
  | .stored p => if s.flags p = some true then some (s.flagFiber p) else none

end ManagerState

/-- What the `TLS` of a thread holds while it executes its own code. -/
def ThreadPc.TlsOk (tls : TLS) : ThreadPc → Prop
  | .findFree _ | .setCurrent _ => tls.previousFiberDestination = .none
  | .setCallback g | .switchTo g =>
      tls.currentFiberIndex = g ∧ tls.previousFiberDestination = .none
  | .inFiber | .returned => True

theorem ThreadPc.tlsOk_core (pc : ThreadPc) (tls : TLS) : pc.TlsOk tls.core ↔ pc.TlsOk tls := by
  cases pc <;> exact Iff.rfl

/-- Every fiber is in one place; off the threads, it is where it can be switched to. A fiber on a
thread uses the thread's `TLS`, which is as its stage says, and returns to the thread. A thread
that has not switched yet has no hand-off, and only a thread starts the main callback. -/
structure OwnInv (s : ManagerState) : Prop where
  exclusive : Exclusive s.holds
  resumable : ∀ l g, l.off = true → s.holds l = some g → (s.fibers g).pc.resumable = true
  onThread : ∀ t f, s.running t = some f → (s.fibers f).currentTLS t = t
  atStage : ∀ t f, s.running t = some f → (s.tls t).AtStage f (s.stage f)
  inFiber : ∀ t f, s.running t = some f → s.threads t = .inFiber
  returns : ∀ t f, s.running t = some f → s.returnFiber f = t
  ownCode : ∀ t, s.running t = none → (s.threads t).TlsOk (s.tls t)
  mainStart : ∀ f, s.mainCallback f = true → (s.fibers f).pc = .start →
    ∃ t, s.threads t = .switchTo f ∨ s.running t = some f

/-- A step of fiber `f` on thread `t`, to `pc'`, that does not switch: no other fiber or thread
moves, and at most the `TLS` of its thread changes. -/
structure LocalStep (s : ManagerState) (t f : ℕ) (pc' : FiberPc) (s' : ManagerState) : Prop where
  running : s'.running = s.running
  threads : s'.threads = s.threads
  returnFiber : s'.returnFiber = s.returnFiber
  mainCallback : s'.mainCallback = s.mainCallback
  fibers : s'.fibers = Function.update s.fibers f ⟨t, pc'⟩
  tls : ∀ u, u ≠ t → (s'.tls u).core = (s.tls u).core

/-- The act changes no `TLS` but that of thread `t`, and does not switch. -/
def Act.localTo (t : ℕ) : Act → Bool
  | .writeTls τ _ | .erase τ _ => τ == t
  | .switchTo .. | .switchBack | .setCallback _ => false
  | _ => true

/-- Such acts make such steps. -/
theorem LocalStep.of_apply {s : ManagerState} {t f : ℕ} {act : Act} (pc' : FiberPc)
    (hact : act.localTo t = true) :
    LocalStep s t f pc' ((s.apply t f act).setFiber f ⟨t, pc'⟩) := by
  cases act with
  | writeTls τ w =>
    obtain rfl : τ = t := by simpa [Act.localTo] using hact
    exact ⟨rfl, rfl, rfl, rfl, rfl, fun u hu => by simp [ManagerState.apply, hu]⟩
  | erase τ k =>
    obtain rfl : τ = t := by simpa [Act.localTo] using hact
    exact ⟨rfl, rfl, rfl, rfl, rfl, fun u hu => by simp [ManagerState.apply, hu]⟩
  | counter c a =>
    exact ⟨rfl, rfl, rfl, rfl, rfl, fun u hu => by simp [ManagerState.apply, hu]⟩
  | endWait caller | throwThrough caller =>
    cases caller <;> exact ⟨rfl, rfl, rfl, rfl, rfl, fun _ _ => rfl⟩
  | switchTo | switchBack | setCallback => cases hact
  | _ => exact ⟨rfl, rfl, rfl, rfl, rfl, fun _ _ => rfl⟩

/-- Only `CleanupPreviousFiber` puts a fiber into the pool. -/
theorem ManagerState.idle_of_apply {s : ManagerState} {t f g : ℕ} {act : Act}
    (hg : (s.apply t f act).idleFibers g = true) :
    s.idleFibers g = true ∨ ∃ τ, act = .storeIdle τ ∧ (s.tls τ).previousFiberIndex = g := by
  cases act with
  | storeIdle τ =>
    by_cases hτ : g = (s.tls τ).previousFiberIndex
    · exact .inr ⟨τ, rfl, hτ.symm⟩
    · exact .inl (by simpa [ManagerState.apply, hτ] using hg)
  | takeIdle k =>
    by_cases hk : g = k
    · simp [ManagerState.apply, hk] at hg
    · exact .inl (by simpa [ManagerState.apply, hk] using hg)
  | endWait caller | throwThrough caller => cases caller <;> exact .inl hg
  | _ => exact .inl hg

/-- A step on another thread leaves what a thread executes. -/
theorem ManagerState.apply_running_of_ne {s : ManagerState} {t f u : ℕ} {act : Act} (hu : u ≠ t) :
    (s.apply t f act).running u = s.running u := by
  cases act with
  | switchTo | switchBack => exact Function.update_of_ne hu ..
  | endWait caller | throwThrough caller => cases caller <;> rfl
  | _ => rfl

namespace LocalStep

variable {s s' : ManagerState} {t f : ℕ} {pc' : FiberPc}

/-- The other fibers are at the stages they were at. -/
theorem stage_other (hl : LocalStep s t f pc' s') {g : ℕ} (hgf : g ≠ f) :
    s'.stage g = s.stage g := by
  rw [ManagerState.stage, hl.fibers, Function.update_of_ne hgf, hl.mainCallback]
  rfl

/-- The other threads have the hand-offs they had. -/
theorem previous_other (hl : LocalStep s t f pc' s') {u : ℕ} (hut : u ≠ t) :
    (s'.tls u).previousFiberIndex = (s.tls u).previousFiberIndex ∧
      (s'.tls u).previousFiberDestination = (s.tls u).previousFiberDestination ∧
        (s'.tls u).previousFiberStored = (s.tls u).previousFiberStored := by
  have hcore := hl.tls u hut
  simp only [TLS.core, TLS.mk.injEq] at hcore
  exact ⟨hcore.2.1, hcore.2.2.2.1, hcore.2.2.1⟩

/-- The fiber that the stepping fiber has taken. -/
theorem holds_fiber (hl : LocalStep s t f pc' s') : s'.holds (.fiber f) = pc'.reserved := by
  simp [ManagerState.holds, hl.fibers]

/-- The hand-off on the thread of the stepping fiber. -/
theorem holds_handoff (hl : LocalStep s t f pc' s') (hrun : s.running t = some f) :
    s'.holds (.handoff t) =
      if (pc'.stage (s.mainCallback f)).pending then (s'.tls t).previous else none := by
  simp [ManagerState.holds, ManagerState.handedOff, ManagerState.stage, hl.running, hrun,
    hl.fibers, hl.mainCallback]

/-- The other places, apart from those that hold a fiber by its idle flag or a stored flag. -/
theorem holds_other (hl : LocalStep s t f pc' s')
    (hne : ∀ u g, u ≠ t → s.running u = some g → g ≠ f) {l : Place} (hfiber : l ≠ .fiber f)
    (hhandoff : l ≠ .handoff t) (hidle : ∀ g, l = .idle g → s'.idleFibers g = s.idleFibers g)
    (hstored : ∀ p, l = .stored p →
      s'.flags p = s.flags p ∧ s'.flagFiber p = s.flagFiber p) : s'.holds l = s.holds l := by
  -- only the reserved fiber of `f`, the hand-off of `t`, the pool and the flags can change
  cases l with
  | run u => simp [ManagerState.holds, hl.running]
  | idle g => simp [ManagerState.holds, hidle g rfl]
  | thread u => simp [ManagerState.holds, hl.threads]
  | fiber g =>
    have hgf : g ≠ f := fun h => hfiber (h ▸ rfl)
    simp [ManagerState.holds, hl.fibers, hgf]
  | handoff u =>
    have hut : u ≠ t := fun h => hhandoff (h ▸ rfl)
    simp only [ManagerState.holds, ManagerState.handedOff, hl.running]
    cases hu : s.running u with
    | none => rfl
    | some g =>
      have hstage : s'.stage g = s.stage g := hl.stage_other (hne u g hut hu)
      have htls : (s'.tls u).previous = (s.tls u).previous := by
        rw [← TLS.previous_core, hl.tls u hut, TLS.previous_core]
      simp only [hstage, htls]
  | stored p => simp [ManagerState.holds, hstored p rfl]

end LocalStep

namespace OwnInv

variable {s : ManagerState} {t f : ℕ}

/-- No fiber is executed by two threads. -/
theorem run_unique (hi : OwnInv s) {t' : ℕ} (ht : s.running t = some f)
    (ht' : s.running t' = some f) : t = t' := by
  have := hi.exclusive (.run t) (.run t') f ht ht'
  cases this
  rfl

/-- A fiber in another place is not executed. -/
theorem not_running (hi : OwnInv s) {l : Place} (hoff : l.off = true) (hl : s.holds l = some f) :
    s.running t ≠ some f := by
  intro ht
  obtain rfl : l = .run t := hi.exclusive l (.run t) f hl ht
  cases hoff

/-- A fiber that a thread executes has not left it. -/
theorem not_gone (hi : OwnInv s) (hrun : s.running t = some f) : s.stage f ≠ .gone := by
  intro hgone
  have hat := hi.atStage t f hrun
  rw [hgone] at hat
  exact hat

/-- A local step keeps the invariant when it leaves the `TLS` as the stage says and moves at most
one fiber between places off the threads. -/
theorem of_local (hi : OwnInv s) (hrun : s.running t = some f) {s' : ManagerState}
    {pc' : FiberPc} (hlocal : LocalStep s t f pc' s') (hstart : pc' ≠ .start)
    (hstage : (s'.tls t).AtStage f (pc'.stage (s.mainCallback f)))
    (hmove : (∀ l g, s'.holds l = some g → s.holds l = some g) ∨
      ∃ x y, x.off = true ∧ s'.holds x = none ∧ (∀ g, s'.holds y = some g → s.holds x = some g) ∧
        ∀ l g, l ≠ y → s'.holds l = some g → s.holds l = some g) : OwnInv s' := by
  have hne : ∀ u g, u ≠ t → s.running u = some g → g ≠ f := by
    rintro u g hu hg rfl
    exact hu (hi.run_unique hg hrun)
  have hexcl : Exclusive s'.holds := by
    -- either no place gains a fiber, or one fiber moves from `x` to `y`
    rcases hmove with hsub | ⟨x, y, -, hx, hy, hother⟩
    · exact hi.exclusive.sub hsub
    · exact hi.exclusive.move hx hy hother
  refine ⟨hexcl, fun l g hoff hl => ?_, fun u g hu => ?_, fun u g hu => ?_, fun u g hu => ?_,
    fun u g hu => ?_, fun u hu => ?_, fun g hg hpc => ?_⟩
  · -- a fiber off the threads is not `f`, and was off the threads before
    have hgf : g ≠ f := by
      rintro rfl
      obtain rfl : l = .run t := hexcl l (.run t) g hl (by
        rw [ManagerState.holds, hlocal.running]
        exact hrun)
      cases hoff
    rw [hlocal.fibers, Function.update_of_ne hgf]
    rcases hmove with hsub | ⟨x, y, hxoff, hx, hy, hother⟩
    · exact hi.resumable l g hoff (hsub l g hl)
    · by_cases hly : l = y
      · subst hly
        exact hi.resumable x g hxoff (hy g hl)
      · exact hi.resumable l g hoff (hother l g hly hl)
  · rw [hlocal.running] at hu
    by_cases hut : u = t
    · subst hut
      obtain rfl : f = g := Option.some.inj (hrun.symm.trans hu)
      rw [hlocal.fibers, Function.update_self]
      simp [FiberState.currentTLS]
    · rw [hlocal.fibers, Function.update_of_ne (hne u g hut hu)]
      exact hi.onThread u g hu
  · rw [hlocal.running] at hu
    by_cases hut : u = t
    · subst hut
      obtain rfl : f = g := Option.some.inj (hrun.symm.trans hu)
      rw [ManagerState.stage, hlocal.fibers, Function.update_self, hlocal.mainCallback]
      exact hstage
    · rw [hlocal.stage_other (hne u g hut hu), ← TLS.atStage_core, hlocal.tls u hut,
        TLS.atStage_core]
      exact hi.atStage u g hu
  · rw [hlocal.threads]
    exact hi.inFiber u g (hlocal.running ▸ hu)
  · rw [hlocal.returnFiber]
    exact hi.returns u g (hlocal.running ▸ hu)
  · rw [hlocal.running] at hu
    have hut : u ≠ t := by
      rintro rfl
      rw [hrun] at hu
      cases hu
    rw [hlocal.threads, ← ThreadPc.tlsOk_core, hlocal.tls u hut, ThreadPc.tlsOk_core]
    exact hi.ownCode u hu
  · have hgf : g ≠ f := by
      rintro rfl
      rw [hlocal.fibers, Function.update_self] at hpc
      exact hstart hpc
    rw [hlocal.fibers, Function.update_of_ne hgf] at hpc
    rw [hlocal.threads, hlocal.running]
    exact hi.mainStart g (hlocal.mainCallback ▸ hg) hpc

/-- A quiet act changes nothing that the places depend on. -/
theorem quiet_apply {act : Act} (hact : act.quiet = true) (t f : ℕ) :
    ((s.apply t f act).tls t).core = (s.tls t).core ∧ (s.apply t f act).idleFibers = s.idleFibers ∧
      (s.apply t f act).flags = s.flags ∧ (s.apply t f act).flagFiber = s.flagFiber := by
  cases act with
  | counter c a => exact ⟨by simp [ManagerState.apply, TLS.core], rfl, rfl, rfl⟩
  | endWait caller | throwThrough caller => cases caller <;> exact ⟨rfl, rfl, rfl, rfl⟩
  | _ => first | exact ⟨rfl, rfl, rfl, rfl⟩ | cases hact

/-- The places after a local step that takes no fiber and moves none. -/
private theorem holds_sub (hi : OwnInv s) (hrun : s.running t = some f) {s' : ManagerState}
    {pc' : FiberPc} (hl : LocalStep s t f pc' s')
    (hreserved : pc'.reserved = (s.fibers f).pc.reserved)
    (hhandoff : ∀ g, s'.holds (.handoff t) = some g → s.holds (.handoff t) = some g)
    (hidle : s'.idleFibers = s.idleFibers)
    (hstored : ∀ p, s'.flags p = some true →
      s.flags p = some true ∧ s'.flagFiber p = s.flagFiber p) :
    ∀ l g, s'.holds l = some g → s.holds l = some g := by
  intro l g hg
  by_cases hf : l = .fiber f
  · subst hf
    rw [hl.holds_fiber, hreserved] at hg
    exact hg
  · by_cases hh : l = .handoff t
    · subst hh
      exact hhandoff g hg
    · cases l with
      | stored p =>
        simp only [ManagerState.holds, Option.ite_none_right_eq_some] at hg ⊢
        obtain ⟨hp, hpf⟩ := hstored p hg.1
        exact ⟨hp, hpf ▸ hg.2⟩
      | _ =>
        rwa [hl.holds_other (fun u g hu hg hgf => hu (hi.run_unique (hgf ▸ hg) hrun)) hf hh
          (fun _ _ => by rw [hidle]) (fun _ h => nomatch h)] at hg

/-- Steps of a fiber that does not switch keep the invariant, if the entry that it erases is that of
a stored fiber, and the flag that it sets is that of the fiber that is handed off. -/
theorem local_step (hi : OwnInv s) (hrun : s.running t = some f) {act : Act} {pc' : FiberPc}
    (h : StageStep s t (s.tls t) (s.stage f) (s.fibers f).pc.reserved act
      (pc'.stage (s.mainCallback f)) pc'.reserved)
    (hlocal : act.localTo t = true) (hstart : pc' ≠ .start)
    (herase : ∀ k, act = .erase t k → ∃ g p, (s.tls t).readyFibers[k]? = some (g, p) ∧
      pc'.reserved = some g ∧ s.flags p = some true ∧ s.flagFiber p = g)
    (hstored : act = .storeStored t →
      s.flagFiber (s.tls t).previousFiberStored = (s.tls t).previousFiberIndex) :
    OwnInv ((s.apply t f act).setFiber f ⟨t, pc'⟩) := by
  have hl : LocalStep s t f pc' ((s.apply t f act).setFiber f ⟨t, pc'⟩) := .of_apply pc' hlocal
  have hne : ∀ u g, u ≠ t → s.running u = some g → g ≠ f :=
    fun u g hu hg hgf => hu (hi.run_unique (hgf ▸ hg) hrun)
  have hat := hi.atStage t f hrun
  have hhand : s.holds (.handoff t) =
      if (s.stage f).pending then (s.tls t).previous else none := by
    simp [ManagerState.holds, ManagerState.handedOff, hrun]
  have hhand' := hl.holds_handoff hrun
  have hfib := hl.holds_fiber
  have hfib₀ : s.holds (.fiber f) = (s.fibers f).pc.reserved := rfl
  have hsub := hi.holds_sub hrun hl
  have hlocal' := hi.of_local hrun hl hstart
  generalize s.stage f = st at h hat hhand
  generalize (s.fibers f).pc.reserved = r at h hfib₀ hsub
  generalize pc'.stage (s.mainCallback f) = st' at h hhand' hlocal'
  generalize pc'.reserved = r' at h herase hfib hsub
  have hstep := h
  cases h with
  -- nothing that a place refers to changes
  | quiet hact hst =>
    obtain ⟨hcore, hidle, hflags, hff⟩ := quiet_apply (s := s) hact t f
    refine hlocal' ?_ (.inl (hsub rfl (fun g hg => ?_) hidle fun p hp => ?_))
    · rw [ManagerState.setFiber_tls, ← TLS.atStage_core, hcore, TLS.atStage_core]
      exact hat
    · rwa [hhand', ManagerState.setFiber_tls, ← TLS.previous_core, hcore, TLS.previous_core,
        ← hhand] at hg
    · exact ⟨by rwa [ManagerState.setFiber_flags, hflags] at hp, by simp [hff]⟩
  | @newStored p _ | @deleteStored p =>
    refine hlocal' hat (.inl (hsub rfl (fun g hg => by simp [hhand', Stage.pending] at hg) rfl
      fun q hq => ?_))
    have hqp : q ≠ p := by
      rintro rfl
      simp [ManagerState.apply] at hq
    simpa [ManagerState.apply, hqp] using hq
  | nothing hd =>
    exact hlocal' ⟨hat, hd⟩ (.inl (hsub rfl (fun g hg => by simp [hhand', Stage.pending] at hg)
      rfl fun p hp => ⟨hp, rfl⟩))
  | pool hd | waitingStored hd =>
    refine hlocal' ⟨hat, hd⟩ (.inl (hsub rfl (fun g hg => ?_) rfl fun p hp => ⟨hp, rfl⟩))
    rw [hhand'] at hg
    exact hhand.trans hg
  -- the fiber that was left goes from the hand-off to the pool
  | storeIdle =>
    refine hlocal' hat.1 (.inr ⟨.handoff t, .idle (s.tls t).previousFiberIndex, rfl,
      by simp [hhand', Stage.pending], fun g hg => ?_, fun l g hly hg => ?_⟩)
    · have hg' : (s.tls t).previousFiberIndex = g := by
        simpa [ManagerState.holds, ManagerState.apply] using hg
      simp [hhand, Stage.pending, TLS.previous, hat.2, hg']
    · by_cases hf : l = .fiber f
      · subst hf
        rwa [hfib, ← hfib₀] at hg
      · by_cases hh : l = .handoff t
        · subst hh
          simp [hhand', Stage.pending] at hg
        · rwa [hl.holds_other hne hf hh (fun g' hg' => ?_) fun _ _ => ⟨rfl, rfl⟩] at hg
          have hne' : g' ≠ (s.tls t).previousFiberIndex := by
            rintro rfl
            exact hly hg'
          simp [ManagerState.apply, hne']
  -- the fiber that was left goes from the hand-off to its stored flag
  | storeStored =>
    refine hlocal' hat.1 (.inr ⟨.handoff t, .stored (s.tls t).previousFiberStored, rfl,
      by simp [hhand', Stage.pending], fun g hg => ?_, fun l g hly hg => ?_⟩)
    · have hg' : s.flagFiber (s.tls t).previousFiberStored = g := by
        simp only [ManagerState.holds, Option.ite_none_right_eq_some, Option.some.injEq] at hg
        exact hg.2
      simp [hhand, Stage.pending, TLS.previous, hat.2, ← hg', hstored rfl]
    · by_cases hf : l = .fiber f
      · subst hf
        rwa [hfib, ← hfib₀] at hg
      · by_cases hh : l = .handoff t
        · subst hh
          simp [hhand', Stage.pending] at hg
        · rwa [hl.holds_other hne hf hh (fun _ _ => rfl) fun p hp => ?_] at hg
          have hne' : p ≠ (s.tls t).previousFiberStored := by
            rintro rfl
            exact hly hp
          simp [ManagerState.apply, hne']
  -- the ready fiber goes from its stored flag to the fiber that takes it
  | @erase k g =>
    obtain ⟨g', p, hk, hg', hp, hpg⟩ := herase k rfl
    obtain rfl : g = g' := Option.some.inj hg'
    refine hlocal' ?_ (.inr ⟨.stored p, .fiber f, rfl, ?_, fun g' hg' => ?_,
      fun l g' hly hg' => ?_⟩)
    · simpa [ManagerState.apply, ← TLS.atStage_core, TLS.core] using hat
    · simp [ManagerState.holds, ManagerState.apply, ManagerState.flagsAfterErase, hk]
    · rw [hfib] at hg'
      simp [ManagerState.holds, hp, hpg, ← Option.some.inj hg']
    · by_cases hh : l = .handoff t
      · subst hh
        simp [hhand', Stage.pending] at hg'
      · by_cases hlp : l = .stored p
        · subst hlp
          simp [ManagerState.holds, ManagerState.apply, ManagerState.flagsAfterErase, hk] at hg'
        · rwa [hl.holds_other hne hly hh (fun _ _ => rfl) fun q hq => ?_] at hg'
          have hqp : q ≠ p := by
            rintro rfl
            exact hlp hq
          simp [ManagerState.apply, ManagerState.flagsAfterErase, hk, hqp]
  -- an idle fiber goes from the pool to the fiber that takes it
  | @take st g hg hst =>
    refine hlocal' hat (.inr ⟨.idle g, .fiber f, rfl, ?_, fun g' hg' => ?_, fun l g' hly hg' => ?_⟩)
    · simp [ManagerState.holds, ManagerState.apply]
    · rw [hfib] at hg'
      simp [ManagerState.holds, hg, ← Option.some.inj hg']
    · by_cases hh : l = .handoff t
      · subst hh
        simp [hhand', hst] at hg'
      · by_cases hlg : l = .idle g
        · subst hlg
          simp [ManagerState.holds, ManagerState.apply] at hg'
        · rwa [hl.holds_other hne hly hh (fun h hh => ?_) fun _ _ => ⟨rfl, rfl⟩] at hg'
          have hhg : h ≠ g := by
            rintro rfl
            exact hlg hh
          simp [ManagerState.apply, hhg]
  | cleanup | setPrevious | setPool | setWaiting | setStored | setCurrent | mainSetCurrent =>
    refine hlocal' ?_ (.inl (hsub rfl (fun g hg => by simp [hhand', Stage.pending] at hg) rfl
      fun p hp => ⟨hp, rfl⟩))
    rw [ManagerState.setFiber_tls]
    exact (congrArg (fun tls => TLS.AtStage tls f _) (Function.update_self ..)).mpr
      (hstep.atStage_write hat)
  | switchTo | mainSwitchTo | switchBack => cases hlocal

/-- A fiber that is neither executed nor taken by a thread does not start in the main callback: it
is switched to at the stage `received`. -/
theorem received_of_holds (hi : OwnInv s) {l : Place} {g : ℕ} (hoff : l.off = true)
    (hthread : ∀ t, l ≠ .thread t) (hl : s.holds l = some g) : s.stage g = .received := by
  have hres := hi.resumable l g hoff hl
  rw [ManagerState.stage]
  cases hpc : (s.fibers g).pc with
  | start =>
    cases hmain : s.mainCallback g with
    | false => rfl
    | true =>
      obtain ⟨t, hthr | hrun⟩ := hi.mainStart g hmain hpc
      · have hplace : s.holds (.thread t) = some g := by simp [ManagerState.holds, hthr,
          ThreadPc.reserved]
        exact absurd (hi.exclusive l (.thread t) g hl hplace) (hthread t)
      · exact absurd hrun (hi.not_running hoff hl)
  | getNextJob pc => cases pc <;> first | rfl | (rw [hpc] at hres; cases hres)
  | waitForCounter ctx caller c v pc => cases pc <;> first | rfl | (rw [hpc] at hres; cases hres)
  | _ => rw [hpc] at hres; cases hres

/-- Thread `t` switches to fiber `g`, from its own code or from the fiber that it has executed. That
fiber is handed off, if there is a hand-off in the `TLS`; nothing else moves. -/
structure SwitchStep (s : ManagerState) (t g : ℕ) (s' : ManagerState) : Prop where
  running : s'.running = Function.update s.running t (some g)
  returnFiber : s'.returnFiber = Function.update s.returnFiber g t
  mainCallback : s'.mainCallback = s.mainCallback
  tls : s'.tls = s.tls
  idleFibers : s'.idleFibers = s.idleFibers
  flags : s'.flags = s.flags
  flagFiber : s'.flagFiber = s.flagFiber
  fibers : ∀ k, s.running t ≠ some k → s'.fibers k = s.fibers k
  threads : ∀ u, u ≠ t → s'.threads u = s.threads u
  inFiber : s'.threads t = .inFiber
  previous : ∀ k, (s.tls t).previous = some k →
    s.running t = some k ∧ (s'.fibers k).pc.resumable = true
  leaves : ∀ k, s.running t = some k → (s'.fibers k).pc ≠ .start ∧ (s'.fibers k).pc.reserved = none

/-- The fiber that is left is in no other place, so that its stage is that of no other thread. -/
theorem SwitchStep.stage_other {s' : ManagerState} {g k : ℕ} (hs : SwitchStep s t g s')
    (hk : s.running t ≠ some k) : s'.stage k = s.stage k := by
  rw [ManagerState.stage, hs.fibers k hk, hs.mainCallback]
  rfl

/-- What is handed off on the thread that has switched. -/
theorem SwitchStep.previous_of_handoff {s' : ManagerState} {g k : ℕ} (hs : SwitchStep s t g s')
    (hk : s'.holds (.handoff t) = some k) : (s.tls t).previous = some k := by
  simp only [ManagerState.holds, ManagerState.handedOff, hs.running, Function.update_self,
    hs.tls, Option.ite_none_right_eq_some] at hk
  exact hk.2

/-- The other places hold what they have held. -/
theorem SwitchStep.holds_other (hi : OwnInv s) {s' : ManagerState} {g k : ℕ} {l : Place}
    (hs : SwitchStep s t g s') (hrun : l ≠ .run t) (hhandoff : l ≠ .handoff t)
    (hk : s'.holds l = some k) : s.holds l = some k := by
  cases l with
  | run u =>
    have hut : u ≠ t := fun h => hrun (h ▸ rfl)
    rwa [ManagerState.holds, hs.running, Function.update_of_ne hut] at hk
  | idle f => rwa [ManagerState.holds, hs.idleFibers] at hk
  | thread u =>
    have hut : u ≠ t := by
      rintro rfl
      simp [ManagerState.holds, hs.inFiber, ThreadPc.reserved] at hk
    rwa [ManagerState.holds, hs.threads u hut] at hk
  | fiber f =>
    have hft : s.running t ≠ some f := fun h => by
      simp [ManagerState.holds, (hs.leaves f h).2] at hk
    rwa [ManagerState.holds, hs.fibers f hft] at hk
  | handoff u =>
    have hut : u ≠ t := fun h => hhandoff (h ▸ rfl)
    simp only [ManagerState.holds, ManagerState.handedOff, hs.running, hs.tls,
      Function.update_of_ne hut] at hk ⊢
    cases hu : s.running u with
    | none => simp [hu] at hk
    | some f =>
      rw [hu] at hk
      have hft : s.running t ≠ some f := fun ht => hut (hi.run_unique hu ht)
      simpa only [hs.stage_other hft] using hk
  | stored p => rwa [ManagerState.holds, hs.flags, hs.flagFiber] at hk

/-- Such a switch keeps the invariant. -/
private theorem of_switch (hi : OwnInv s) {s' : ManagerState} {g : ℕ} {x : Place}
    (hs : SwitchStep s t g s') (hx : x = .thread t ∨ ∃ f, s.running t = some f ∧ x = .fiber f)
    (hxg : s.holds x = some g) (hown : ∀ k, s.threads t = .switchTo k → k = g)
    (hhere : (s.fibers g).currentTLS t = t) (hat : (s.tls t).AtStage g (s.stage g)) :
    OwnInv s' := by
  have hoff : x.off = true := by
    rcases hx with rfl | ⟨f, -, rfl⟩ <;> rfl
  -- the fiber that is resumed is off the threads, and comes from `x`
  have hgne : ∀ u, s.running u ≠ some g := fun u => hi.not_running hoff hxg
  have hold : ∀ u k, u ≠ t → s.running u = some k → s.running t ≠ some k :=
    fun u k hu hk ht => hu (hi.run_unique hk ht)
  -- the target moves from `x` to the thread, and what the thread leaves to its hand-off
  have hexcl : Exclusive s'.holds := by
    refine hi.exclusive.shift (x := x) (y := .run t) (z := .handoff t) ?_ (by simp) ?_ ?_ ?_ ?_
      fun l k hl hl' => hs.holds_other hi hl hl'
    · rcases hx with rfl | ⟨f, -, rfl⟩ <;> simp
    · rcases hx with rfl | ⟨f, -, rfl⟩ <;> simp
    · rcases hx with rfl | ⟨f, hf, rfl⟩
      · simp [ManagerState.holds, hs.inFiber, ThreadPc.reserved]
      · simp [ManagerState.holds, (hs.leaves f hf).2]
    · intro k hk
      obtain rfl : g = k := by simpa [ManagerState.holds, hs.running] using hk
      exact hxg
    · exact fun k hk => (hs.previous k (hs.previous_of_handoff hk)).1
  refine ⟨hexcl, fun l k hoff hl => ?_, fun u k hu => ?_, fun u k hu => ?_, fun u k hu => ?_,
    fun u k hu => ?_, fun u hu => ?_, fun k hk hpc => ?_⟩
  · by_cases hh : l = .handoff t
    · subst hh
      exact (hs.previous k (hs.previous_of_handoff hl)).2
    · have hk := hs.holds_other hi (by rintro rfl; cases hoff) hh hl
      rw [hs.fibers k (hi.not_running hoff hk)]
      exact hi.resumable l k hoff hk
  · by_cases hut : u = t
    · subst hut
      obtain rfl : g = k := by simpa [hs.running] using hu
      rwa [hs.fibers g (hgne u)]
    · rw [hs.running, Function.update_of_ne hut] at hu
      rw [hs.fibers k (hold u k hut hu)]
      exact hi.onThread u k hu
  · rw [hs.tls]
    by_cases hut : u = t
    · subst hut
      obtain rfl : g = k := by simpa [hs.running] using hu
      rwa [hs.stage_other (hgne u)]
    · rw [hs.running, Function.update_of_ne hut] at hu
      rw [hs.stage_other (hold u k hut hu)]
      exact hi.atStage u k hu
  · by_cases hut : u = t
    · exact hut ▸ hs.inFiber
    · rw [hs.running, Function.update_of_ne hut] at hu
      rw [hs.threads u hut]
      exact hi.inFiber u k hu
  · by_cases hut : u = t
    · subst hut
      obtain rfl : g = k := by simpa [hs.running] using hu
      simp [hs.returnFiber]
    · rw [hs.running, Function.update_of_ne hut] at hu
      have hkg : k ≠ g := by
        rintro rfl
        exact hgne u hu
      rw [hs.returnFiber, Function.update_of_ne hkg]
      exact hi.returns u k hu
  · have hut : u ≠ t := by
      rintro rfl
      simp [hs.running] at hu
    rw [hs.running, Function.update_of_ne hut] at hu
    rw [hs.threads u hut, hs.tls]
    exact hi.ownCode u hu
  · have hkt : s.running t ≠ some k := fun h => (hs.leaves k h).1 hpc
    rw [hs.fibers k hkt] at hpc
    obtain ⟨u, hu | hu⟩ := hi.mainStart k (hs.mainCallback ▸ hk) hpc
    · by_cases hut : u = t
      · subst hut
        exact ⟨u, .inr (by rw [hs.running, Function.update_self, hown k hu])⟩
      · exact ⟨u, .inl ((hs.threads u hut).trans hu)⟩
    · have hut : u ≠ t := by
        rintro rfl
        exact hkt hu
      exact ⟨u, .inr (by rwa [hs.running, Function.update_of_ne hut])⟩

/-- A fiber `f` that switches on thread `t` has taken the fiber `g` that it resumes, and makes such
a step. -/
theorem switchStep_of_fiber (hi : OwnInv s) (hrun : s.running t = some f) {g : ℕ} {pc' : FiberPc}
    (h : StageStep s t (s.tls t) (s.stage f) (s.fibers f).pc.reserved (.switchTo t g)
      (pc'.stage (s.mainCallback f)) pc'.reserved)
    (hstart : pc' ≠ .start)
    (hparked : pc'.stage (s.mainCallback f) = .received → pc'.resumable = true) :
    SwitchStep s t g ((s.apply t f (.switchTo t g)).setFiber f ⟨t, pc'⟩) ∧
      s.holds (.fiber f) = some g ∧ (s.tls t).currentFiberIndex = g := by
  obtain ⟨hres, hres', hcur, hprev⟩ : (s.fibers f).pc.reserved = some g ∧ pc'.reserved = none ∧
      (s.tls t).currentFiberIndex = g ∧ ∀ k, (s.tls t).previous = some k →
        k = f ∧ pc'.stage (s.mainCallback f) = .received := by
    have hat := hi.atStage t f hrun
    generalize s.stage f = st at h hat
    generalize (s.fibers f).pc.reserved = r at h
    generalize pc'.stage (s.mainCallback f) = st' at h
    generalize pc'.reserved = r' at h
    cases h with
    | quiet hact => cases hact
    | @switchTo p =>
      refine ⟨rfl, rfl, by cases p <;> exact hat.1, fun k hk => ⟨?_, rfl⟩⟩
      cases p <;> obtain ⟨-, hat⟩ := hat <;> cases hd : (s.tls t).previousFiberDestination <;>
        simp_all [TLS.previous, TLS.handoff]
    | mainSwitchTo => exact ⟨rfl, rfl, hat.1, fun k hk => by simp [TLS.previous, hat.2] at hk⟩
  -- the target is reserved, and `previous` is the fiber that leaves
  have hleaves : ∀ k, s.running t = some k →
      ((s.apply t f (.switchTo t g)).setFiber f ⟨t, pc'⟩).fibers k = ⟨t, pc'⟩ := by
    intro k hk
    obtain rfl : f = k := Option.some.inj (hrun.symm.trans hk)
    simp
  refine ⟨⟨rfl, rfl, rfl, rfl, rfl, rfl, rfl, fun k hk => ?_, fun _ _ => rfl,
    hi.inFiber t f hrun, fun k hk => ?_, fun k hk => ?_⟩, hres, hcur⟩
  · have hkf : k ≠ f := by
      rintro rfl
      exact hk hrun
    simp [hkf]
  · obtain ⟨rfl, hrec⟩ := hprev k hk
    exact ⟨hrun, by rw [hleaves k hrun]; exact hparked hrec⟩
  · rw [hleaves k hk]
    exact ⟨hstart, hres'⟩

/-- A switch of fiber `f` on thread `t` keeps the invariant, if the fiber `g` that it resumes uses
the `TLS` of this thread. -/
theorem switch_step (hi : OwnInv s) (hrun : s.running t = some f) {g : ℕ} {pc' : FiberPc}
    (h : StageStep s t (s.tls t) (s.stage f) (s.fibers f).pc.reserved (.switchTo t g)
      (pc'.stage (s.mainCallback f)) pc'.reserved)
    (hstart : pc' ≠ .start)
    (hparked : pc'.stage (s.mainCallback f) = .received → pc'.resumable = true)
    (hhere : (s.fibers g).currentTLS t = t) :
    OwnInv ((s.apply t f (.switchTo t g)).setFiber f ⟨t, pc'⟩) := by
  obtain ⟨hstep, hplace, hcur⟩ := hi.switchStep_of_fiber hrun h hstart hparked
  refine hi.of_switch hstep (.inr ⟨f, hrun, rfl⟩) hplace (fun k hk => ?_) hhere ?_
  · rw [hi.inFiber t f hrun] at hk
    cases hk
  · rw [hi.received_of_holds (l := .fiber f) rfl (by simp) hplace]
    exact hcur

/-- No place gains a fiber when one switches back to its thread: it ends there. -/
theorem holds_of_switchBack (hi : OwnInv s) (hrun : s.running t = some f) {l : Place} {k : ℕ}
    (hk : ((s.apply t f .switchBack).setFiber f ⟨t, .ended⟩).holds l = some k) :
    s.holds l = some k := by
  set s' := (s.apply t f .switchBack).setFiber f ⟨t, .ended⟩ with hs'
  have hrunning : s'.running = Function.update s.running t none := rfl
  have hthreads : s'.threads = Function.update s.threads t .returned := by
    rw [← hi.returns t f hrun]
    rfl
  have hfibers : ∀ g, g ≠ f → s'.fibers g = s.fibers g := fun g hg => by simp [hs', hg]
  cases l with
  | run u =>
    have hut : u ≠ t := by
      rintro rfl
      simp [ManagerState.holds, hrunning] at hk
    rwa [ManagerState.holds, hrunning, Function.update_of_ne hut] at hk
  | idle g => exact hk
  | thread u =>
    have hut : u ≠ t := by
      rintro rfl
      simp [ManagerState.holds, hthreads, ThreadPc.reserved] at hk
    rwa [ManagerState.holds, hthreads, Function.update_of_ne hut] at hk
  | fiber g =>
    have hgf : g ≠ f := by
      rintro rfl
      simp [ManagerState.holds, hs', FiberPc.reserved] at hk
    rwa [ManagerState.holds, hfibers g hgf] at hk
  | handoff u =>
    have hut : u ≠ t := by
      rintro rfl
      simp [ManagerState.holds, ManagerState.handedOff, hrunning] at hk
    simp only [ManagerState.holds, ManagerState.handedOff, hrunning,
      Function.update_of_ne hut] at hk ⊢
    cases hu : s.running u with
    | none => simp [hu] at hk
    | some g =>
      have hgf : g ≠ f := fun hgf => hut (hi.run_unique (hgf ▸ hu) hrun)
      rw [hu] at hk
      simp only [ManagerState.stage, hfibers g hgf] at hk
      exact hk
  | stored p => exact hk

/-- A fiber that switches back to its thread keeps the invariant. -/
theorem switchBack_step (hi : OwnInv s) (hrun : s.running t = some f) :
    OwnInv ((s.apply t f .switchBack).setFiber f ⟨t, .ended⟩) := by
  have hsub : ∀ l k, ((s.apply t f .switchBack).setFiber f ⟨t, .ended⟩).holds l = some k →
      s.holds l = some k := fun _ _ hk => hi.holds_of_switchBack hrun hk
  set s' := (s.apply t f .switchBack).setFiber f ⟨t, .ended⟩ with hs'
  have hrunning : s'.running = Function.update s.running t none := rfl
  have hthreads : s'.threads = Function.update s.threads t .returned := by
    rw [← hi.returns t f hrun]
    rfl
  have hfibers : ∀ k, k ≠ f → s'.fibers k = s.fibers k := fun k hk => by simp [hs', hk]
  have hold : ∀ u k, u ≠ t → s.running u = some k → k ≠ f :=
    fun u k hu hk hkf => hu (hi.run_unique (hkf ▸ hk) hrun)
  have hstage' : ∀ k, k ≠ f → s'.stage k = s.stage k := fun k hk => by
    rw [ManagerState.stage, hfibers k hk]
    rfl
  -- every thread but `t` goes on with what it has
  have hrun' : ∀ u k, s'.running u = some k → u ≠ t ∧ s.running u = some k ∧ k ≠ f := by
    intro u k hu
    have hut : u ≠ t := by
      rintro rfl
      simp [hrunning] at hu
    rw [hrunning, Function.update_of_ne hut] at hu
    exact ⟨hut, hu, hold u k hut hu⟩
  refine ⟨hi.exclusive.sub hsub, fun l k hoff hl => ?_, fun u k hu => ?_, fun u k hu => ?_,
    fun u k hu => ?_, fun u k hu => ?_, fun u hu => ?_, fun k hk hpc => ?_⟩
  · have hk := hsub l k hl
    have hkf : k ≠ f := by
      rintro rfl
      exact hi.not_running hoff hk hrun
    rw [hfibers k hkf]
    exact hi.resumable l k hoff hk
  · obtain ⟨-, hk, hkf⟩ := hrun' u k hu
    rw [hfibers k hkf]
    exact hi.onThread u k hk
  · obtain ⟨-, hk, hkf⟩ := hrun' u k hu
    rw [hstage' k hkf]
    exact hi.atStage u k hk
  · obtain ⟨hut, hk, -⟩ := hrun' u k hu
    rw [hthreads, Function.update_of_ne hut]
    exact hi.inFiber u k hk
  · exact hi.returns u k (hrun' u k hu).2.1
  · by_cases hut : u = t
    · subst hut
      rw [hthreads, Function.update_self]
      trivial
    · rw [hrunning, Function.update_of_ne hut] at hu
      rw [hthreads, Function.update_of_ne hut]
      exact hi.ownCode u hu
  · have hkf : k ≠ f := by
      rintro rfl
      simp [hs'] at hpc
    rw [hfibers k hkf] at hpc
    obtain ⟨u, hu | hu⟩ := hi.mainStart k hk hpc
    · have hut : u ≠ t := by
        rintro rfl
        rw [hi.inFiber u f hrun] at hu
        cases hu
      exact ⟨u, .inl (by rwa [hthreads, Function.update_of_ne hut])⟩
    · have hut : u ≠ t := by
        rintro rfl
        exact hkf (Option.some.inj (hu.symm.trans hrun))
      exact ⟨u, .inr (by rwa [hrunning, Function.update_of_ne hut])⟩

/-- The own code of thread `t` takes a step to `pc'` that does not switch, and takes at most one
idle fiber. -/
structure OwnStep (s : ManagerState) (t : ℕ) (pc' : ThreadPc) (s' : ManagerState) : Prop where
  running : s'.running = s.running
  returnFiber : s'.returnFiber = s.returnFiber
  fibers : s'.fibers = s.fibers
  threads : s'.threads = Function.update s.threads t pc'
  flags : s'.flags = s.flags
  flagFiber : s'.flagFiber = s.flagFiber
  tls : ∀ u, u ≠ t → s'.tls u = s.tls u
  stage : ∀ u k, s.running u = some k → s'.stage k = s.stage k
  idle : s'.idleFibers = s.idleFibers ∧ pc'.reserved = (s.threads t).reserved ∨
    ∃ g, s.idleFibers g = true ∧ s'.idleFibers = Function.update s.idleFibers g false ∧
      pc'.reserved = some g

/-- The places other than the thread hold what they have held. -/
theorem OwnStep.holds_other {s' : ManagerState} {pc' : ThreadPc} {l : Place} {k : ℕ}
    (hs : OwnStep s t pc' s') (hrun : s.running t = none) (hlt : l ≠ .thread t)
    (hk : s'.holds l = some k) : s.holds l = some k := by
  cases l with
  | run u => rwa [ManagerState.holds, hs.running] at hk
  | idle g =>
    rcases hs.idle with ⟨hidle, -⟩ | ⟨g', -, hidle, -⟩
    · rwa [ManagerState.holds, hidle] at hk
    · have hgg : g ≠ g' := by
        rintro rfl
        simp [ManagerState.holds, hidle] at hk
      rwa [ManagerState.holds, hidle, Function.update_of_ne hgg] at hk
  | thread u =>
    have hut : u ≠ t := fun h => hlt (h ▸ rfl)
    rwa [ManagerState.holds, hs.threads, Function.update_of_ne hut] at hk
  | fiber g => rwa [ManagerState.holds, hs.fibers] at hk
  | handoff u =>
    simp only [ManagerState.holds, ManagerState.handedOff, hs.running] at hk ⊢
    cases hu : s.running u with
    | none => simp [hu] at hk
    | some g =>
      have hut : u ≠ t := by
        rintro rfl
        rw [hrun] at hu
        cases hu
      rw [hu] at hk
      simpa only [hs.stage u g hu, hs.tls u hut] using hk
  | stored p => rwa [ManagerState.holds, hs.flags, hs.flagFiber] at hk

/-- The fiber that the thread has taken, it has had before, or it comes from the pool. -/
theorem OwnStep.holds_thread {s' : ManagerState} {pc' : ThreadPc} {k : ℕ}
    (hs : OwnStep s t pc' s') (hk : s'.holds (.thread t) = some k) :
    s.holds (.thread t) = some k ∨ s.holds (.idle k) = some k := by
  have hplace : s'.holds (.thread t) = pc'.reserved := by simp [ManagerState.holds, hs.threads]
  rw [hplace] at hk
  rcases hs.idle with ⟨-, hres⟩ | ⟨g, hg, -, hres⟩
  · rw [hres] at hk
    exact .inl hk
  · obtain rfl : g = k := Option.some.inj (hres.symm.trans hk)
    exact .inr (by simp [ManagerState.holds, hg])

/-- Such a step keeps the invariant. -/
private theorem of_own (hi : OwnInv s) (hrun : s.running t = none) {s' : ManagerState}
    {pc' : ThreadPc} (hs : OwnStep s t pc' s') (hok : pc'.TlsOk (s'.tls t))
    (hnot : ∀ k, s.threads t ≠ .switchTo k)
    (hmain : ∀ k, s'.mainCallback k = true → s.mainCallback k = true ∨ pc' = .switchTo k) :
    OwnInv s' := by
  have hexcl : Exclusive s'.holds := by
    -- either no place gains a fiber, or the thread takes an idle one
    rcases hs.idle with ⟨-, hres⟩ | ⟨g, hg, hidle, hres⟩
    · refine hi.exclusive.sub fun l k hk => ?_
      by_cases hlt : l = .thread t
      · subst hlt
        rwa [ManagerState.holds, hs.threads, Function.update_self, hres] at hk
      · exact hs.holds_other hrun hlt hk
    · refine hi.exclusive.move (x := .idle g) (y := .thread t) ?_ (fun k hk => ?_)
        fun l k hlt hk => hs.holds_other hrun hlt hk
      · simp [ManagerState.holds, hidle]
      · rw [ManagerState.holds, hs.threads, Function.update_self, hres] at hk
        simp [ManagerState.holds, hg, ← Option.some.inj hk]
  have hfrom : ∀ l k, l.off = true → s'.holds l = some k →
      ∃ l', l'.off = true ∧ s.holds l' = some k := by
    intro l k hoff hk
    by_cases hlt : l = .thread t
    · subst hlt
      rcases hs.holds_thread hk with hold | hold
      · exact ⟨_, rfl, hold⟩
      · exact ⟨_, rfl, hold⟩
    · exact ⟨l, hoff, hs.holds_other hrun hlt hk⟩
  obtain ⟨hrunning, hreturn, hfibers, hthreads, hflags, hff, htls, hstage, -⟩ := hs
  have hut : ∀ u k, s.running u = some k → u ≠ t := by
    rintro u k hu rfl
    rw [hrun] at hu
    cases hu
  refine ⟨hexcl, fun l k hoff hl => ?_, fun u k hu => ?_, fun u k hu => ?_, fun u k hu => ?_,
    fun u k hu => ?_, fun u hu => ?_, fun k hk hpc => ?_⟩
  · obtain ⟨l', hoff', hl'⟩ := hfrom l k hoff hl
    rw [hfibers]
    exact hi.resumable l' k hoff' hl'
  · rw [hfibers]
    exact hi.onThread u k (hrunning ▸ hu)
  · rw [hrunning] at hu
    rw [hstage u k hu, htls u (hut u k hu)]
    exact hi.atStage u k hu
  · rw [hrunning] at hu
    rw [hthreads, Function.update_of_ne (hut u k hu)]
    exact hi.inFiber u k hu
  · rw [hreturn]
    exact hi.returns u k (hrunning ▸ hu)
  · rw [hrunning] at hu
    by_cases h : u = t
    · subst h
      rwa [hthreads, Function.update_self]
    · rw [hthreads, Function.update_of_ne h, htls u h]
      exact hi.ownCode u hu
  · rw [hthreads, hrunning]
    rcases hmain k hk with hk | rfl
    · obtain ⟨u, hu | hu⟩ := hi.mainStart k hk (hfibers ▸ hpc)
      · have h : u ≠ t := by
          rintro rfl
          exact hnot k hu
        exact ⟨u, .inl (by rwa [Function.update_of_ne h])⟩
      · exact ⟨u, .inr hu⟩
    · exact ⟨t, .inl (Function.update_self ..)⟩

/-- A step of the own code of a thread is such a step, or switches to the fiber that the thread has
taken. -/
theorem ownStep_of_thread (hi : OwnInv s) (hrun : s.running t = none) {act : Act} {pc' : ThreadPc}
    (h : ThreadStep s t (s.threads t) act pc') :
    OwnStep s t pc' ((s.apply t noFiber act).setThread t pc') ∨
      ∃ g, act = .switchTo t g ∧ s.threads t = .switchTo g ∧
        SwitchStep s t g ((s.apply t noFiber act).setThread t pc') := by
  generalize hpc : s.threads t = pc at h
  have hown := hi.ownCode t hrun
  rw [hpc] at hown
  cases h with
  | search =>
    exact .inl ⟨rfl, rfl, rfl, rfl, rfl, rfl, fun _ _ => rfl, fun _ _ _ => rfl,
      .inl ⟨rfl, by rw [hpc]; rfl⟩⟩
  | @found _ g hg =>
    exact .inl ⟨rfl, rfl, rfl, rfl, rfl, rfl, fun _ _ => rfl, fun _ _ _ => rfl,
      .inr ⟨g, hg, rfl, rfl⟩⟩
  | setCurrentMain ht | setCurrentWorker ht =>
    exact .inl ⟨rfl, rfl, rfl, rfl, rfl, rfl, fun u hu => by simp [ManagerState.apply, hu],
      fun _ _ _ => rfl, .inl ⟨rfl, by rw [hpc]; rfl⟩⟩
  | @setCallback g =>
    have hplace : s.holds (.thread t) = some g := by simp [ManagerState.holds, hpc,
      ThreadPc.reserved]
    refine .inl ⟨rfl, rfl, rfl, rfl, rfl, rfl, fun _ _ => rfl, fun u k hu => ?_,
      .inl ⟨rfl, by rw [hpc]; rfl⟩⟩
    -- the fiber that gets the callback is not executed
    have hkg : k ≠ g := by
      rintro rfl
      exact hi.not_running (l := .thread t) rfl hplace hu
    simp [ManagerState.stage, ManagerState.apply, hkg]
  | @switchTo g =>
    refine .inr ⟨g, rfl, rfl, rfl, rfl, rfl, rfl, rfl, rfl, rfl, fun _ _ => rfl, fun u hu => ?_,
      by simp, fun k hk => ?_, fun k hk => ?_⟩
    · simp [ManagerState.apply, hu]
    · simp [TLS.previous, hown.2] at hk
    · rw [hrun] at hk
      cases hk

/-- A step of the own code of a thread keeps the invariant, if the fiber that it switches to uses
the `TLS` of this thread. -/
theorem thread_step (hi : OwnInv s) (hrun : s.running t = none) {act : Act} {pc' : ThreadPc}
    (h : ThreadStep s t (s.threads t) act pc')
    (hhere : ∀ g, act = .switchTo t g → (s.fibers g).currentTLS t = t) :
    OwnInv ((s.apply t noFiber act).setThread t pc') := by
  have hown := hi.ownCode t hrun
  rcases hi.ownStep_of_thread hrun h with hstep | ⟨g, rfl, hpc, hstep⟩
  · generalize hpc : s.threads t = pc at h
    rw [hpc] at hown
    cases h with
    | search | found =>
      exact hi.of_own hrun hstep hown (by simp [hpc]) fun _ hk => .inl hk
    | setCurrentMain ht | setCurrentWorker ht =>
      refine hi.of_own hrun hstep ?_ (by simp [hpc]) fun _ hk => .inl hk
      simpa [ManagerState.apply, TLS.write, ThreadPc.TlsOk] using hown
    | @setCallback g =>
      refine hi.of_own hrun hstep hown (by simp [hpc]) fun k hk => ?_
      by_cases hkg : k = g
      · exact .inr (by rw [hkg])
      · exact .inl (by simpa [ManagerState.apply, hkg] using hk)
    | @switchTo g =>
      have hrunning := congrFun hstep.running t
      simp [ManagerState.apply, hrun] at hrunning
  · have hplace : s.holds (.thread t) = some g := by simp [ManagerState.holds, hpc,
      ThreadPc.reserved]
    rw [hpc] at hown
    refine hi.of_switch hstep (.inl rfl) hplace (fun k hk => ?_) (hhere g rfl) ?_
    · rw [hpc] at hk
      cases hk
      rfl
    · -- a fiber that starts in the main callback expects no hand-off
      have hres := hi.resumable (.thread t) g rfl hplace
      rw [ManagerState.stage]
      generalize (s.fibers g).pc = pc at hres
      cases pc with
      | start =>
        cases s.mainCallback g with
        | false => exact hown.1
        | true => exact hown
      | getNextJob pc => cases pc <;> first | exact hown.1 | cases hres
      | waitForCounter _ _ _ _ pc => cases pc <;> first | exact hown.1 | cases hres
      | _ => cases hres

end OwnInv

end NomadTasks
