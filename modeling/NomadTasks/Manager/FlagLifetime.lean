import NomadTasks.Manager.Exclusive

/-!
# Every `fiberStored` flag is deleted when its wait is over

`WaitForCounter` allocates a flag for its wait, and the flag is deleted by `WaitForCounter` itself
when the counter has the value already, or by the `GetNextJob` that resumes the fiber. There is a
third way out: when `AddWaitingFiber` throws, the exception leaves `WaitForCounter` before the flag
is deleted.

* `LifetimeInv`: the fiber of a flag that is not deleted is in the wait that has allocated it.
* `flags_freed`: in every orderly run in which no `AddWaitingFiber` throws, each flag is deleted
  once, when its wait is over, and not used afterwards.
* `flag_leaked`: the flag of a wait that is refused is not deleted.
-/

namespace NomadTasks

open Transition Ownership

/-! ## The flag of a wait -/

/-- The flag `fiberStored` of a `WaitForCounter` that has allocated one. -/
def WaitPc.fiberStored : WaitPc → Option FlagPtr
  | .getValue | .newStored => none
  | .deleteStored p | .setPrevious p | .setDestination p | .setStored p | .findFree p _
  | .setCurrent p _ | .switchTo p _ | .parked p => some p

/-- The flag of the wait that a fiber is in. -/
def FiberPc.waitFlag : FiberPc → Option FlagPtr
  | .begin (.waitForCounter _ _ _ p) _ | .call (.waitForCounter _ _ _ p) _ _ => some p
  | .waitForCounter _ _ _ _ pc => pc.fiberStored
  | _ => none

/-- The flag that the next step of a fiber allocates. -/
def FiberPc.flagAllocated (choice : Choice) : FiberPc → Option FlagPtr
  | .waitForCounter _ _ _ _ .newStored =>
      match choice with
      | .address p => some p
      | _ => none
  | _ => none

/-- The flag that the next step of fiber `f` deletes; `tls` is its local variable. -/
def FiberPc.flagDeleted (s : ManagerState) (tls : ℕ) : FiberPc → Option FlagPtr
  | .getNextJob (.erase k _) => ((s.tls tls).readyFibers[k]?).map Prod.snd
  | .waitForCounter _ _ _ _ (.deleteStored p) => some p
  | _ => none

/-- The flag that the next step of fiber `f` reads, writes or deletes, and the fiber whose wait it
should be of. -/
def FiberPc.flagUsed (s : ManagerState) (f tls : ℕ) : FiberPc → Option (ℕ × FlagPtr)
  | .cleanup .storeStored _ =>
      some ((s.tls tls).previousFiberIndex, (s.tls tls).previousFiberStored)
  | .getNextJob (.readyFiber k) | .getNextJob (.erase k _) => (s.tls tls).readyFibers[k]?
  | .waitForCounter _ _ _ _ (.deleteStored p) => some (f, p)
  | _ => none

namespace ManagerState

/-- The flag that a step allocates. -/
def flagAllocated (s : ManagerState) (a : ManagerAction) : Option FlagPtr :=
  match s.running a.thread with
  | some f => (s.fibers f).pc.flagAllocated a.choice
  | none => none

/-- The flag that the next step of thread `t` deletes. -/
def flagDeleted (s : ManagerState) (t : ℕ) : Option FlagPtr :=
  match s.running t with
  | some f => (s.fibers f).pc.flagDeleted s ((s.fibers f).currentTLS t)
  | none => none

/-- The flag that the next step of thread `t` reads, writes or deletes, and the fiber whose wait it
should be of. -/
def flagUsed (s : ManagerState) (t : ℕ) : Option (ℕ × FlagPtr) :=
  match s.running t with
  | some f => (s.fibers f).pc.flagUsed s f ((s.fibers f).currentTLS t)
  | none => none

end ManagerState

/-- Each flag is deleted once, when its wait is over, and not used afterwards: what is read, written
or deleted, and what a ready list or a pending registration refers to, is there; and what is there
is the flag of the wait that its fiber is in. -/
structure FlagsFreed (h : History ManagerState ManagerAction) (s : ManagerState) : Prop where
  used : ∀ e ∈ h, ∀ g p, e.1.flagUsed e.2.thread = some (g, p) →
    e.1.flags p ≠ none ∧ e.1.flagFiber p = g
  ready : ∀ t g p, (g, p) ∈ (s.tls t).readyFibers → s.flags p ≠ none ∧ s.flagFiber p = g
  registered : ∀ c x reg, ((s.counters c).calls x).registration = some reg →
    ((s.counters c).calls x).ownResolved = false → ¬ (s.counters c).Delivered x →
    s.flags reg.fiberStored ≠ none ∧ s.flagFiber reg.fiberStored = reg.fiberIndex
  once : ∀ p, h.countP (fun e => e.1.flagAllocated e.2 = some p) =
    h.countP (fun e => e.1.flagDeleted e.2.thread = some p) + if s.flags p = none then 0 else 1
  during : ∀ p, s.flags p ≠ none → (s.fibers (s.flagFiber p)).pc.waitFlag = some p

/-! ## The condition -/

/-- In its next step thread `t` leaves `WaitForCounter` with the exception of an `AddWaitingFiber`.
-/
def refusesWait (s : ManagerState) (t : ℕ) : Bool :=
  match s.running t with
  | some f =>
      match (s.fibers f).pc with
      | .call (.waitForCounter ..) c x =>
          match (s.counters c).calls x with
          | .addWaiting _ .threw => true
          | _ => false
      | _ => false
  | none => false

/-- The step is orderly, and no `WaitForCounter` is left because the waiting slots are full. -/
def OrderlyUnrefused (h : History ManagerState ManagerAction) (s : ManagerState)
    (a : ManagerAction) : Prop :=
  Orderly h s a ∧ refusesWait s a.thread = false

instance (h : History ManagerState ManagerAction) (s : ManagerState) (a : ManagerAction) :
    Decidable (OrderlyUnrefused h s a) :=
  inferInstanceAs (Decidable (_ ∧ _))

/-! ## What a step does to the flag of a wait -/

section Step

variable {opts : ManagerOptions} {s : ManagerState} {t f tls : ℕ} {act : Act} {pc pc' : FiberPc}

/-- The flag of a wait is allocated at its beginning, and it is deleted, or its fiber is resumed, at
the end. -/
theorem FiberStep.waitFlag_cases (h : FiberStep opts s f tls pc act pc') :
    (pc'.waitFlag = pc.waitFlag ∧ ∀ p, act ≠ .newStored p) ∨
    (∃ p, act = .newStored p ∧ pc.waitFlag = none ∧ pc'.waitFlag = some p) ∨
    (∃ p, act = .deleteStored p ∧ pc.waitFlag = some p) ∨
    (act = .none ∧ pc.resumable = true) ∨
    ∃ ctx caller v p c x, act = .none ∧ pc = .call (.waitForCounter ctx caller v p) c x ∧
      ((s.counters c).calls x).inProgress = false ∧
        ∀ reg r, (s.counters c).calls x ≠ .addWaiting reg (.returned r) := by
  cases h with
  | newStored => exact .inr (.inl ⟨_, rfl, rfl, rfl⟩)
  | deleteStored => exact .inr (.inr (.inl ⟨_, rfl, rfl⟩))
  | waitResumed => exact .inr (.inr (.inr (.inl ⟨rfl, rfl⟩)))
  | addThrew hx hr => exact .inr (.inr (.inr (.inr ⟨_, _, _, _, _, _, rfl, rfl, hx, hr⟩)))
  | @begin use | @call use => cases use <;> exact .inl ⟨rfl, by simp [CounterUse.action]⟩
  | _ => exact .inl ⟨rfl, by simp⟩

/-- A flag that is there after an act was there before, with the same fiber, or the act has
allocated it. -/
theorem ManagerState.flags_of_apply {p : FlagPtr} (hp : (s.apply t f act).flags p ≠ none) :
    (act = .newStored p ∧ (s.apply t f act).flagFiber p = f) ∨
      (s.flags p ≠ none ∧ (s.apply t f act).flagFiber p = s.flagFiber p) := by
  cases act with
  | newStored q =>
    by_cases hpq : p = q
    · subst hpq
      exact .inl ⟨rfl, by simp [ManagerState.apply]⟩
    · exact .inr (by simpa [ManagerState.apply, hpq] using hp)
  | deleteStored q =>
    have hpq : p ≠ q := by
      rintro rfl
      simp [ManagerState.apply] at hp
    exact .inr (by simpa [ManagerState.apply, hpq] using hp)
  | erase τ k =>
    refine .inr ⟨?_, rfl⟩
    intro hnone
    apply hp
    rw [ManagerState.apply, ManagerState.flagsAfterErase]
    split
    · next q _ =>
      by_cases hpq : p = q
      · simp [hpq]
      · simp [hpq, hnone]
    · exact hnone
  | storeStored τ =>
    refine .inr ⟨?_, rfl⟩
    by_cases hpq : p = (s.tls τ).previousFiberStored
    · subst hpq
      simpa [ManagerState.apply] using hp
    · simpa [ManagerState.apply, hpq] using hp
  | endWait caller | throwThrough caller => cases caller <;> exact .inr ⟨hp, rfl⟩
  | _ => exact .inr ⟨hp, rfl⟩

/-- A fiber that stays on its thread cannot be switched to. -/
theorem FiberStep.not_resumable (h : FiberStep opts s f tls pc act pc')
    (hlocal : act.localTo t = true) : pc'.resumable = false := by
  cases h with
  | nextSwitchTo | waitSwitchTo => cases hlocal
  | _ => rfl

/-- The fiber that is taken to be switched to comes from a ready list or from the pool. -/
theorem FiberStep.reserved_cases (h : FiberStep opts s f tls pc act pc') {g : ℕ}
    (hg : pc'.reserved = some g) :
    pc.reserved = some g ∨ (∃ k, act = .erase tls k) ∨
      (act = .takeIdle g ∧ s.idleFibers g = true) := by
  cases h with
  | erase => exact .inr (.inl ⟨_, rfl⟩)
  | waitFound hidle | mainFound hidle =>
    obtain rfl := Option.some.inj hg
    exact .inr (.inr ⟨rfl, hidle⟩)
  | nextSetPrevious | nextSetDestination | nextSetCurrent | waitSetCurrent | mainSetCurrent =>
    exact .inl hg
  | _ => cases hg

/-- `CleanupPreviousFiber` puts a fiber into the pool at the stage for it. -/
theorem FiberStep.stage_of_storeIdle (h : FiberStep opts s f tls pc (.storeIdle t) pc') (b : Bool) :
    t = tls ∧ pc.stage b = .receivedPool := by
  cases h
  exact ⟨rfl, rfl⟩

end Step

/-! ## The invariant -/

/-- A flag of fiber `g` that is not deleted is that of a wait whose fiber has not been put to sleep:
`g` can go on. -/
def ManagerState.Awake (s : ManagerState) (g : ℕ) : Prop :=
  ∀ p, s.flags p ≠ none → s.flagFiber p = g → (s.fibers g).pc.resumable = false

/-- What is known of fiber `g` in each place. -/
def Place.Fits (s : ManagerState) (g : ℕ) : Place → Prop
  | .run _ | .thread _ | .fiber _ => s.Awake g
  | .idle _ => (s.fibers g).pc.waitFlag = none
  | .handoff t =>
      (s.tls t).previousFiberDestination = .pool → (s.fibers g).pc.waitFlag = none
  | .stored _ => True

/-- The fiber of a flag that is not deleted is in the wait that has allocated it. It is in the
hand-off of its thread or stored while it is parked in that wait, and not in the pool. -/
structure LifetimeInv (s : ManagerState) : Prop where
  during : ∀ p, s.flags p ≠ none → (s.fibers (s.flagFiber p)).pc.waitFlag = some p
  fits : ∀ l g, s.holds l = some g → l.Fits s g

section Frame

variable {s : ManagerState} {t f g : ℕ} {act : Act} {fiber : FiberState}

/-- A step of another fiber does not put `g` to sleep. -/
theorem ManagerState.Awake.frame (ha : s.Awake g) (hgf : g ≠ f) :
    ((s.apply t f act).setFiber f fiber).Awake g := by
  intro p hp hpg
  rw [ManagerState.setFiber_fibers, Function.update_of_ne hgf, ManagerState.apply_fibers]
  rcases ManagerState.flags_of_apply hp with ⟨-, hff⟩ | ⟨hold, hff⟩
  · exact absurd (hpg.symm.trans hff) hgf
  · exact ha p hold (hff.symm.trans hpg)

/-- A fiber without a wait has no flag. -/
theorem LifetimeInv.awake (hv : LifetimeInv s) (hg : (s.fibers g).pc.waitFlag = none) :
    s.Awake g := by
  intro p hp hpg
  have hsome := hv.during p hp
  rw [hpg, hg] at hsome
  cases hsome

/-- What is known of a fiber in a place stays, when another fiber takes a step. -/
theorem Place.Fits.frame {l : Place} (hl : l.Fits s g) (hgf : g ≠ f)
    (hdest : ∀ u, l = .handoff u →
      ((s.apply t f act).tls u).previousFiberDestination = (s.tls u).previousFiberDestination) :
    l.Fits ((s.apply t f act).setFiber f fiber) g := by
  have hfib : ((s.apply t f act).setFiber f fiber).fibers g = s.fibers g := by
    rw [ManagerState.setFiber_fibers, Function.update_of_ne hgf, ManagerState.apply_fibers]
  cases l with
  | run | thread | fiber => exact ManagerState.Awake.frame hl hgf
  | idle =>
    rw [Place.Fits, hfib]
    exact hl
  | handoff u =>
    rw [Place.Fits, hfib, ManagerState.setFiber_tls, hdest u rfl]
    exact hl
  | stored => trivial

end Frame

namespace LifetimeInv

variable {opts : ManagerOptions} {s : ManagerState} {t f : ℕ} {act : Act} {pc' : FiberPc}

/-- A step of a fiber ends a wait with its flag deleted only. -/
theorem during_step (hv : LifetimeInv s) (hf : FlagInv s) (hrun : s.running t = some f)
    (h : FiberStep opts s f t (s.fibers f).pc act pc') (hnot : refusesWait s t = false) :
    ∀ p, (s.apply t f act).flags p ≠ none →
      (((s.apply t f act).setFiber f ⟨t, pc'⟩).fibers
        ((s.apply t f act).flagFiber p)).pc.waitFlag = some p := by
  intro p hp
  rcases ManagerState.flags_of_apply hp with ⟨rfl, hff⟩ | ⟨hold, hff⟩
  -- the flag is new
  · rw [hff, ManagerState.setFiber_fibers, Function.update_self]
    rcases h.waitFlag_cases with ⟨-, hne⟩ | ⟨q, hact, -, hq⟩ | ⟨q, hact, -⟩ | ⟨hact, -⟩ |
      ⟨_, _, _, _, _, _, hact, -⟩
    · exact absurd rfl (hne p)
    · cases hact
      exact hq
    · cases hact
    · cases hact
    · cases hact
  · rw [hff]
    have hwait := hv.during p hold
    by_cases hpf : s.flagFiber p = f
    · rw [hpf] at hwait ⊢
      rw [ManagerState.setFiber_fibers, Function.update_self]
      rcases h.waitFlag_cases with ⟨hsame, -⟩ | ⟨q, -, hnone, -⟩ | ⟨q, rfl, hq⟩ | ⟨-, hres⟩ |
        ⟨ctx, caller, v, q, c, x, -, hpc, hdone, hreturned⟩
      · exact hsame.trans hwait
      · rw [hnone] at hwait
        cases hwait
      -- the flag has just been deleted
      · obtain rfl : q = p := Option.some.inj (hq.symm.trans hwait)
        simp [ManagerState.apply] at hp
      -- the fiber is running, so its wait is over
      · have hawake := hv.fits (.run t) f hrun p hold hpf
        rw [hres] at hawake
        cases hawake
      · -- the call ends without a result: it has thrown
        exfalso
        have huse := hf.uses f
        rw [hpc] at huse
        have hreg := huse.2.2.2
        cases hcall : (s.counters c).calls x with
        | addWaiting reg pc =>
          rw [hcall] at hdone hreturned
          cases pc with
          | threw => simp [refusesWait, hrun, hpc, hcall] at hnot
          | returned r => exact hreturned reg r rfl
          | _ => cases hdone
        | _ =>
          rw [hcall] at hreg
          cases hreg
    · rw [ManagerState.setFiber_fibers, Function.update_of_ne hpf, ManagerState.apply_fibers]
      exact hwait

/-- The fiber of an entry that is erased is not asleep any more. -/
theorem awake_of_erase (hv : LifetimeInv s) (hf : FlagInv s) (hrun : s.running t = some f)
    (h : FiberStep opts s f t (s.fibers f).pc act pc') {k g : ℕ} (hact : act = .erase t k)
    (hg : pc'.reserved = some g) :
    ((s.apply t f act).setFiber f ⟨t, pc'⟩).Awake g := by
  obtain ⟨g', p, hk, hg', hp, hpg⟩ := hf.erased hrun h hact
  obtain rfl : g = g' := Option.some.inj (hg.symm.trans hg')
  intro q hq hqg
  have hflags : (s.apply t f act).flags = Function.update s.flags p none := by
    rw [ManagerState.ready] at hk
    simp [hact, ManagerState.apply, ManagerState.flagsAfterErase, hk]
  have hqp : q ≠ p := by
    rintro rfl
    simp [hflags] at hq
  have hff : (s.apply t f act).flagFiber = s.flagFiber := by rw [hact]; rfl
  rw [ManagerState.setFiber_flags, hflags, Function.update_of_ne hqp] at hq
  rw [ManagerState.setFiber_flagFiber, hff] at hqg
  -- the fiber is in one wait only
  have hwait := hv.during q hq
  have hwait' := hv.during p (by simp [hp])
  rw [hqg] at hwait
  rw [hpg, hwait] at hwait'
  exact absurd (Option.some.inj hwait') hqp

/-- The fiber that is put into the pool is in no wait. -/
theorem waitFlag_of_storeIdle (hv : LifetimeInv s) (hi : OwnInv s) (hrun : s.running t = some f)
    {τ : ℕ} (h : FiberStep opts s f t (s.fibers f).pc (.storeIdle τ) pc') :
    s.holds (.handoff t) = some (s.tls τ).previousFiberIndex ∧
      (s.fibers (s.tls τ).previousFiberIndex).pc.waitFlag = none := by
  obtain ⟨rfl, hstage⟩ := h.stage_of_storeIdle (s.mainCallback f)
  have hat := hi.atStage τ f hrun
  have hst : s.stage f = .receivedPool := hstage
  rw [hst] at hat
  have hplace : s.holds (.handoff τ) = some (s.tls τ).previousFiberIndex := by
    simp [ManagerState.holds, ManagerState.handedOff, hrun, hst, Stage.pending, TLS.previous, hat.2]
  exact ⟨hplace, hv.fits _ _ hplace hat.2⟩

/-- Steps of a fiber that does not switch keep the invariant. -/
theorem local_step (hv : LifetimeInv s) (hm : ManagerInv s) (hrun : s.running t = some f)
    (h : FiberStep opts s f t (s.fibers f).pc act pc') (hlocal : act.localTo t = true)
    (hnot : refusesWait s t = false)
    (hi' : OwnInv ((s.apply t f act).setFiber f ⟨t, pc'⟩)) :
    LifetimeInv ((s.apply t f act).setFiber f ⟨t, pc'⟩) := by
  have hl : LocalStep s t f pc' ((s.apply t f act).setFiber f ⟨t, pc'⟩) := .of_apply pc' hlocal
  refine ⟨hv.during_step hm.flag hrun h hnot, fun l g hg => ?_⟩
  have hrun' : ((s.apply t f act).setFiber f ⟨t, pc'⟩).running t = some f := by
    rw [hl.running]
    exact hrun
  by_cases hgf : g = f
  -- the fiber is on its thread, and cannot be switched to
  · subst hgf
    obtain rfl : l = .run t := hi'.exclusive l (.run t) g hg hrun'
    intro p _ _
    rw [hl.fibers, Function.update_self]
    exact h.not_resumable hlocal
  · have hdest : ∀ u, u ≠ t → ((s.apply t f act).tls u).previousFiberDestination =
        (s.tls u).previousFiberDestination := fun u hu => (hl.previous_other hu).2.1
    have hframe : ∀ l' : Place, l' ≠ .handoff t → l'.Fits s g →
        l'.Fits ((s.apply t f act).setFiber f ⟨t, pc'⟩) g := by
      intro l' hne hfits
      refine hfits.frame hgf fun u hu => hdest u ?_
      rintro rfl
      exact hne hu
    have hne : ∀ u k, u ≠ t → s.running u = some k → k ≠ f :=
      fun u k hu hk hkf => hu (hm.own.run_unique (hkf ▸ hk) hrun)
    cases l with
    | run u =>
      rw [ManagerState.holds, hl.running] at hg
      exact hframe _ (by simp) (hv.fits (.run u) g hg)
    | idle k =>
      have hk : ((s.apply t f act).setFiber f ⟨t, pc'⟩).idleFibers k = true ∧ k = g := by
        simpa [ManagerState.holds] using hg
      obtain ⟨hidle, rfl⟩ := hk
      -- in the pool already, or put there by this step
      rcases ManagerState.idle_of_apply hidle with hold | ⟨τ, rfl, rfl⟩
      · exact hframe _ (by simp) (hv.fits (.idle k) k (by simp [ManagerState.holds, hold]))
      · exact hframe _ (by simp) (hv.waitFlag_of_storeIdle hm.own hrun h).2
    | thread u =>
      rw [ManagerState.holds, hl.threads] at hg
      exact hframe _ (by simp) (hv.fits (.thread u) g hg)
    | fiber k =>
      by_cases hkf : k = f
      · subst hkf
        rw [hl.holds_fiber] at hg
        -- the fiber taken is the one before, one of the ready list, or one of the pool
        rcases h.reserved_cases hg with hold | ⟨j, hact⟩ | ⟨rfl, hidle⟩
        · exact hframe _ (by simp) (hv.fits (.fiber k) g hold)
        · exact hv.awake_of_erase hm.flag hrun h hact hg
        · have hfits := hv.fits (.idle g) g (by simp [ManagerState.holds, hidle])
          exact hframe (.fiber k) (by simp) (hv.awake hfits)
      · rw [ManagerState.holds, hl.fibers, Function.update_of_ne hkf] at hg
        exact hframe _ (by simp) (hv.fits (.fiber k) g hg)
    | handoff u =>
      by_cases hut : u = t
      · -- a hand-off that is still to be performed has been looked at only
        subst hut
        rw [hl.holds_handoff hrun] at hg
        simp only [Option.ite_none_right_eq_some] at hg
        have hstep := h.stageStep (hm.own.not_gone hrun)
        obtain ⟨rfl, hpend⟩ := hstep.of_pending hg.1 fun k hk => by rw [hk] at hlocal; cases hlocal
        have hplace : s.holds (.handoff u) = some g := by
          have hpend' : (s.stage f).pending = true := hpend
          simpa [ManagerState.holds, ManagerState.handedOff, ManagerState.apply, hrun, hpend']
            using hg.2
        exact (hv.fits _ g hplace).frame hgf fun _ _ => rfl
      · have hplace : s.holds (.handoff u) = some g := by
          rwa [hl.holds_other hne (by simp) (by simpa using hut) (by simp) (by simp)] at hg
        exact hframe _ (by simpa using hut) (hv.fits _ g hplace)
    | stored => trivial

/-- A switch keeps the invariant, if the fiber that leaves its thread does not leave its wait, and
is in none when it goes into the pool. -/
private theorem of_switch (hv : LifetimeInv s) (hi : OwnInv s) {s' : ManagerState} {g : ℕ}
    {x : Place}
    (hs : OwnInv.SwitchStep s t g s') (hx : x = .thread t ∨ x = .fiber f) (hxg : s.holds x = some g)
    (hleaves : ∀ k, s.running t = some k →
      (s'.fibers k).pc.waitFlag = (s.fibers k).pc.waitFlag ∧
        ((s.tls t).previousFiberDestination = .pool → (s'.fibers k).pc.waitFlag = none)) :
    LifetimeInv s' := by
  have hawake : s.Awake g := by
    rcases hx with rfl | rfl <;> exact hv.fits _ g hxg
  have hgt : s.running t ≠ some g := by
    rcases hx with rfl | rfl <;> exact hi.not_running rfl hxg
  -- a fiber that has not left the thread is as it was
  have hframe : ∀ k, s.running t ≠ some k → s.Awake k → s'.Awake k := by
    intro k hk ha p hp hpk
    rw [hs.fibers k hk]
    exact ha p (hs.flags ▸ hp) (hs.flagFiber ▸ hpk)
  refine ⟨fun p hp => ?_, fun l k hk => ?_⟩
  · rw [hs.flags] at hp
    rw [hs.flagFiber, ← hv.during p hp]
    by_cases hrun : s.running t = some (s.flagFiber p)
    · exact (hleaves _ hrun).1
    · rw [hs.fibers _ hrun]
  · by_cases hrun : l = .run t
    · subst hrun
      obtain rfl : g = k := by simpa [ManagerState.holds, hs.running] using hk
      exact hframe g hgt hawake
    -- the fiber that leaves is in the hand-off of the thread now
    · by_cases hhand : l = .handoff t
      · subst hhand
        intro hpool
        rw [hs.tls] at hpool
        have hprev := hs.previous k (hs.previous_of_handoff hk)
        exact (hleaves k hprev.1).2 hpool
      · have hold := hs.holds_other hi hrun hhand hk
        have hkt : s.running t ≠ some k := fun ht => hrun (hi.exclusive l (.run t) k hold ht)
        have hfits := hv.fits l k hold
        cases l with
        | run | thread | fiber => exact hframe k hkt hfits
        | idle =>
          rw [Place.Fits, hs.fibers k hkt]
          exact hfits
        | handoff u =>
          rw [Place.Fits, hs.fibers k hkt, hs.tls]
          exact hfits
        | stored => trivial

/-- A fiber that switches keeps the invariant. -/
theorem switch_step (hv : LifetimeInv s) (hi : OwnInv s) (hrun : s.running t = some f) {g : ℕ}
    (h : FiberStep opts s f t (s.fibers f).pc (.switchTo t g) pc') (hstart : pc' ≠ .start)
    (hparked : pc'.stage (s.mainCallback f) = .received → pc'.resumable = true) :
    LifetimeInv ((s.apply t f (.switchTo t g)).setFiber f ⟨t, pc'⟩) := by
  obtain ⟨hstep, hplace, -⟩ :=
    hi.switchStep_of_fiber hrun (h.stageStep (hi.not_gone hrun)) hstart hparked
  refine hv.of_switch hi hstep (.inr rfl) hplace fun k hk => ?_
  obtain rfl : f = k := Option.some.inj (hrun.symm.trans hk)
  rw [ManagerState.setFiber_fibers, Function.update_self]
  have hat := hi.atStage t f hrun
  rw [ManagerState.stage] at hat
  generalize (s.fibers f).pc = pc at h hat
  cases h with
  | nextSwitchTo | mainSwitchTo => exact ⟨rfl, fun _ => rfl⟩
  -- the hand-off of a fiber that waits does not put it into the pool
  | waitSwitchTo =>
    refine ⟨rfl, fun hpool => ?_⟩
    have hstored := hat.2
    simp [TLS.handoff, hpool] at hstored

/-- A fiber that switches back to its thread keeps the invariant. -/
theorem switchBack_step (hv : LifetimeInv s) (hi : OwnInv s) (hrun : s.running t = some f)
    (h : FiberStep opts s f t (s.fibers f).pc .switchBack pc') :
    LifetimeInv ((s.apply t f .switchBack).setFiber f ⟨t, .ended⟩) := by
  have hnone : (s.fibers f).pc.waitFlag = none := by
    generalize (s.fibers f).pc = pc at h
    cases h
    rfl
  refine ⟨fun p hp => ?_, fun l k hk => ?_⟩
  · have hwait := hv.during p hp
    have hpf : s.flagFiber p ≠ f := by
      intro hpf
      rw [hpf, hnone] at hwait
      cases hwait
    change (Function.update s.fibers f _ (s.flagFiber p)).pc.waitFlag = some p
    rwa [Function.update_of_ne hpf]
  · have hold := hi.holds_of_switchBack hrun hk
    by_cases hkf : k = f
    · subst hkf
      obtain rfl : l = .run t := hi.exclusive l (.run t) k hold hrun
      simp [ManagerState.holds, ManagerState.apply] at hk
    · exact (hv.fits l k hold).frame hkf fun _ _ => rfl

/-- A step of the own code of a thread keeps the invariant. -/
theorem thread_step (hv : LifetimeInv s) (hi : OwnInv s) (hrun : s.running t = none) {pc : ThreadPc}
    (h : ThreadStep s t (s.threads t) act pc) :
    LifetimeInv ((s.apply t noFiber act).setThread t pc) := by
  rcases hi.ownStep_of_thread hrun h with hs | ⟨g, rfl, hpc, hs⟩
  · have hawake : ∀ k, s.Awake k → ((s.apply t noFiber act).setThread t pc).Awake k := by
      intro k ha p hp hpk
      rw [hs.fibers]
      exact ha p (hs.flags ▸ hp) (hs.flagFiber ▸ hpk)
    refine ⟨fun p hp => ?_, fun l k hk => ?_⟩
    · rw [hs.fibers, hs.flagFiber]
      exact hv.during p (hs.flags ▸ hp)
    · by_cases hlt : l = .thread t
      · subst hlt
        rcases hs.holds_thread hk with hold | hold
        · exact hawake k (hv.fits _ k hold)
        · exact hawake k (hv.awake (hv.fits _ k hold))
      · have hold := hs.holds_other hrun hlt hk
        have hfits := hv.fits l k hold
        cases l with
        | run | thread | fiber => exact hawake k hfits
        | idle =>
          rw [Place.Fits, hs.fibers]
          exact hfits
        | handoff u =>
          -- the thread executes no fiber, so that it has no hand-off
          have hut : u ≠ t := by
            rintro rfl
            simp [ManagerState.holds, ManagerState.handedOff, hrun] at hold
          rw [Place.Fits, hs.fibers, hs.tls u hut]
          exact hfits
        | stored => trivial
  · have hplace : s.holds (.thread t) = some g := by simp [ManagerState.holds, hpc,
      ThreadPc.reserved]
    refine hv.of_switch (f := noFiber) hi hs (.inl rfl) hplace fun k hk => ?_
    rw [hrun] at hk
    cases hk

/-- Every orderly step keeps the invariant, unless a wait is refused. -/
theorem step {s' : ManagerState} {a : ManagerAction} (hv : LifetimeInv s) (hm : ManagerInv s)
    (hm' : ManagerInv s') (hnot : refusesWait s a.thread = false)
    (hs : managerStep opts s a = some s') : LifetimeInv s' := by
  rcases managerStep_inv hs with
    ⟨f, pc, act, pc', hrun, rfl, h, rfl⟩ | ⟨pc, act, pc', hrun, rfl, h, rfl⟩
  · rw [hm.own.onThread a.thread f hrun] at h hm' ⊢
    obtain ⟨hstart, hlocal | ⟨g, rfl, -, hparked⟩ | ⟨rfl, rfl⟩⟩ := h.switch_cases
    · exact hv.local_step hm hrun h hlocal hnot hm'.own
    · exact hv.switch_step hm.own hrun h hstart (hparked _)
    · exact hv.switchBack_step hm.own hrun h
  · exact hv.thread_step hm.own hrun h

/-- There is no flag before the first thread runs. -/
theorem start (opts : ManagerOptions) : LifetimeInv (.start opts) := by
  refine ⟨fun p hp => absurd rfl hp, fun l g hg => ?_⟩
  cases l with
  | run | thread | fiber => exact fun p hp => absurd rfl hp
  | idle => rfl
  | handoff => exact fun _ => rfl
  | stored => trivial

end LifetimeInv

/-! ## Every flag is freed -/

section Counted

variable {opts : ManagerOptions} {s s' : ManagerState} {a : ManagerAction} {t f tls : ℕ}
  {choice : Choice} {act : Act} {pc pc' : FiberPc} {p : FlagPtr}

/-- The flag that a step allocates is that of the act. -/
theorem FiberStep.flagAllocated_iff (h : FiberStep opts s f tls pc act pc')
    (hn : pc.next opts s f tls choice = some (act, pc')) :
    pc.flagAllocated choice = some p ↔ act = .newStored p := by
  cases h with
  | newStored =>
    cases choice with
    | address q =>
      simp only [FiberPc.next, WaitPc.next, Option.ite_none_right_eq_some, Option.some.injEq,
        Prod.mk.injEq, Act.newStored.injEq] at hn
      simp [FiberPc.flagAllocated, hn.2.1]
    | _ => cases hn
  | waitReached | waitNotReached => simp [FiberPc.flagAllocated]
  | _ => simp [FiberPc.flagAllocated]

/-- The flag that a step deletes is that of the act. -/
theorem FiberStep.flagDeleted_iff (h : FiberStep opts s f tls pc act pc') :
    pc.flagDeleted s tls = some p ↔
      act = .deleteStored p ∨ ∃ k g, act = .erase tls k ∧ (s.ready tls)[k]? = some (g, p) := by
  cases h with
  | erase => simp [FiberPc.flagDeleted, ManagerState.ready]
  | _ => simp [FiberPc.flagDeleted]

/-- Other acts leave the flag as it is, or set it. -/
theorem ManagerState.flags_none_iff (hnew : act ≠ .newStored p) (hdelete : act ≠ .deleteStored p)
    (herase : ∀ τ k g, act = .erase τ k → (s.ready τ)[k]? ≠ some (g, p)) :
    (s.apply t f act).flags p = none ↔ s.flags p = none := by
  cases act with
  | newStored q =>
    have hpq : p ≠ q := by
      rintro rfl
      exact hnew rfl
    simp [ManagerState.apply, hpq]
  | deleteStored q =>
    have hpq : p ≠ q := by
      rintro rfl
      exact hdelete rfl
    simp [ManagerState.apply, hpq]
  | erase τ k =>
    rw [ManagerState.apply, ManagerState.flagsAfterErase]
    split
    · next g q hk =>
      have hpq : p ≠ q := by
        rintro rfl
        exact herase τ k g rfl hk
      simp [hpq]
    · rfl
  | storeStored τ =>
    by_cases hpq : p = (s.tls τ).previousFiberStored
    · subst hpq
      simp [ManagerState.apply]
    · simp [ManagerState.apply, hpq]
  | endWait caller | throwThrough caller => cases caller <;> rfl
  | _ => rfl

/-- What a step uses is the flag of the wait that it is meant for. -/
theorem ManagerInv.used (hm : ManagerInv s) {g : ℕ} (h : s.flagUsed t = some (g, p)) :
    s.flags p ≠ none ∧ s.flagFiber p = g := by
  rw [ManagerState.flagUsed] at h
  cases hrun : s.running t with
  | none => simp [hrun] at h
  | some f =>
    have hu := hm.flag.uses f
    have hat := hm.own.atStage t f hrun
    have hhand := hm.flag.handoff t f hrun
    simp only [hrun, hm.own.onThread t f hrun] at h
    rw [ManagerState.stage] at hat hhand
    generalize (s.fibers f).pc = pc at h hu hat hhand
    revert h
    fun_cases FiberPc.flagUsed s f t pc <;> intro h
    -- the hand-off of the thread
    case case1 =>
      cases h
      obtain ⟨hp, hpf⟩ := hhand rfl hat.2
      exact ⟨by simp [hp], hpf⟩
    -- an entry of its ready list
    case case2 | case3 =>
      obtain ⟨hp, hpf, -⟩ := hm.flag.entries.entry t g p (List.mem_of_getElem? h)
      exact ⟨hp, hpf⟩
    -- the flag of the fiber's own wait
    case case4 =>
      cases h
      exact ⟨by simp [hu.1], hu.2.1⟩
    case case5 => cases h

/-- What a step deletes, it uses. -/
theorem FiberPc.flagUsed_of_deleted (h : pc.flagDeleted s tls = some p) :
    ∃ g, pc.flagUsed s f tls = some (g, p) := by
  revert h
  fun_cases FiberPc.flagDeleted s tls pc <;> intro h
  case case1 =>
    obtain ⟨⟨g, q⟩, hk, rfl⟩ := Option.map_eq_some_iff.mp h
    exact ⟨g, hk⟩
  case case2 =>
    cases h
    exact ⟨f, rfl⟩
  case case3 => cases h

/-- A step allocates a flag that was not there, deletes one that was there, and leaves the others.
-/
theorem flags_balance (hm : ManagerInv s) (hs : managerStep opts s a = some s') (p : FlagPtr) :
    (if s.flagAllocated a = some p then 1 else 0) + (if s.flags p = none then 0 else 1) =
      (if s.flagDeleted a.thread = some p then 1 else 0) + if s'.flags p = none then 0 else 1 := by
  rcases managerStep_cases hs with ⟨f, act, pc', hrun, hn, rfl⟩ | ⟨act, pc', hrun, hn, rfl⟩
  · have h := fiberStep_of_next hn
    have halloc : s.flagAllocated a = some p ↔ act = .newStored p := by
      rw [ManagerState.flagAllocated, hrun]
      exact h.flagAllocated_iff hn
    have hdel : s.flagDeleted a.thread = some p ↔ act = .deleteStored p ∨
        ∃ k g, act = .erase ((s.fibers f).currentTLS a.thread) k ∧
          (s.ready ((s.fibers f).currentTLS a.thread))[k]? = some (g, p) := by
      rw [ManagerState.flagDeleted, hrun]
      exact h.flagDeleted_iff
    have hlive : s.flagDeleted a.thread = some p → s.flags p ≠ none := by
      intro hd
      rw [ManagerState.flagDeleted, hrun] at hd
      obtain ⟨g, hused⟩ := FiberPc.flagUsed_of_deleted (f := f) hd
      refine (hm.used (t := a.thread) (g := g) ?_).1
      rw [ManagerState.flagUsed, hrun]
      exact hused
    by_cases hnew : act = .newStored p
    -- `new` returns an address that is not in use
    · subst hnew
      have hp : s.flags p = none := by
        generalize (s.fibers f).pc = pc at h
        cases h
        assumption
      have hnot : s.flagDeleted a.thread ≠ some p := fun hd => hlive hd hp
      simp [halloc, hnot, hp, ManagerState.apply]
    · by_cases hd : s.flagDeleted a.thread = some p
      · have hgone : (s.apply a.thread f act).flags p = none := by
          rcases hdel.mp hd with rfl | ⟨k, g, rfl, hk⟩
          · simp [ManagerState.apply]
          · rw [ManagerState.ready] at hk
            simp [ManagerState.apply, ManagerState.flagsAfterErase, hk]
        simp [halloc, hnew, hd, hlive hd, hgone]
      · have hsame : (s.apply a.thread f act).flags p = none ↔ s.flags p = none := by
          refine ManagerState.flags_none_iff hnew (fun hdelete => hd (hdel.mpr (.inl hdelete)))
            fun τ k g herase hk => hd (hdel.mpr (.inr ⟨k, g, ?_⟩))
          have hτ : τ = (s.fibers f).currentTLS a.thread := by
            subst herase
            generalize (s.fibers f).pc = pc at h
            cases h
            rfl
          exact ⟨hτ ▸ herase, hτ ▸ hk⟩
        simp [halloc, hnew, hd, hsame]
  -- the own code of a thread neither allocates nor deletes a flag
  · have hkeeps := threadStep_of_next hn
    have hflags : (s.apply a.thread noFiber act).flags = s.flags := by
      generalize s.threads a.thread = pc at hkeeps
      cases hkeeps <;> rfl
    simp [ManagerState.flagAllocated, ManagerState.flagDeleted, hrun, hflags]

/-- The invariants in every such run. -/
theorem lifetimeInv_of_run {h : History ManagerState ManagerAction}
    (hr : (managerSystem opts).Run OrderlyUnrefused h s) : ManagerInv s ∧ LifetimeInv s := by
  refine hr.invariant (P := fun _ s => ManagerInv s ∧ LifetimeInv s) (fun s hs => ?_)
    fun _ _ _ _ _ hi hok hs => ?_
  · obtain rfl : s = .start opts := hs
    exact ⟨.start opts, .start opts⟩
  · have hm := hi.1.step hok.1.1 hok.1.2.1 hs
    exact ⟨hm, hi.2.step hi.1 hm hok.2 hs⟩

/-- In every orderly run in which no wait is refused, every flag is deleted once, when its wait is
over, and not used afterwards. -/
theorem flags_freed {h : History ManagerState ManagerAction}
    (hr : (managerSystem opts).Run OrderlyUnrefused h s) : FlagsFreed h s := by
  obtain ⟨hm, hv⟩ := lifetimeInv_of_run hr
  refine ⟨fun e he g p hused => ?_, fun t g p hp => ?_, fun c x reg hreg hown hdel => ?_,
    fun p => ?_, hv.during⟩
  · obtain ⟨_, hr₀⟩ := hr.before he
    exact (lifetimeInv_of_run hr₀).1.used hused
  · obtain ⟨hlive, hpf, -⟩ := hm.flag.entries.entry t g p hp
    exact ⟨hlive, hpf⟩
  · obtain ⟨hlive, hpf, -⟩ := hm.flag.entries.call c x reg hreg hown hdel
    exact ⟨hlive, hpf⟩
  · clear hm hv
    induction hr with
    | init hs =>
      cases hs
      rfl
    | step hr₀ hok hs ih =>
      -- one step more on both sides
      have hbalance := flags_balance (lifetimeInv_of_run hr₀).1 hs p
      rw [List.countP_cons, List.countP_cons]
      simp only [decide_eq_true_eq]
      omega

end Counted

/-- The flag of the main callback is deleted when it goes on. -/
theorem flags_freed_resumed :
    ∃ h s, (managerSystem twoWorkers).Run OrderlyUnrefused h s ∧ s.running 0 = some 0 ∧
      h.countP (fun e => e.1.flagDeleted e.2.thread = some 1) = 1 ∧ FlagsFreed h s := by
  have hrun : ∃ (h : History ManagerState ManagerAction) (s : ManagerState),
      (managerSystem twoWorkers).Run OrderlyUnrefused h s ∧ s.running 0 = some 0 ∧
        h.countP (fun e => e.1.flagDeleted e.2.thread = some 1) = 1 :=
    System.exists_run_of_trace_by (managerStepEval_eq _) rfl mainResumes (by decide +kernel)
  obtain ⟨h, s, hr, hzero, hone⟩ := hrun
  exact ⟨h, s, hr, hzero, hone, flags_freed hr⟩

/-- One worker thread besides the IO thread, and five fibers. -/
def fiveFibers : ManagerOptions := ⟨1, 5, false⟩

/-- The fiber on thread 0 waits until counter 0 is one; `n` names its flag and its call, and the
call takes `k` steps until the next fiber executes its job. -/
def waitsForOne (n k : ℕ) : List ManagerAction :=
  [⟨0, .op (.waitForCounter (some 0) 1)⟩, ⟨0, .succeed⟩, ⟨0, .address n⟩, ⟨0, .call n⟩] ++
    threadSteps 0 k

/-- The main callback schedules four jobs, and then it and the jobs wait for the same counter, one
after another. -/
def fiveWaits : List ManagerAction :=
  threadSteps 0 7 ++
    (List.replicate 4 [⟨0, .op (.scheduleJob .normal (some 7) none)⟩, ⟨0, .succeed⟩]).flatten ++
    waitsForOne 1 28 ++ waitsForOne 2 30 ++ waitsForOne 3 32 ++ waitsForOne 4 34 ++ waitsForOne 5 6

/-- The slots of the counter are full when the last job wants to wait: the exception leaves
`WaitForCounter`, and the flag of the wait is not deleted. -/
theorem flag_leaked :
    ∃ h s, (managerSystem fiveFibers).Run Orderly h s ∧ s.flags 5 = some false ∧
      (s.fibers (s.flagFiber 5)).pc = .threw (.job ⟨some 7, none⟩) .body ∧ ¬ FlagsFreed h s := by
  have hrun : ∃ (h : History ManagerState ManagerAction) (s : ManagerState),
      (managerSystem fiveFibers).Run Orderly h s ∧ s.flags 5 = some false ∧
        (s.fibers (s.flagFiber 5)).pc = .threw (.job ⟨some 7, none⟩) .body :=
    System.exists_run_of_trace_by (managerStepEval_eq _) rfl fiveWaits (by decide +kernel)
  obtain ⟨h, s, hr, hflag, hpc⟩ := hrun
  refine ⟨h, s, hr, hflag, hpc, fun hfreed => ?_⟩
  have hduring := hfreed.during 5 (by simp [hflag])
  rw [hpc] at hduring
  cases hduring

end NomadTasks
