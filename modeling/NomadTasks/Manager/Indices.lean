import NomadTasks.Manager.NextJob

/-!
# Where the index of a fiber comes from

A fiber is switched to by its index. `FindFreeFiber` gives the index to the thread that takes the
fiber; from there it goes into local variables and into the `TLS` of the thread, and on into the
waiting slots of counters and into ready lists. So an index that the main thread alone has taken is
nowhere else, as long as the main thread does not run a fiber.

* `ManagerState.OnlyMain`: no thread but the main one has the index, and the fiber has not started.
* `ManagerState.MainApart`: no fiber uses the `TLS` of the main thread, or switches back to it.
* `OnlyMain.fiber_step`, `OnlyMain.thread_step`, `MainApart.fiber_step`, `MainApart.thread_step`:
  the steps that keep it so.
-/

namespace NomadTasks

/-! ## Counters -/

/-- No slot has the index `g`. -/
def BaseCounter.Avoids (g : ℕ) (b : BaseCounter) : Prop := ∀ i, (b.waitingFibers i).fiberIndex ≠ g

/-- The call does not carry the index `g`. -/
def CounterCall.Avoids (g : ℕ) : CounterCall → Prop
  | .addWaiting reg _ => reg.fiberIndex ≠ g
  | .modify _ (.check _ _ (.push _ fiberIndex)) => fiberIndex ≠ g
  | _ => True

/-- The index `g` is nowhere in the counter. -/
structure CounterState.Avoids (g : ℕ) (k : CounterState ℕ) : Prop where
  slots : k.ctr.Avoids g
  calls : ∀ x, (k.calls x).Avoids g

section Counter

variable {g i : ℕ} {b : BaseCounter} {k : CounterState ℕ}

theorem BaseCounter.Avoids.setSlot (hb : b.Avoids g) {slot : WaitingFibers}
    (hslot : slot.fiberIndex ≠ g) : (b.setSlot i slot).Avoids g := by
  intro j
  by_cases hj : j = i
  · subst hj
    simpa [BaseCounter.setSlot] using hslot
  · simpa [BaseCounter.setSlot, hj] using hb j

/-- A call writes and pushes the index that it was given, or that it has read from a slot. -/
theorem CounterCall.Avoids.next {c c' : CounterCall} {eff : Effect} (hc : c.Avoids g)
    (hb : b.Avoids g) (h : c.next b = some (eff, c')) :
    (b.apply eff).Avoids g ∧ c'.Avoids g ∧ ∀ e ∈ eff.pushes, e.1 ≠ g := by
  rcases c with _ | ⟨reg, pc⟩ | ⟨op, _ | ⟨prev, value, pc⟩ | prev⟩
  · cases h
  · revert h
    simp only [CounterCall.next]
    fun_cases AddPc.next b reg pc <;> rintro ⟨⟩
    all_goals first
      | exact ⟨hb, hc, by simp [Effect.pushes]⟩
      | exact ⟨hb.setSlot hc, hc, by simp [Effect.pushes]⟩
      | exact ⟨hb.setSlot (hb _), hc, by simp [Effect.pushes]⟩
  · cases h
    exact ⟨hb, trivial, by simp [Effect.pushes]⟩
  · revert h
    simp only [CounterCall.next, ModifyPc.next]
    fun_cases ScanPc.next b value pc <;> rintro ⟨⟩
    case case10 j => exact ⟨hb, hb j, by simp [Effect.pushes]⟩
    case case11 => exact ⟨hb, trivial, by simpa [Effect.pushes, CounterCall.Avoids] using hc⟩
    all_goals first
      | exact ⟨hb, trivial, by simp [Effect.pushes]⟩
      | exact ⟨hb.setSlot (hb _), trivial, by simp [Effect.pushes]⟩
  · cases h

/-- An action on a counter brings in no index but that of the call that it begins. -/
theorem CounterState.Avoids.step (hk : k.Avoids g) {a : CounterAction ℕ}
    (hbegun : a.begun.Avoids g) :
    ((counterStep k a).getD k).Avoids g ∧ ∀ e ∈ k.readied a, e.1 ≠ g := by
  have hset : ∀ x c, c.Avoids g → (k.setCall x c).Avoids g := by
    refine fun x c hc => ⟨hk.slots, fun y => ?_⟩
    by_cases hy : y = x
    · subst hy
      simpa using hc
    · simpa [hy] using hk.calls y
  cases a with
  | beginAddWaiting x | beginModify x =>
    refine ⟨?_, by simp [CounterState.readied]⟩
    rw [counterStep]
    split
    · exact hset x _ hbegun
    · exact hk
  | step x =>
    simp only [counterStep, CounterState.readied]
    cases hn : (k.calls x).next k.ctr with
    | none => exact ⟨hk, by simp⟩
    | some r =>
      obtain ⟨hb, hc, hpush⟩ := (hk.calls x).next hk.slots hn
      refine ⟨⟨hb, fun y => ?_⟩, hpush⟩
      by_cases hy : y = x
      · subst hy
        simpa using hc
      · simpa [hy] using hk.calls y

end Counter

/-! ## The manager -/

/-- The fiber that a local variable of the code names. -/
def FiberPc.named : FiberPc → Option ℕ
  | .getNextJob (.erase _ g) => some g
  | pc => pc.reserved

/-- The act of thread `t` brings the index `g` nowhere where a thread other than the main thread
finds it. -/
def Act.Avoids (t g : ℕ) : Act → Prop
  | .writeTls tls (.currentFiberIndex k) => tls = 0 ∨ k ≠ g
  | .writeTls _ (.previousFiberIndex k) => k ≠ g
  | .switchTo _ k => t = 0 ∨ k ≠ g
  | .counter _ a => a.begun.Avoids g
  | _ => True

/-- The fiber has not started, and its index is nowhere but in the local variable and the
`_currentFiberIndex` of the main thread. -/
structure ManagerState.OnlyMain (s : ManagerState) (g : ℕ) : Prop where
  start : (s.fibers g).pc = .start
  running : ∀ t, t ≠ 0 → s.running t ≠ some g
  current : ∀ t, t ≠ 0 → (s.tls t).currentFiberIndex ≠ g
  previous : ∀ t, (s.tls t).previousFiberIndex ≠ g
  ready : ∀ t, ∀ e ∈ (s.tls t).readyFibers, e.1 ≠ g
  threads : ∀ t, t ≠ 0 → (s.threads t).reserved ≠ some g
  fibers : ∀ f, (s.fibers f).pc.named ≠ some g
  counters : ∀ c, (s.counters c).Avoids g

section Steps

variable {opts : ManagerOptions} {s : ManagerState} {t f tls g : ℕ} {act : Act}

/-- A fiber hands on the index that it has read from its `TLS`, that its local variable names, or
that it takes from the pool. -/
theorem FiberStep.avoids {pc pc' : FiberPc} (h : FiberStep opts s f tls pc act pc')
    (hnamed : pc.named ≠ some g) (hcur : (s.tls tls).currentFiberIndex ≠ g)
    (hready : ∀ e ∈ (s.tls tls).readyFibers, e.1 ≠ g) (hact : act ≠ .takeIdle g) :
    act.Avoids t g ∧ pc'.named ≠ some g := by
  cases h with
  -- the local variable gets the index of an entry
  | @readyTake k k' p hk =>
    have hne := hready _ (List.mem_of_getElem? hk)
    exact ⟨trivial, by simpa [FiberPc.named] using hne⟩
  | waitFound | mainFound =>
    refine ⟨trivial, fun hg => hact ?_⟩
    rw [Option.some.inj hg]
  | nextSetPrevious | waitSetPrevious => exact ⟨hcur, hnamed⟩
  | nextSetCurrent | waitSetCurrent | mainSetCurrent =>
    exact ⟨.inr fun hk => hnamed (congrArg some hk), hnamed⟩
  | nextSwitchTo | waitSwitchTo | mainSwitchTo =>
    exact ⟨.inr fun hk => hnamed (congrArg some hk), by simp [FiberPc.named, FiberPc.reserved]⟩
  | erase | nextSetDestination => exact ⟨trivial, hnamed⟩
  -- `AddWaitingFiber` is called with the index in the `TLS`
  | @«begin» use =>
    refine ⟨?_, by simp [FiberPc.named, FiberPc.reserved]⟩
    cases use with
    | waitForCounter => exact hcur
    | _ => trivial
  | _ => exact ⟨trivial, by simp [FiberPc.named, FiberPc.reserved]⟩

/-- The `TLS` of the threads after such an act. -/
theorem ManagerState.OnlyMain.tls_apply (ho : s.OnlyMain g) (hno : g ≠ noFiber)
    (hact : act.Avoids t g) (u : ℕ) :
    (u ≠ 0 → ((s.apply t f act).tls u).currentFiberIndex ≠ g) ∧
      ((s.apply t f act).tls u).previousFiberIndex ≠ g ∧
      ∀ e ∈ ((s.apply t f act).tls u).readyFibers, e.1 ≠ g := by
  have hold := And.intro (ho.current u) (And.intro (ho.previous u) (ho.ready u))
  cases act with
  | writeTls τ w =>
    by_cases hu : u = τ
    · subst hu
      rw [show ((s.apply t f (.writeTls u w)).tls u) = (s.tls u).write w from
        Function.update_self ..]
      cases w with
      | currentFiberIndex k => exact ⟨fun hu => hact.resolve_left hu, hold.2⟩
      | previousFiberIndex k => exact ⟨hold.1, hact, hold.2.2⟩
      | cleanup => exact ⟨hold.1, hno.symm, hold.2.2⟩
      | _ => exact hold
    · rwa [show ((s.apply t f (.writeTls τ w)).tls u) = s.tls u from Function.update_of_ne hu ..]
  | erase τ k =>
    by_cases hu : u = τ
    · subst hu
      rw [show ((s.apply t f (.erase u k)).tls u) =
        { s.tls u with readyFibers := (s.tls u).readyFibers.eraseIdx k } from
          Function.update_self ..]
      exact ⟨hold.1, hold.2.1, fun e he => hold.2.2 e (List.mem_of_mem_eraseIdx he)⟩
    · rwa [show ((s.apply t f (.erase τ k)).tls u) = s.tls u from Function.update_of_ne hu ..]
  | counter c a =>
    -- what a scan readies comes from the slots of its counter
    have hreadied := ((ho.counters c).step hact).2
    by_cases hu : u = t
    · subst hu
      rw [show (s.apply u f (.counter c a)).tls =
          s.readyAfter u ((s.counters c).readied a) from rfl,
        s.readyAfter_self]
      refine ⟨hold.1, hold.2.1, fun e he => ?_⟩
      rcases List.mem_append.mp he with hmem | hmem
      · exact hold.2.2 e hmem
      · exact hreadied e hmem
    · rwa [show (s.apply t f (.counter c a)).tls =
          s.readyAfter t ((s.counters c).readied a) from rfl,
        s.readyAfter_of_ne _ hu]
  | endWait caller | throwThrough caller => cases caller <;> exact hold
  | _ => exact hold

/-- Such an act leaves the index to the main thread. -/
theorem ManagerState.OnlyMain.apply (ho : s.OnlyMain g) (hno : g ≠ noFiber)
    (hact : act.Avoids t g) : (s.apply t f act).OnlyMain g := by
  have htls := ho.tls_apply (f := f) hno hact
  refine ⟨?_, fun u hu => ?_, fun u => (htls u).1, fun u => (htls u).2.1, fun u => (htls u).2.2,
    fun u hu => ?_, fun k => ?_, fun c => ?_⟩
  · rw [ManagerState.apply_fibers]
    exact ho.start
  · by_cases hut : u = t
    · subst hut
      cases act with
      | switchTo τ k =>
        rw [ManagerState.apply_switchTo_running]
        exact fun hk => hact.resolve_left hu (Option.some.inj hk)
      | switchBack =>
        rw [ManagerState.apply_switchBack_running]
        exact nofun
      | endWait caller | throwThrough caller => cases caller <;> exact ho.running u hu
      | _ => exact ho.running u hu
    · rw [ManagerState.apply_running_of_ne hut]
      exact ho.running u hu
  · rcases s.apply_threads t f act u with hsame | hret
    · rw [hsame]
      exact ho.threads u hu
    · rw [hret]
      exact nofun
  · rw [ManagerState.apply_fibers]
    exact ho.fibers k
  · cases act with
    | counter c' a =>
      by_cases hc : c = c'
      · subst hc
        simpa [ManagerState.apply] using ((ho.counters c).step hact).1
      · simpa [ManagerState.apply, hc] using ho.counters c
    | endWait caller | throwThrough caller => cases caller <;> exact ho.counters c
    | _ => exact ho.counters c

theorem ManagerState.OnlyMain.setFiber (ho : s.OnlyMain g) {fiber : FiberState} (hfg : f ≠ g)
    (hnamed : fiber.pc.named ≠ some g) : (s.setFiber f fiber).OnlyMain g := by
  refine ⟨?_, ho.running, ho.current, ho.previous, ho.ready, ho.threads, fun k => ?_, ho.counters⟩
  · rw [ManagerState.setFiber_fibers, Function.update_of_ne hfg.symm]
    exact ho.start
  · by_cases hk : k = f
    · rw [ManagerState.setFiber_fibers, hk, Function.update_self]
      exact hnamed
    · rw [ManagerState.setFiber_fibers, Function.update_of_ne hk]
      exact ho.fibers k

theorem ManagerState.OnlyMain.setThread (ho : s.OnlyMain g) {pc : ThreadPc}
    (hpc : t = 0 ∨ pc.reserved ≠ some g) : (s.setThread t pc).OnlyMain g := by
  refine ⟨ho.start, ho.running, ho.current, ho.previous, ho.ready, fun u hu => ?_, ho.fibers,
    ho.counters⟩
  by_cases hut : u = t
  · subst hut
    rw [ManagerState.setThread_threads, Function.update_self]
    exact hpc.resolve_left hu
  · rw [ManagerState.setThread_threads, Function.update_of_ne hut]
    exact ho.threads u hu

/-- A step of a thread's own code leaves the index to the main thread, unless another thread takes
the fiber from the pool. -/
theorem ManagerState.OnlyMain.thread_step (ho : s.OnlyMain g) (hno : g ≠ noFiber) {pc' : ThreadPc}
    (h : ThreadStep s t (s.threads t) act pc') (hact : t ≠ 0 → act ≠ .takeIdle g) :
    ((s.apply t noFiber act).setThread t pc').OnlyMain g := by
  by_cases ht : t = 0
  -- the main thread may do with the index what it wants
  · have havoids : act.Avoids t g := by
      generalize s.threads t = pc at h
      cases h with
      | setCurrentMain | setCurrentWorker => exact .inl ht
      | switchTo => exact .inl ht
      | _ => trivial
    exact (ho.apply hno havoids).setThread (.inl ht)
  · have hpc := ho.threads t ht
    have hboth : act.Avoids t g ∧ pc'.reserved ≠ some g := by
      generalize s.threads t = pc at h hpc
      cases h with
      | search => exact ⟨trivial, nofun⟩
      | found =>
        refine ⟨trivial, fun hg => hact ht ?_⟩
        rw [Option.some.inj hg]
      | setCurrentMain | setCurrentWorker =>
        exact ⟨.inr fun hk => hpc (congrArg some hk), hpc⟩
      | setCallback => exact ⟨trivial, hpc⟩
      | switchTo => exact ⟨.inr fun hk => hpc (congrArg some hk), nofun⟩
    exact (ho.apply hno hboth.1).setThread (.inr hboth.2)

/-! ## The main thread apart from the others -/

/-- No fiber uses the `TLS` of the main thread, and no fiber on another thread switches back to it.
-/
structure ManagerState.MainApart (s : ManagerState) : Prop where
  tls : ∀ f, (s.fibers f).pc ≠ .start → (s.fibers f).tls ≠ 0
  returns : ∀ t f, t ≠ 0 → s.running t = some f → s.returnFiber f ≠ 0

/-- A fiber on another thread uses another `TLS`. -/
theorem ManagerState.MainApart.currentTLS (ha : s.MainApart) (ht : t ≠ 0) (f : ℕ) :
    (s.fibers f).currentTLS t ≠ 0 := by
  rw [FiberState.currentTLS]
  split
  · exact ht
  -- a fiber that has not asked for its `TLS` in this step has started
  · next hget =>
    refine ha.tls f fun hstart => hget ?_
    rw [hstart]
    rfl

/-- An act switches with another `TLS`, or on the main thread to a fiber that no other thread
executes. -/
theorem ManagerState.MainApart.returns_apply (ha : s.MainApart)
    (hact : ∀ τ j, act = .switchTo τ j → τ ≠ 0 ∨ t = 0 ∧ ∀ u, u ≠ 0 → s.running u ≠ some j)
    {u k : ℕ} (hu : u ≠ 0) (hk : (s.apply t f act).running u = some k) :
    (s.apply t f act).returnFiber k ≠ 0 := by
  rcases ManagerState.apply_returnFiber hk with ⟨hold, hsame⟩ | ⟨tls, rfl, hret, hut⟩
  · rw [hsame]
    exact ha.returns u k hu hold
  · rw [hret]
    rcases hact tls k rfl with hne | ⟨rfl, hfree⟩
    · exact hne
    · exact absurd (hut.resolve_left hu) (hfree u hu)

/-- A step of a fiber on another thread leaves the own code of the main thread where it is. -/
theorem ManagerState.MainApart.threads_apply (ha : s.MainApart) (ht : t ≠ 0)
    (hrun : s.running t = some f) : (s.apply t f act).threads 0 = s.threads 0 := by
  cases act with
  | switchBack => exact Function.update_of_ne (ha.returns t f ht hrun).symm ..
  | endWait caller | throwThrough caller => cases caller <;> rfl
  | _ => rfl

section FiberStep

variable {pc' : FiberPc}

/-- A step of a fiber on another thread keeps that. -/
theorem ManagerState.MainApart.fiber_step (ha : s.MainApart) (ht : t ≠ 0)
    (h : FiberStep opts s f ((s.fibers f).currentTLS t) (s.fibers f).pc act pc') :
    ((s.apply t f act).setFiber f ⟨(s.fibers f).currentTLS t, pc'⟩).MainApart := by
  have htls := ha.currentTLS ht f
  refine ⟨fun k hk => ?_, fun u k hu hk => ha.returns_apply ?_ hu hk⟩
  · by_cases hkf : k = f
    · rw [ManagerState.setFiber_fibers, hkf, Function.update_self]
      exact htls
    · rw [ManagerState.setFiber_fibers, Function.update_of_ne hkf,
        ManagerState.apply_fibers] at hk ⊢
      exact ha.tls k hk
  · rintro τ j rfl
    rcases h.moves_cases with hstay | ⟨i, hi, -⟩ | ⟨hback, -⟩
    · cases hstay
    · cases hi
      exact .inl htls
    · cases hback

/-- A step of a fiber on another thread leaves the index to the main thread, unless it takes the
fiber from the pool. -/
theorem ManagerState.OnlyMain.fiber_step (ho : s.OnlyMain g) (hno : g ≠ noFiber) (ha : s.MainApart)
    (ht : t ≠ 0) (hrun : s.running t = some f)
    (h : FiberStep opts s f ((s.fibers f).currentTLS t) (s.fibers f).pc act pc')
    (hact : act ≠ .takeIdle g) :
    ((s.apply t f act).setFiber f ⟨(s.fibers f).currentTLS t, pc'⟩).OnlyMain g := by
  have hfg : f ≠ g := by
    rintro rfl
    exact ho.running t ht hrun
  have hcur := ho.current _ (ha.currentTLS ht f)
  obtain ⟨havoids, hnamed⟩ := h.avoids (ho.fibers f) hcur (ho.ready _) hact
  exact (ho.apply hno havoids).setFiber hfg hnamed

end FiberStep

/-- A step of a thread's own code keeps that, if no other thread executes the fiber that the main
thread switches to. -/
theorem ManagerState.MainApart.thread_step (ha : s.MainApart) {pc' : ThreadPc}
    (h : ThreadStep s t (s.threads t) act pc')
    (hfree : t = 0 → ∀ k, (s.threads t).switchTarget = some k → ∀ u, u ≠ 0 → s.running u ≠ some k) :
    ((s.apply t noFiber act).setThread t pc').MainApart := by
  refine ⟨fun k hk => ?_, fun u k hu hk => ha.returns_apply ?_ hu hk⟩
  · rw [ManagerState.setThread_fibers, ManagerState.apply_fibers] at hk ⊢
    exact ha.tls k hk
  · rintro τ j rfl
    generalize s.threads t = pc at h hfree
    cases h
    by_cases ht : t = 0
    · exact .inr ⟨ht, hfree ht j rfl⟩
    · exact .inl ht

end Steps

end NomadTasks
