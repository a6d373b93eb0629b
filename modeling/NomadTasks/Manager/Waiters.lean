import NomadTasks.Counter.WakeUp
import NomadTasks.Manager.Accounted
import NomadTasks.Manager.CounterCalls
import NomadTasks.Manager.FlagLifetime

/-!
# No waiter is forgotten

A fiber that is parked in `WaitForCounter` cannot do anything for itself: it goes on when a thread
finds it in its ready list. Until then its registration must be in a slot of the counter, or a scan
must have claimed it and be about to push it, or the entry must be in a ready list. The runs are
those of `Run` with a main callback and spawned threads; nobody has called `SetupThread`.

* `RecordInv`: the flag of a registration that has been delivered is in a ready list until it is
  deleted.
* `ParkedInv`: the wait that a fiber is parked in is registered for the counter and the value that
  its program names.
* `parked_waiters`: where the wait of each parked fiber stands.
* `reached_waiters`: a fiber that waits for the value that the counter has is ready, unless a call
  on the counter is in progress.
-/

namespace NomadTasks

open Transition Ownership

/-! ## What is delivered is in a ready list -/

/-- A flag that is not deleted is that of the registration it has been passed to, and is in a ready
list if the registration has been delivered. -/
structure RecordInv (s : ManagerState) : Prop where
  registered : ∀ p c x, s.flags p ≠ none → s.flagCall p = some (c, x) →
    ∃ v, ((s.counters c).calls x).registration = some ⟨s.flagFiber p, v, p⟩
  delivered : ∀ p c x, s.flags p ≠ none → s.flagCall p = some (c, x) →
    (s.counters c).Delivered x → ∃ u, (s.flagFiber p, p) ∈ s.ready u

namespace RecordInv

variable {s s' : ManagerState} {t f : ℕ}

/-- The invariant depends on the flags that are not deleted and on their entries. -/
private theorem of_flags (hi : RecordInv s) (hcounters : s'.counters = s.counters)
    (hflags : ∀ p e, s'.flags p ≠ none → s'.flagCall p = some e →
      s.flags p ≠ none ∧ s'.flagFiber p = s.flagFiber p ∧ s.flagCall p = some e)
    (hready : ∀ u g p, s'.flags p ≠ none → (g, p) ∈ s.ready u → (g, p) ∈ s'.ready u) :
    RecordInv s' where
  registered p c x hp hcall := by
    obtain ⟨hp₀, hff, hcall₀⟩ := hflags p _ hp hcall
    rw [hcounters, hff]
    exact hi.registered p c x hp₀ hcall₀
  delivered p c x hp hcall hdel := by
    obtain ⟨hp₀, hff, hcall₀⟩ := hflags p _ hp hcall
    rw [hcounters] at hdel
    obtain ⟨u, hu⟩ := hi.delivered p c x hp₀ hcall₀ hdel
    exact ⟨u, by rw [hff]; exact hready u _ p hp hu⟩

/-- The acts that leave flags, counters and ready lists alone. -/
theorem quiet (hi : RecordInv s) {act : Act} (hact : act.keepsFlags = true) (t f : ℕ) :
    RecordInv (s.apply t f act) := by
  obtain ⟨hflags, hff, hfc, hctr, hready⟩ := EntryInv.apply_keepsFlags hact s t f
  refine hi.of_flags hctr (fun p e hp hcall => ⟨?_, ?_, ?_⟩) fun u g p _ hmem => ?_
  · rwa [hflags] at hp
  · rw [hff]
  · rwa [hfc] at hcall
  · rwa [hready]

/-- The entry that is erased has lost its flag, and the others stay. -/
theorem erase (hi : RecordInv s) {k g : ℕ} {p : FlagPtr} (hk : (s.ready t)[k]? = some (g, p)) :
    RecordInv (s.apply t f (.erase t k)) := by
  have hflags : (s.apply t f (.erase t k)).flags = Function.update s.flags p none := by
    rw [ManagerState.ready] at hk
    simp [ManagerState.apply, ManagerState.flagsAfterErase, hk]
  have hne : ∀ q, (s.apply t f (.erase t k)).flags q ≠ none → q ≠ p := by
    rintro q hq rfl
    simp [hflags] at hq
  refine hi.of_flags rfl (fun q e hq hcall => ⟨?_, rfl, hcall⟩) fun u h q hq hmem => ?_
  · have hqp := hne q hq
    rwa [hflags, Function.update_of_ne hqp] at hq
  · by_cases hut : u = t
    · subst hut
      obtain ⟨j, hj⟩ := List.mem_iff_getElem?.mp hmem
      have hjk : j ≠ k := by
        rintro rfl
        obtain ⟨-, rfl⟩ : (h = g) ∧ q = p := by simpa using hj.symm.trans hk
        exact hne q hq rfl
      have hready : (s.apply u f (.erase u k)).ready u = (s.ready u).eraseIdx k := by
        simp [ManagerState.ready, ManagerState.apply]
      rw [hready, List.mem_eraseIdx_iff_getElem?]
      exact ⟨j, hjk, hj⟩
    · simpa [ManagerState.ready, ManagerState.apply, hut] using hmem

/-- A step on a counter keeps the invariant, if the call that it begins has the flag that it is
given, and what it delivers gets its entry. -/
private theorem of_counter (hi : RecordInv s) {c : CtrId} {k' : CounterState ℕ}
    (hcounters : s'.counters = Function.update s.counters c k') (hflags : s'.flags = s.flags)
    (hff : s'.flagFiber = s.flagFiber) (hready : ∀ u e, e ∈ s.ready u → e ∈ s'.ready u)
    (hkept : CallsKept (s.counters c) k')
    (hcall : ∀ p e, s.flags p ≠ none → s'.flagCall p = some e → s.flagCall p = some e ∨
      ∃ x v, e = (c, x) ∧ (k'.calls x).registration = some ⟨s.flagFiber p, v, p⟩ ∧
        ¬ k'.Delivered x)
    (hdel : ∀ p x v, ((s.counters c).calls x).registration = some ⟨s.flagFiber p, v, p⟩ →
      k'.Delivered x → (s.counters c).Delivered x ∨ ∃ u, (s.flagFiber p, p) ∈ s'.ready u) :
    RecordInv s' where
  registered p c' x hp hca := by
    rw [hflags] at hp
    rw [hff]
    rcases hcall p _ hp hca with hold | ⟨y, v, heq, hreg, -⟩
    · obtain ⟨v, hreg⟩ := hi.registered p c' x hp hold
      refine ⟨v, ?_⟩
      rw [hcounters]
      by_cases hc : c' = c
      · subst hc
        rw [Function.update_self]
        exact hkept.registration x _ hreg
      · rwa [Function.update_of_ne hc]
    · obtain ⟨rfl, rfl⟩ : c' = c ∧ x = y := by simpa using heq
      exact ⟨v, by rwa [hcounters, Function.update_self]⟩
  delivered p c' x hp hca hd := by
    rw [hflags] at hp
    rw [hff]
    rw [hcounters] at hd
    rcases hcall p _ hp hca with hold | ⟨y, v, heq, -, hnot⟩
    · by_cases hc : c' = c
      · subst hc
        rw [Function.update_self] at hd
        obtain ⟨v, hreg⟩ := hi.registered p c' x hp hold
        rcases hdel p x v hreg hd with hd₀ | hnew
        · obtain ⟨u, hu⟩ := hi.delivered p c' x hp hold hd₀
          exact ⟨u, hready u _ hu⟩
        · exact hnew
      · rw [Function.update_of_ne hc] at hd
        obtain ⟨u, hu⟩ := hi.delivered p c' x hp hold hd
        exact ⟨u, hready u _ hu⟩
    · obtain ⟨rfl, rfl⟩ : c' = c ∧ x = y := by simpa using heq
      rw [Function.update_self] at hd
      exact absurd hd hnot

/-- A step on a counter only adds to the ready lists. -/
private theorem mem_ready_counter (s : ManagerState) (t f : ℕ) (c : CtrId) (a : CounterAction ℕ)
    (u : ℕ) (e : ReadyFiber) (he : e ∈ s.ready u) : e ∈ (s.apply t f (.counter c a)).ready u := by
  rw [EntryInv.ready_counter]
  exact List.mem_append_left _ he

/-- A modifier that begins refers to no flag. -/
theorem beginModify (hi : RecordInv s) {c : CtrId} {x : ℕ} {op : Modifier}
    (hx : (s.counters c).calls x = .notStarted) :
    RecordInv (s.apply t f (.counter c (.beginModify x op))) := by
  have hs : counterStep (s.counters c) (.beginModify x op) =
      some ((s.counters c).setCall x (.modify op .fetch)) := by
    simp [counterStep, hx, CounterAction.begun]
  exact hi.of_counter (by simp [ManagerState.apply, hs]) rfl rfl (mem_ready_counter s t f c _)
    (callsKept_step hs) (fun p e _ hcall => .inl hcall) fun p y v _ hd => .inl hd

/-- An `AddWaitingFiber` begins with the flag of its own fiber. -/
theorem beginAdd (hi : RecordInv s) {c : CtrId} (hk : CounterInv (s.counters c)) {x : ℕ}
    {reg : Registration} (hx : (s.counters c).calls x = .notStarted)
    (hff : s.flagFiber reg.fiberStored = reg.fiberIndex) :
    RecordInv (s.apply t f (.counter c (.beginAddWaiting x reg))) := by
  have hs : counterStep (s.counters c) (.beginAddWaiting x reg) =
      some ((s.counters c).setCall x (.addWaiting reg (.casFree 0))) := by
    simp [counterStep, hx, CounterAction.begun]
  refine hi.of_counter (by simp [ManagerState.apply, hs]) rfl rfl (mem_ready_counter s t f c _)
    (callsKept_step hs) (fun p e _ hcall => ?_) fun p y v _ hd => .inl hd
  by_cases hp : p = reg.fiberStored
  · subst hp
    refine .inr ⟨x, reg.targetValue, ?_, ?_, fun hd => ?_⟩
    · simpa [ManagerState.apply, ManagerState.flagCallAfter, eq_comm] using hcall
    · simp [CounterCall.registration, hff]
    · -- a call that has not started has registered nothing
      obtain ⟨y, -, hy⟩ := hk.claimed_of_delivered (a := x) hd
      have hreg := hk.claims.registered x y hy
      simp [hx, CounterCall.registered] at hreg
  · exact .inl (by simpa [ManagerState.apply, ManagerState.flagCallAfter, hp] using hcall)

/-- A step of a call delivers a registration by pushing its entry. -/
theorem step (hi : RecordInv s) {c : CtrId} (hk : CounterInv (s.counters c)) {x : ℕ}
    (hx : ((s.counters c).calls x).inProgress = true) :
    RecordInv (s.apply t f (.counter c (.step x))) := by
  obtain ⟨eff, call, hn⟩ := CounterCall.exists_next (b := (s.counters c).ctr) hx
  have hs : counterStep (s.counters c) (.step x) = some ((s.counters c).perform x eff call) := by
    simp [counterStep, hn]
  have hreadied : (s.counters c).readied (.step x) = eff.pushes := by
    simp [CounterState.readied, hn]
  refine hi.of_counter (by simp [ManagerState.apply, hs]) rfl rfl (mem_ready_counter s t f c _)
    (callsKept_step hs) (fun p e _ hcall => .inl hcall) fun p y v hreg hd => ?_
  rcases hk.delivered_perform hn with ⟨-, hsame⟩ | ⟨a, hpush, -, -, -, hdel⟩
  · exact .inl ((hsame y).mp hd)
  · rcases (hdel y).mp hd with hold | rfl
    · exact .inl hold
    · refine .inr ⟨t, ?_⟩
      rw [EntryInv.ready_counter, hreadied, hpush, if_pos rfl]
      apply List.mem_append_right
      simp [CounterCall.entry, hreg, Registration.entry]

variable {opts : ManagerOptions} {act : Act} {pc' : FiberPc}

/-- A step of a fiber keeps the invariant. -/
theorem fiber_step (hi : RecordInv s) (hm : ManagerInv s) (hrun : s.running t = some f)
    (h : FiberStep opts s f t (s.fibers f).pc act pc') : RecordInv (s.apply t f act) := by
  have hu := hm.flag.uses f
  have hcur := hm.own.clear_of_flagUse hrun
  have herased := fun k => hm.flag.erased hrun h (k := k)
  have hflag := h.flagStep
  generalize (s.fibers f).pc.flagUse = u at hu hflag hcur
  generalize pc'.flagUse = u' at hflag
  -- by what the step does to the flags
  cases hflag with
  | quiet hact => exact hi.quiet hact t f
  | @erase k =>
    obtain ⟨g, p, hk, -⟩ := herased k rfl
    exact hi.erase hk
  | storeStored =>
    refine hi.of_flags rfl (fun p e hp hcall => ⟨?_, rfl, hcall⟩) fun u g p _ hmem => hmem
    rintro hnone
    by_cases hps : p = (s.tls t).previousFiberStored
    · subst hps
      simp [ManagerState.apply, hnone] at hp
    · simp [ManagerState.apply, hps, hnone] at hp
  | @newStored q =>
    refine hi.of_flags rfl (fun p e hp hcall => ?_) fun u g p _ hmem => hmem
    have hpq : p ≠ q := by
      rintro rfl
      simp [ManagerState.apply] at hcall
    simp only [ManagerState.apply, Function.update_of_ne hpq] at hp hcall ⊢
    exact ⟨hp, trivial, hcall⟩
  | @deleteStored q =>
    refine hi.of_flags rfl (fun p e hp hcall => ⟨?_, rfl, hcall⟩) fun u g p _ hmem => hmem
    have hpq : p ≠ q := by
      rintro rfl
      simp [ManagerState.apply] at hp
    simpa [ManagerState.apply, hpq] using hp
  | «begin» hx =>
    obtain ⟨-, hpf, -⟩ := hu
    exact hi.beginAdd (hm.flag.entries.counters _) hx
      (hpf.trans (hcur (by simp) (by simp)).symm)
  | beginModify hx => exact hi.beginModify hx
  | step hx => exact hi.step (hm.flag.entries.counters _) hx
  | reached | waits | threw => exact hi
  | switchTo => exact hi.quiet rfl t f

/-- Every step keeps the invariant. -/
theorem managerStep {a : ManagerAction} (hi : RecordInv s) (hm : ManagerInv s)
    (hs : managerStep opts s a = some s') : RecordInv s' := by
  rcases managerStep_inv hs with
    ⟨f, pc, act, pc', hrun, rfl, h, rfl⟩ | ⟨pc, act, pc', hrun, rfl, h, rfl⟩
  · rw [hm.own.onThread a.thread f hrun] at h
    have hstep := hi.fiber_step hm hrun h
    exact ⟨hstep.registered, hstep.delivered⟩
  · have hkeeps : act.keepsFlags = true := by
      generalize s.threads a.thread = pc₀ at h
      cases h <;> rfl
    have hstep := hi.quiet hkeeps a.thread noFiber
    exact ⟨hstep.registered, hstep.delivered⟩

theorem start (opts : ManagerOptions) : RecordInv (.start opts) :=
  ⟨fun _ _ _ hp _ => absurd rfl hp, fun _ _ _ hp _ _ => absurd rfl hp⟩

end RecordInv

/-! ## The wait of a parked fiber -/

/-- The flag of the wait that a fiber is parked in, as long as it is not deleted, is that of a
registration for this wait, about which `AddWaitingFiber` has returned `false`. -/
def ParkedInv (s : ManagerState) : Prop :=
  ∀ g ctx caller c v p, (s.fibers g).pc = .waitForCounter ctx caller c v (.parked p) →
    s.flags p ≠ none → s.flagFiber p = g → ∃ x, s.flagCall p = some (c, x) ∧
      (s.counters c).calls x = .addWaiting ⟨g, v, p⟩ (.returned false)

section Parked

variable {opts : ManagerOptions} {s s' : ManagerState} {t f tls : ℕ} {act : Act}
  {pc pc' : FiberPc}

/-- A fiber passes its own flags to `AddWaitingFiber` only. -/
theorem FlagStep.flagCall {u u' : FlagUse} (h : FlagStep s t u act u') (hu : u.Ok s f)
    {p : FlagPtr} (hp : s.flags p ≠ none) (hne : s.flagFiber p ≠ f) :
    (s.apply t f act).flagCall p = s.flagCall p := by
  cases h with
  | quiet hact => rw [(EntryInv.apply_keepsFlags hact s t f).2.2.1]
  | @newStored q _ _ hq =>
    have hpq : p ≠ q := by
      rintro rfl
      exact hp hq
    simp [ManagerState.apply, hpq]
  | @«begin» q =>
    have hpq : p ≠ q := by
      rintro rfl
      exact hne hu.2.1
    simp [ManagerState.apply, ManagerState.flagCallAfter, hpq]
  | _ => rfl

/-- A fiber parks with the wait that it has been in. -/
theorem FiberStep.parks {ctx : Ctx} {caller : Caller} {c : CtrId} {v : CounterUnit} {p : FlagPtr}
    (h : FiberStep opts s f tls pc act pc')
    (hpc : pc' = .waitForCounter ctx caller c v (.parked p)) :
    (∃ g, act = .switchTo tls g) ∧ pc.flagUse = .held p v c := by
  cases h with
  | waitSwitchTo =>
    cases hpc
    exact ⟨⟨_, rfl⟩, rfl⟩
  | _ => cases hpc

/-- A step of a fiber keeps the waits of the parked ones. -/
theorem ParkedInv.fiber_step (hi : ParkedInv s) (hf : FlagInv s)
    (h : FiberStep opts s f t (s.fibers f).pc act pc') :
    ParkedInv ((s.apply t f act).setFiber f ⟨t, pc'⟩) := by
  intro g ctx caller c v p hpc hp hpg
  by_cases hgf : g = f
  · subst hgf
    simp only [ManagerState.setFiber_fibers, Function.update_self] at hpc
    obtain ⟨⟨k, rfl⟩, huse⟩ := h.parks hpc
    have hheld := hf.uses g
    rw [huse] at hheld
    exact hheld.2.2
  · simp only [ManagerState.setFiber_fibers, Function.update_of_ne hgf,
      ManagerState.apply_fibers] at hpc
    obtain ⟨-, hff⟩ | ⟨hp₀, hff⟩ := ManagerState.flags_of_apply hp
    · exact absurd (hpg.symm.trans hff) hgf
    · have hpg₀ : s.flagFiber p = g := hff.symm.trans hpg
      obtain ⟨x, hcall, hret⟩ := hi g ctx caller c v p hpc hp₀ hpg₀
      refine ⟨x, ?_, (callsKept_apply s t f act c).returned x _ _ hret⟩
      exact (h.flagStep.flagCall (hf.uses f) hp₀ (hpg₀ ▸ hgf)).trans hcall

/-- Every step keeps the waits of the parked fibers. -/
theorem ParkedInv.step {a : ManagerAction} (hi : ParkedInv s) (hm : ManagerInv s)
    (hs : managerStep opts s a = some s') : ParkedInv s' := by
  rcases managerStep_inv hs with
    ⟨f, pc, act, pc', hrun, rfl, h, rfl⟩ | ⟨pc, act, pc', hrun, rfl, h, rfl⟩
  · rw [hm.own.onThread a.thread f hrun] at h ⊢
    exact hi.fiber_step hm.flag h
  · have hkeeps : act.keepsFlags = true := by
      generalize s.threads a.thread = pc₀ at h
      cases h <;> rfl
    obtain ⟨hflags, hff, hfc, hctr, -⟩ := EntryInv.apply_keepsFlags hkeeps s a.thread noFiber
    intro g ctx caller c v p hpc hp hpg
    simp only [ManagerState.setThread_fibers, ManagerState.setThread_flags,
      ManagerState.setThread_flagFiber, ManagerState.setThread_flagCall,
      ManagerState.setThread_counters, ManagerState.apply_fibers, hflags, hff, hfc, hctr]
      at hpc hp hpg ⊢
    exact hi g ctx caller c v p hpc hp hpg

theorem ParkedInv.start (opts : ManagerOptions) : ParkedInv (.start opts) :=
  fun _ _ _ _ _ _ _ hp => absurd rfl hp

end Parked

/-! ## The calls in progress -/

/-- Each call that is in progress on a counter is that of a fiber. -/
def CallersInv (s : ManagerState) : Prop :=
  ∀ c x, ((s.counters c).calls x).inProgress = true →
    ∃ f use, (s.fibers f).pc = .call use c x

section Callers

variable {opts : ManagerOptions} {s s' : ManagerState} {t f tls : ℕ} {act : Act}
  {pc pc' : FiberPc}

/-- A fiber stays in a call until it has ended. -/
theorem FiberStep.leaves_call (h : FiberStep opts s f tls pc act pc') {use : CounterUse}
    {c : CtrId} {x : ℕ} (hpc : pc = .call use c x)
    (hx : ((s.counters c).calls x).inProgress = true) : pc' = .call use c x := by
  cases h with
  | call => exact hpc
  | incremented hend | modified hend | decremented hend | addThrew hend =>
    cases hpc
    rw [hend] at hx
    cases hx
  | addReached hret | addWaits hret =>
    cases hpc
    rw [hret] at hx
    cases hx
  | _ => cases hpc

/-- Every step keeps the calls in progress with their fibers. -/
theorem CallersInv.step {a : ManagerAction} (hi : CallersInv s)
    (hs : managerStep opts s a = some s') : CallersInv s' := by
  rcases managerStep_inv hs with
    ⟨f, pc, act, pc', hrun, rfl, h, rfl⟩ | ⟨pc, act, pc', hrun, rfl, h, rfl⟩
  · set fiber : FiberState := ⟨(s.fibers f).currentTLS a.thread, pc'⟩ with hfiber
    have hmove := h.counterMove (t := a.thread) fiber
    intro c x hx
    -- a call that was in progress before keeps its fiber
    have hkept : ((s.counters c).calls x).inProgress = true →
        ∃ g use, (((s.apply a.thread f act).setFiber f fiber).fibers g).pc = .call use c x := by
      intro hx₀
      obtain ⟨g, use, hg⟩ := hi c x hx₀
      refine ⟨g, use, ?_⟩
      by_cases hgf : g = f
      · subst hgf
        simpa [hfiber] using h.leaves_call hg hx₀
      · simpa [hgf] using hg
    have hself : (((s.apply a.thread f act).setFiber f fiber).fibers f).pc = pc' := by
      simp [hfiber]
    generalize (s.fibers f).pc = pc at hmove
    generalize (s.apply a.thread f act).setFiber f fiber = s' at hmove hx hkept hself
    cases hmove with
    | @begins use c' x' hx' hs' =>
      obtain ⟨current, hs'⟩ := hs'
      by_cases hcx : c = c' ∧ x = x'
      · obtain ⟨rfl, rfl⟩ := hcx
        exact ⟨f, use, hself⟩
      · apply hkept
        rw [hs'] at hx
        by_cases hc : c = c'
        · subst hc
          have hxx : x ≠ x' := fun h => hcx ⟨rfl, h⟩
          simpa [hxx] using hx
        · simpa [hc] using hx
    | @continues use c' x' eff call hn hs' =>
      by_cases hcx : c = c' ∧ x = x'
      · obtain ⟨rfl, rfl⟩ := hcx
        exact ⟨f, use, hself⟩
      · apply hkept
        rw [hs'] at hx
        by_cases hc : c = c'
        · subst hc
          have hxx : x ≠ x' := fun h => hcx ⟨rfl, h⟩
          simpa [hxx] using hx
        · simpa [hc] using hx
    | other hs' => exact hkept (by rwa [hs'] at hx)
  · intro c x hx
    rw [ManagerState.setThread_counters, ManagerState.apply_counters h.not_counter] at hx
    simpa using hi c x hx

theorem callersInv_of_run
    {ok : History ManagerState ManagerAction → ManagerState → ManagerAction → Prop}
    {h : History ManagerState ManagerAction} (hr : (managerSystem opts).Run ok h s) :
    CallersInv s := by
  refine hr.invariant (P := fun _ s => CallersInv s) (fun s hs c x hx => ?_)
    fun _ _ _ _ _ hi _ hs => hi.step hs
  obtain rfl : s = .start opts := hs
  cases hx

end Callers

/-! ## The counters of a manager -/

section Counters

variable {opts : ManagerOptions} {s s' : ManagerState} {t f : ℕ}

/-- An act takes one step on a counter, or leaves it alone. -/
theorem ManagerState.apply_counter (s : ManagerState) (t f : ℕ) (act : Act) (c : CtrId) :
    (s.apply t f act).counters c = s.counters c ∨
      ∃ a, counterStep (s.counters c) a = some ((s.apply t f act).counters c) := by
  by_cases hact : ∃ a, act = .counter c a
  · obtain ⟨a, rfl⟩ := hact
    cases hs : counterStep (s.counters c) a with
    | none => exact .inl (by simp [ManagerState.apply, hs])
    | some k' => exact .inr ⟨a, by simp [ManagerState.apply, hs]⟩
  · refine .inl ?_
    cases act with
    | counter c' a =>
      have hc : c ≠ c' := fun hc => hact ⟨a, by rw [hc]⟩
      simp [ManagerState.apply, hc]
    | endWait caller | throwThrough caller => cases caller <;> rfl
    | _ => rfl

/-- Each counter goes through a run of its own. -/
theorem counter_reachable
    {ok : History ManagerState ManagerAction → ManagerState → ManagerAction → Prop}
    {h : History ManagerState ManagerAction} (hr : (managerSystem opts).Run ok h s) (c : CtrId) :
    (counterSystem c.slots ℕ).Reachable (s.counters c) := by
  refine hr.invariant (P := fun _ s => (counterSystem c.slots ℕ).Reachable (s.counters c))
    (fun s hs => ?_) fun h s a s' _ hc _ hs => ?_
  · obtain rfl : s = .start opts := hs
    exact .of_init rfl
  · have hstep : ∀ t f act, (counterSystem c.slots ℕ).Reachable ((s.apply t f act).counters c) := by
      intro t f act
      rcases s.apply_counter t f act c with hsame | ⟨a, ha⟩
      · rwa [hsame]
      · exact hc.step ha
    rcases managerStep_cases hs with ⟨f, act, pc, -, -, rfl⟩ | ⟨act, pc, -, -, rfl⟩
    · exact hstep _ _ _
    · exact hstep _ _ _

end Counters

/-! ## Where the waits stand -/

section InHand

variable {k : CounterState ℕ} {a x : ℕ}

/-- A call that has an entry in hand is in progress. -/
theorem CounterCall.inProgress_of_inHand {b : BaseCounter} {call : CounterCall} {e : ReadyFiber}
    (he : e ∈ call.inHand b) : call.inProgress = true := by
  revert he
  fun_cases CounterCall.inHand b call <;> simp [CounterCall.inProgress]

/-- What a scan has claimed and not delivered, it has in hand. -/
theorem CounterInv.inHand_of_claimed (h : CounterInv k) (hmod : (k.calls x).isModify = true)
    (hx : a ∈ k.claims x) (hdel : ¬ k.Delivered a) :
    (k.calls a).entry ∈ (k.calls x).inHand k.ctr := by
  have hpush := h.pushes x
  rw [if_pos hmod] at hpush
  have hhand : (k.calls x).inHand k.ctr =
      ((k.claims x).drop (k.pushed x).length).map fun a => (k.calls a).entry := by
    rw [List.map_drop, ← hpush, List.drop_left]
  rw [hhand]
  apply List.mem_map_of_mem
  rw [← List.take_append_drop (k.pushed x).length (k.claims x), List.mem_append] at hx
  exact hx.resolve_left fun htake => hdel ⟨x, htake⟩

end InHand

/-- Where the wait of fiber `g` for the value `v` of counter `c` stands: the registration that call
`x` has made is in a slot of the counter, or a call in progress has claimed it and is about to push
its entry, or the entry is in one ready list. -/
def ManagerState.WaitStands (s : ManagerState) (c : CtrId) (x g : ℕ) (v : CounterUnit)
    (p : FlagPtr) : Prop :=
  (Pending (s.counters c) x ⟨g, v, p⟩ ∧ ∀ u, (g, p) ∉ s.ready u) ∨
  (¬ Pending (s.counters c) x ⟨g, v, p⟩ ∧
    (∃ y, x ∈ (s.counters c).claims y ∧
      (g, p) ∈ ((s.counters c).calls y).inHand (s.counters c).ctr) ∧ ∀ u, (g, p) ∉ s.ready u) ∨
  (¬ Pending (s.counters c) x ⟨g, v, p⟩ ∧ ∃! u, (g, p) ∈ s.ready u)

section Waits

variable {opts : ManagerOptions} {s : ManagerState} {g x : ℕ} {c : CtrId} {v : CounterUnit}
  {p : FlagPtr}

/-- A registration whose flag is not deleted stands in one of these ways. -/
theorem RecordInv.waitStands (hi : RecordInv s) (hm : ManagerInv s) (hp : s.flags p ≠ none)
    (hpg : s.flagFiber p = g) (hcall : s.flagCall p = some (c, x))
    (hret : (s.counters c).calls x = .addWaiting ⟨g, v, p⟩ (.returned false)) :
    s.WaitStands c x g v p := by
  have hentries := hm.flag.entries
  have hk := hentries.counters c
  by_cases hdel : (s.counters c).Delivered x
  · refine .inr (.inr ⟨?_, ?_⟩)
    · obtain ⟨y, -, hy⟩ := hk.claimed_of_delivered hdel
      exact hk.not_pending_of_claimed hy
    · obtain ⟨u, hu⟩ := hi.delivered p c x hp hcall hdel
      rw [hpg] at hu
      exact ⟨u, hu, fun w hw => hentries.apart w u g g p hw hu⟩
  · have hnot : ∀ u, (g, p) ∉ s.ready u := by
      intro u hu
      obtain ⟨-, -, c', x', hcall', hdel'⟩ := hentries.entry u g p hu
      obtain ⟨rfl, rfl⟩ : c = c' ∧ x = x' := by simpa using hcall.symm.trans hcall'
      exact hdel hdel'
    by_cases hun : ∀ y, x ∉ (s.counters c).claims y
    · exact .inl ⟨hk.pending_of_unclaimed hret rfl hun, hnot⟩
    · obtain ⟨y, hy⟩ := not_forall_not.mp hun
      refine .inr (.inl ⟨hk.not_pending_of_claimed hy, ⟨y, hy, ?_⟩, hnot⟩)
      -- it is not the call itself that has claimed it, or it would have returned `true`
      have hmod : ((s.counters c).calls y).isModify = true := by
        rcases hk.claims.claimer x y hy with hmod | rfl
        · exact hmod
        · have hown := (hk.claims.own x).mp hy
          rw [hret] at hown
          cases hown
      have hhand := hk.inHand_of_claimed hmod hy hdel
      simpa [CounterCall.entry, hret, CounterCall.registration, Registration.entry] using hhand

/-- The place is that of a fiber that is executed, or that is taken to be switched to. -/
def Place.taken : Place → Bool
  | .run _ | .thread _ | .fiber _ => true
  | .idle _ | .handoff _ | .stored _ => false

/-- A parked fiber that nobody has taken has its flag. -/
theorem LifetimeInv.flag_of_parked (hv : LifetimeInv s) (hm : ManagerInv s) {ctx : Ctx}
    {caller : Caller} (hpark : (s.fibers g).pc = .waitForCounter ctx caller c v (.parked p))
    {l : Place} (hl : s.holds l = some g) (htaken : l.taken = false) :
    s.flags p ≠ none ∧ s.flagFiber p = g := by
  have hflag : ∀ q, (s.fibers g).pc.waitFlag = some q → q = p := by
    intro q hq
    simpa [hpark, FiberPc.waitFlag, WaitPc.fiberStored, eq_comm] using hq
  have hfits := hv.fits l g hl
  cases l with
  | run | thread | fiber => cases htaken
  | idle =>
    -- a fiber of the pool has no wait
    rw [Place.Fits, hpark] at hfits
    cases hfits
  | handoff t =>
    have hwait : (s.tls t).previousFiberDestination = .waiting := by
      cases hd : (s.tls t).previousFiberDestination with
      | none =>
        simp only [ManagerState.holds, ManagerState.handedOff] at hl
        split at hl <;> simp [TLS.previous, hd] at hl
      | pool =>
        have hnone := hfits hd
        rw [hpark] at hnone
        cases hnone
      | waiting => rfl
    simp only [ManagerState.holds, ManagerState.handedOff] at hl
    split at hl
    · next f hrun =>
      simp only [Option.ite_none_right_eq_some] at hl
      obtain ⟨hpend, hprev⟩ := hl
      obtain ⟨hq, hqg⟩ := hm.flag.handoff t f hrun hpend hwait
      have hindex : (s.tls t).previousFiberIndex = g := by simpa [TLS.previous, hwait] using hprev
      have hsome := hv.during _ (by rw [hq]; simp)
      rw [hqg, hindex] at hsome
      rw [← hflag _ hsome]
      exact ⟨by rw [hq]; simp, hqg.trans hindex⟩
    · cases hl
  | stored q =>
    simp only [ManagerState.holds, Option.ite_none_right_eq_some, Option.some.injEq] at hl
    obtain ⟨hq, hqg⟩ := hl
    have hsome := hv.during q (by rw [hq]; simp)
    rw [hqg] at hsome
    rw [← hflag _ hsome]
    exact ⟨by rw [hq]; simp, hqg⟩

theorem recordInv_of_run {h : History ManagerState ManagerAction}
    (hr : (managerSystem opts).Run Orderly h s) : RecordInv s := by
  induction hr with
  | init hs =>
    obtain rfl := hs
    exact .start opts
  | step hr _ hs ih => exact ih.managerStep (managerInv_of_run hr) hs

theorem parkedInv_of_run {h : History ManagerState ManagerAction}
    (hr : (managerSystem opts).Run Orderly h s) : ParkedInv s := by
  induction hr with
  | init hs =>
    obtain rfl := hs
    exact .start opts
  | step hr _ hs ih => exact ih.step (managerInv_of_run hr) hs

/-- A parked fiber has been taken to go on, or its wait stands. -/
theorem takenOrStands_of_run {h : History ManagerState ManagerAction}
    (hr : (managerSystem opts).Run OrderlyUnrefused h s) (hg : g < opts.numFibers) {ctx : Ctx}
    {caller : Caller} (hpark : (s.fibers g).pc = .waitForCounter ctx caller c v (.parked p)) :
    (∃ l, l.taken = true ∧ s.holds l = some g) ∨
      (∀ l, l.taken = true → s.holds l ≠ some g) ∧ ∃ x,
        (s.counters c).calls x = .addWaiting ⟨g, v, p⟩ (.returned false) ∧
          s.WaitStands c x g v p := by
  obtain ⟨hm, hv⟩ := lifetimeInv_of_run hr
  have horderly : (managerSystem opts).Run Orderly h s := hr.mono fun _ _ _ hok => hok.1
  have hpool := poolInv_of_run horderly
  by_cases htaken : ∃ l, l.taken = true ∧ s.holds l = some g
  · exact .inl htaken
  · have hnot : ∀ l, s.holds l = some g → l.taken = false := by
      intro l hl
      by_contra hl'
      exact htaken ⟨l, by simpa using hl', hl⟩
    refine .inr ⟨fun l hl hplace => htaken ⟨l, hl, hplace⟩, ?_⟩
    -- the fiber is somewhere, since it has not left its thread for good
    obtain ⟨l, hl⟩ : ∃ l, s.holds l = some g := by
      refine (hpool.placed g hg).resolve_right fun hgone => ?_
      rcases FiberPc.stage_eq_gone.mp hgone with hpc | hpc <;> rw [hpark] at hpc <;> cases hpc
    obtain ⟨hp, hpg⟩ := hv.flag_of_parked hm hpark hl (hnot l hl)
    obtain ⟨x, hcall, hret⟩ := parkedInv_of_run horderly g ctx caller c v p hpark hp hpg
    exact ⟨x, hret, (recordInv_of_run horderly).waitStands hm hp hpg hcall hret⟩

/-- In every orderly run in which no wait is refused, a fiber of the pool that is parked in
`WaitForCounter` has been taken to go on; or nobody has taken it, and its registration, about which
`AddWaitingFiber` has returned `false`, is in a slot of the counter, or a call in progress has
claimed it and has its entry in hand, or the entry is in the ready list of one thread. -/
theorem parked_waiters {h : History ManagerState ManagerAction}
    (hr : (managerSystem opts).Run OrderlyUnrefused h s) (hg : g < opts.numFibers) {ctx : Ctx}
    {caller : Caller} (hpark : (s.fibers g).pc = .waitForCounter ctx caller c v (.parked p)) :
    (∃ l, l.taken = true ∧ s.holds l = some g) ∨
      (∀ l, l.taken = true → s.holds l ≠ some g) ∧ ∃ x,
        (s.counters c).calls x = .addWaiting ⟨g, v, p⟩ (.returned false) ∧
          s.WaitStands c x g v p :=
  takenOrStands_of_run hr hg hpark

/-- In every orderly run in which no wait is refused, whenever no fiber is in a call on a counter, a
fiber of the pool that is parked for a value of this counter has been taken to go on, or the counter
has another value and the registration is in a slot, or the entry is in one ready list: no fiber is
left waiting for the value that the counter has. -/
theorem reached_waiters {h : History ManagerState ManagerAction}
    (hr : (managerSystem opts).Run OrderlyUnrefused h s) (hg : g < opts.numFibers) {ctx : Ctx}
    {caller : Caller} (hpark : (s.fibers g).pc = .waitForCounter ctx caller c v (.parked p))
    (hquiet : ∀ f use x, (s.fibers f).pc ≠ .call use c x) :
    (∃ l, l.taken = true ∧ s.holds l = some g) ∨
      (s.value c ≠ v ∧ ∃ x, Pending (s.counters c) x ⟨g, v, p⟩) ∨ ∃! u, (g, p) ∈ s.ready u := by
  have hended : ∀ y, ((s.counters c).calls y).inProgress = false := by
    intro y
    by_contra hy
    obtain ⟨f, use, hf⟩ := callersInv_of_run hr c y (by simpa using hy)
    exact hquiet f use y hf
  rcases takenOrStands_of_run hr hg hpark with htaken | ⟨-, x, -, hstands⟩
  · exact .inl htaken
  rcases hstands with ⟨hpending, -⟩ | ⟨-, ⟨y, -, hhand⟩, -⟩ | ⟨-, hready⟩
  · refine .inr (.inl ⟨?_, x, hpending⟩)
    -- the slot would be in the care of a call
    rintro hvalue
    obtain ⟨i, hi, -, hfree, hslot⟩ := hpending
    obtain ⟨y, hy⟩ := (caredFor_of_reachable (counter_reachable hr c)).2 i hi
      ⟨hfree, by rw [hslot]⟩ (by rw [hslot]; exact hvalue.symm)
    have hprogress := CounterCall.inProgress_of_caresFor hy
    rw [hended y] at hprogress
    cases hprogress
  · have hprogress := CounterCall.inProgress_of_inHand hhand
    rw [hended y] at hprogress
    cases hprogress
  · exact .inr (.inr hready)

end Waits

/-! ## A run in which the main callback waits -/

/-- The main callback waits for its job, and nobody has executed the job. -/
theorem parked_waiters_main :
    ∃ h s, (managerSystem oneWorker).Run OrderlyUnrefused h s ∧
      (s.fibers 0).pc = .waitForCounter .main (.single 0) (.tiny 0) 0 (.parked 1) ∧
      ((∃ l, l.taken = true ∧ s.holds l = some 0) ∨
        (∀ l, l.taken = true → s.holds l ≠ some 0) ∧ ∃ x,
          (s.counters (.tiny 0)).calls x = .addWaiting ⟨0, 0, 1⟩ (.returned false) ∧
            s.WaitStands (.tiny 0) x 0 0 1) := by
  have hrun : ∃ (h : History ManagerState ManagerAction) (s : ManagerState),
      (managerSystem oneWorker).Run OrderlyUnrefused h s ∧
        (s.fibers 0).pc = .waitForCounter .main (.single 0) (.tiny 0) 0 (.parked 1) :=
    System.exists_run_of_trace_by (managerStepEval_eq _) rfl (mainWaitsFor .normal)
      (by decide +kernel)
  obtain ⟨h, s, hr, hpark⟩ := hrun
  exact ⟨h, s, hr, hpark, parked_waiters hr (by decide) hpark⟩

/-- Fiber 1 has executed the job, and the main callback is ready. -/
theorem reached_waiters_main :
    ∃ h s, (managerSystem oneWorker).Run OrderlyUnrefused h s ∧ s.value (.tiny 0) = 0 ∧
      ((∃ l, l.taken = true ∧ s.holds l = some 0) ∨ ∃! u, (0, 1) ∈ s.ready u) := by
  have hrun : ∃ (h : History ManagerState ManagerAction) (s : ManagerState),
      (managerSystem oneWorker).Run OrderlyUnrefused h s ∧
        ((s.fibers 0).pc = .waitForCounter .main (.single 0) (.tiny 0) 0 (.parked 1) ∧
          (s.fibers 1).pc = .loop ∧ (s.fibers 2).pc = .start ∧
          (s.counters (.tiny 0)).ctr.counter = 0) ∧
        ∀ e ∈ h, ∀ f ∈ e.1.running e.2.thread, f < 3 :=
    System.exists_run_of_trace_by (managerStepEval_eq _) rfl
      (mainWaitsFor .normal ++ threadSteps 0 4 ++ executeJob 0)
      (by decide +kernel)
  obtain ⟨h, s, hr, ⟨hpark, hone, htwo, hvalue⟩, hlt⟩ := hrun
  have hquiet : ∀ f use x, (s.fibers f).pc ≠ .call use (.tiny 0) x := by
    intro f use x hf
    rcases Nat.lt_or_ge f 3 with hf3 | hf3
    · obtain rfl | rfl | rfl : f = 0 ∨ f = 1 ∨ f = 2 := by omega
      · rw [hpark] at hf
        cases hf
      · rw [hone] at hf
        cases hf
      · rw [htwo] at hf
        cases hf
    · rw [startedBelow_of_run hr hlt f hf3] at hf
      cases hf
  refine ⟨h, s, hr, hvalue, ?_⟩
  exact (reached_waiters hr (by decide) hpark hquiet).imp_right fun hor =>
    hor.resolve_left fun hne => hne.1 hvalue

end NomadTasks
