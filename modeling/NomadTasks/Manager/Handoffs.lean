import NomadTasks.Manager.Exclusive

/-!
# Every hand-off is performed by the next fiber on its thread

A fiber that leaves its thread writes a hand-off into the thread's `TLS`. The log of the hand-offs
of a thread is in order when each one that is written is followed by the switch of the thread, and
then by the `CleanupPreviousFiber` of the fiber that it has switched to, before the next is written.

* `HandoffPhase`, `handoffPhase`: the logs that are in order.
* `handoffs_in_order`: in every orderly run the log of every thread is, a hand-off that is not
  performed yet is still in the `TLS`, and the fiber that the thread has switched to performs it.
* `handoff_taken`: a `GetNextJob` that is resumed on another thread takes a hand-off of the
  thread that has called it.
-/

namespace NomadTasks

open Transition

/-! ## Logs in order -/

/-- What has become of the last hand-off of a thread. -/
inductive HandoffPhase
  /-- It is performed, or there has been none. -/
  | none
  /-- It is written, and the thread has not switched yet. -/
  | written (h : Handoff)
  /-- The thread has switched to fiber `f`, which has to perform it. -/
  | switched (h : Handoff) (f : ℕ)
  deriving DecidableEq

/-- The phase of thread `t` after an event; `none` when the event is out of order. -/
def HandoffPhase.next (t : ℕ) (phase : HandoffPhase) : HandoffEvent → Option HandoffPhase
  | .written τ h =>
      if τ = t then
        match phase, h with
        | .none, some h => some (.written h)
        | _, _ => Option.none
      else some phase
  | .switchedTo u f =>
      if u = t then
        match phase with
        | .none => some .none
        | .written h => some (.switched h f)
        | .switched _ _ => Option.none
      else some phase
  | .consumed τ u f h =>
      if τ = t then
        match phase with
        | .switched h' g => if u = t ∧ f = g ∧ h = some h' then some .none else Option.none
        | _ => Option.none
      else some phase

/-- The phase of thread `t` after a log; `none` when the log is out of order. -/
def handoffPhase (t : ℕ) (log : List HandoffEvent) : Option HandoffPhase :=
  log.foldlM (fun phase e => phase.next t e) HandoffPhase.none

theorem handoffPhase_append (t : ℕ) (log events : List HandoffEvent) :
    handoffPhase t (log ++ events) =
      (handoffPhase t log).bind fun phase =>
        events.foldlM (fun phase e => phase.next t e) phase :=
  List.foldlM_append ..

/-- The thread whose hand-off an event is about. -/
def HandoffEvent.owner : HandoffEvent → ℕ
  | .written τ _ | .consumed τ _ _ _ => τ
  | .switchedTo u _ => u

/-- Events about other threads do not count. -/
theorem HandoffPhase.next_other {t : ℕ} {e : HandoffEvent} (he : e.owner ≠ t)
    (phase : HandoffPhase) : phase.next t e = some phase := by
  cases e <;> simp_all [HandoffPhase.next, HandoffEvent.owner]

theorem handoffPhase_other {t : ℕ} {events : List HandoffEvent}
    (he : ∀ e ∈ events, e.owner ≠ t) (log : List HandoffEvent) :
    handoffPhase t (log ++ events) = handoffPhase t log := by
  rw [handoffPhase_append]
  have hsame : ∀ phase : HandoffPhase,
      events.foldlM (fun phase e => phase.next t e) phase = some phase := by
    intro phase
    induction events with
    | nil => rfl
    | cons e events ih =>
      rw [List.foldlM_cons, HandoffPhase.next_other (he e List.mem_cons_self)]
      exact ih fun e' he' => he e' (List.mem_cons_of_mem _ he')
  simp only [hsame]
  cases handoffPhase t log <;> rfl

/-- No thread performs another thread's hand-off in a log in order. -/
theorem handoffPhase_taken {t u f : ℕ} {held : Option Handoff} {log : List HandoffEvent}
    (hlast : log.getLast? = some (.consumed t u f held)) (hut : u ≠ t) :
    handoffPhase t log = none := by
  obtain ⟨front, rfl⟩ := List.getLast?_eq_some_iff.mp hlast
  rw [handoffPhase_append]
  cases handoffPhase t front with
  | none => rfl
  | some phase => cases phase <;> simp [HandoffPhase.next, hut]

/-! ## What the stages say about the log -/

/-- The phase of the thread of fiber `f` at each stage; `held` is the hand-off in its `TLS`. -/
def Stage.phase (f : ℕ) (held : Option Handoff) : Stage → HandoffPhase
  | .received | .receivedPool | .receivedWaiting =>
      match held with
      | some h => .switched h f
      | none => .none
  | .written _ | .leaving _ _ =>
      match held with
      | some h => .written h
      | none => .none
  | _ => .none

/-- Without a hand-off in the `TLS` the thread is in no phase. -/
theorem Stage.phase_none (f : ℕ) (st : Stage) : st.phase f none = .none := by
  cases st <;> rfl

namespace ManagerState

/-- The phase of thread `t`. -/
def phase (s : ManagerState) (t : ℕ) : HandoffPhase :=
  match s.running t with
  | some f => (s.stage f).phase f (s.tls t).handoff
  | none => .none

end ManagerState

/-- The events that an act appends to the log. -/
def Act.events (s : ManagerState) (t f : ℕ) : Act → List HandoffEvent
  | .storeIdle τ | .storeStored τ => [.consumed τ t f (s.tls τ).handoff]
  | .writeTls τ w => if w.completes then [.written τ ((s.tls τ).write w).handoff] else []
  | .switchTo _ g => [.switchedTo t g]
  | _ => []

theorem apply_handoffs (s : ManagerState) (t f : ℕ) (act : Act) :
    (s.apply t f act).handoffs = s.handoffs ++ act.events s t f := by
  cases act with
  | endWait caller | throwThrough caller => cases caller <;> simp [ManagerState.apply, Act.events]
  | _ => simp [ManagerState.apply, Act.events]

/-- A step of fiber `f` on thread `t` takes the log from the phase of its stage to that of the next
one, where `tls'` is the `TLS` after the step. -/
theorem StageStep.phase_next {s : ManagerState} {t f : ℕ} {st st' : Stage} {r r' : Option ℕ}
    {act : Act} (h : StageStep s t (s.tls t) st r act st' r') (hat : (s.tls t).AtStage f st)
    (hswitch : act.localTo t = true) :
    (act.events s t f).foldlM (fun phase e => HandoffPhase.next t phase e)
        (st.phase f (s.tls t).handoff) =
      some (st'.phase f ((s.apply t f act).tls t).handoff) := by
  cases h with
  | quiet hact hst =>
    have hevents : act.events s t f = [] := by
      cases act <;> first | rfl | cases hact
    obtain ⟨hcore, -⟩ := OwnInv.quiet_apply (s := s) hact t f
    have hsame : ((s.apply t f act).tls t).handoff = (s.tls t).handoff := by
      rw [← TLS.handoff_core, hcore, TLS.handoff_core]
    rw [hevents, hsame]
    rfl
  | newStored | deleteStored | cleanup | setPrevious | setWaiting | mainSetCurrent => rfl
  | erase => rfl
  | nothing hd =>
    have hnone : (s.tls t).handoff = none := by simp [TLS.handoff, hd]
    simp [Act.events, Stage.phase, hnone]
  | pool | waitingStored => rfl
  -- the clean-up performs the hand-off that the `TLS` holds
  | storeIdle | storeStored =>
    have hheld : (s.tls t).handoff.isSome = true := by simp [TLS.handoff, hat.2]
    obtain ⟨h, hh⟩ := Option.isSome_iff_exists.mp hheld
    simp [Act.events, Stage.phase, HandoffPhase.next, hh]
  -- the last of the writes completes the hand-off
  | setPool | setStored =>
    simp only [Act.events, TlsWrite.completes, if_true, List.foldlM_cons, List.foldlM_nil]
    simp [Stage.phase, HandoffPhase.next, ManagerState.apply, TLS.write, TLS.handoff, hat.2.1]
  | take hg hst => rfl
  | @setCurrent p g =>
    have hsame : ((s.tls t).write (.currentFiberIndex g)).handoff = (s.tls t).handoff := rfl
    simp [Act.events, TlsWrite.completes, Stage.phase, ManagerState.apply, hsame]
  | switchTo | mainSwitchTo | switchBack => cases hswitch

/-! ## Runs -/

/-- The log of every thread is in the phase that the thread's program point says. -/
def LogInv (s : ManagerState) : Prop := ∀ t, handoffPhase t s.handoffs = some (s.phase t)

namespace LogInv

variable {opts : ManagerOptions} {s s' : ManagerState} {t f : ℕ}

/-- A step of thread `t` that appends events about `t` only, and leaves the other threads as they
were, has to be checked for `t`. -/
private theorem of_step (hl : LogInv s) (t : ℕ) (events : List HandoffEvent)
    (hlog : s'.handoffs = s.handoffs ++ events) (howner : ∀ e ∈ events, e.owner = t)
    (hother : ∀ u, u ≠ t → s'.phase u = s.phase u)
    (hself : events.foldlM (fun phase e => HandoffPhase.next t phase e) (s.phase t) =
      some (s'.phase t)) : LogInv s' := by
  intro u
  rw [hlog]
  by_cases hut : u = t
  · subst hut
    rw [handoffPhase_append, hl u, Option.bind_some, hself]
  · rw [handoffPhase_other fun e he heu => hut (heu.symm.trans (howner e he)), hl u, hother u hut]

/-- A thread that goes on with what it has executed, with the same hand-off, is in the same phase.
-/
private theorem phase_congr {u : ℕ} (hrun : s'.running u = s.running u)
    (hstage : ∀ g, s.running u = some g → s'.stage g = s.stage g)
    (hheld : (s'.tls u).handoff = (s.tls u).handoff) : s'.phase u = s.phase u := by
  rw [ManagerState.phase, ManagerState.phase, hrun]
  cases hu : s.running u with
  | none => rfl
  | some g => simp only [hstage g hu, hheld]

/-- The events of a step of a fiber are about its thread. -/
theorem owner_of_events {act : Act} (hlocal : act.localTo t = true)
    (hstored : ∀ τ, act = .storeIdle τ ∨ act = .storeStored τ → τ = t) :
    ∀ e ∈ act.events s t f, e.owner = t := by
  intro e he
  cases act with
  | storeIdle τ | storeStored τ =>
    obtain rfl : e = _ := List.mem_singleton.mp he
    exact hstored τ (by simp)
  | writeTls τ w =>
    obtain rfl : τ = t := by simpa [Act.localTo] using hlocal
    cases hw : w.completes <;> simp only [Act.events, hw] at he
    · cases he
    · obtain rfl : e = _ := List.mem_singleton.mp he
      rfl
  | switchTo => cases hlocal
  | _ => cases he

/-- Every step from a state of an orderly run keeps the logs in order. -/
theorem step (hl : LogInv s) (hi : ManagerInv s) {a : ManagerAction}
    (hs : managerStep opts s a = some s') : LogInv s' := by
  rcases managerStep_inv hs with
    ⟨f, pc, act, pc', hrun, rfl, h, rfl⟩ | ⟨pc, act, pc', hrun, rfl, h, rfl⟩
  · rw [hi.own.onThread a.thread f hrun] at h ⊢
    have hstage : StageStep s a.thread (s.tls a.thread) (s.stage f) (s.fibers f).pc.reserved act
      (pc'.stage (s.mainCallback f)) pc'.reserved := h.stageStep (hi.own.not_gone hrun)
    have hat := hi.own.atStage a.thread f hrun
    have hne : ∀ u g, u ≠ a.thread → s.running u = some g → g ≠ f :=
      fun u g hu hg hgf => hu (hi.own.run_unique (hgf ▸ hg) hrun)
    -- the fiber goes on, switches to `g`, or gives the thread back
    obtain ⟨-, hlocal | ⟨g, rfl, htarget, -⟩ | ⟨rfl, rfl⟩⟩ := h.switch_cases
    · have hls := LocalStep.of_apply (s := s) (f := f) pc' hlocal
      refine hl.of_step a.thread _ (apply_handoffs s a.thread f act)
        (owner_of_events hlocal fun τ hτ => ?_) (fun u hut => ?_) ?_
      · rcases hτ with rfl | rfl <;>
        · generalize (s.fibers f).pc = pc at h
          cases h
          rfl
      · refine phase_congr (by rw [hls.running]) (fun g hg => hls.stage_other (hne u g hut hg)) ?_
        rw [← TLS.handoff_core, hls.tls u hut, TLS.handoff_core]
      · have hphase : s.phase a.thread = (s.stage f).phase f (s.tls a.thread).handoff := by
          rw [ManagerState.phase, hrun]
        have hstage' : ((s.apply a.thread f act).setFiber f ⟨a.thread, pc'⟩).stage f =
            pc'.stage (s.mainCallback f) := by
          rw [ManagerState.stage, hls.fibers, hls.mainCallback, Function.update_self]
        rw [hphase, StageStep.phase_next hstage hat hlocal, ManagerState.phase, hls.running, hrun]
        simp only [hstage', ManagerState.setFiber_tls]
    · have hplace : s.holds (.fiber f) = some g := FiberPc.reserved_of_switchTarget htarget
      -- the fiber that is switched to is reserved, so that no thread executes it
      have hgf : g ≠ f := by
        rintro rfl
        exact hi.own.not_running (l := .fiber g) rfl hplace hrun
      have hreceived := hi.own.received_of_holds (l := .fiber f) rfl (by simp) hplace
      refine hl.of_step a.thread [.switchedTo a.thread g] rfl (by simp [HandoffEvent.owner])
        (fun u hut => phase_congr (by simp [ManagerState.apply, hut]) (fun k hk => ?_) rfl) ?_
      · simp [ManagerState.stage, ManagerState.apply, hne u k hut hk]
      · have hafter : ((s.apply a.thread f (.switchTo a.thread g)).setFiber f
            ⟨a.thread, pc'⟩).phase a.thread = Stage.received.phase g (s.tls a.thread).handoff := by
          rw [← hreceived]
          simp [ManagerState.phase, ManagerState.stage, ManagerState.apply, hgf]
        rw [hafter, ManagerState.phase, hrun]
        simp only
        generalize s.stage f = st at hstage hat
        generalize (s.fibers f).pc.reserved = r at hstage
        generalize pc'.stage (s.mainCallback f) = st' at hstage
        generalize pc'.reserved = r' at hstage
        cases hstage with
        | quiet hact => cases hact
        | @switchTo p =>
          have hheld : ∃ h, (s.tls a.thread).handoff = some h := by
            cases p <;> exact ⟨_, hat.2⟩
          obtain ⟨h, hh⟩ := hheld
          simp [Stage.phase, HandoffPhase.next, hh]
        | mainSwitchTo =>
          have hheld : (s.tls a.thread).handoff = none := by simp [TLS.handoff, hat.2]
          simp [Stage.phase, HandoffPhase.next, hheld]
    · refine hl.of_step a.thread []
        ((apply_handoffs s a.thread f .switchBack).trans rfl) (by simp)
        (fun u hut => phase_congr (by simp [ManagerState.apply, hut]) (fun k hk => ?_) rfl) ?_
      · simp [ManagerState.stage, ManagerState.apply, hne u k hut hk]
      -- a fiber gives the thread back only with no hand-off under way
      · have hclear : s.stage f = .clear := by
          rw [ManagerState.stage]
          generalize (s.fibers f).pc = pc at h
          cases h
          rfl
        simp [ManagerState.phase, hrun, hclear, Stage.phase, ManagerState.apply]
  -- a thread that executes no fiber is in no phase
  · have hphase : s.phase a.thread = .none := by rw [ManagerState.phase, hrun]
    have hut : ∀ u k, s.running u = some k → u ≠ a.thread := by
      rintro u k hu rfl
      rw [hrun] at hu
      cases hu
    have hok := hi.own.ownCode a.thread hrun
    generalize hpc : s.threads a.thread = pc₀ at h
    rw [hpc] at hok
    cases h with
    | search | found =>
      refine hl.of_step a.thread [] (by simp [ManagerState.apply]) (by simp)
        (fun u hut => rfl) ?_
      rw [hphase]
      exact congrArg some hphase.symm
    | @setCurrentMain g | @setCurrentWorker g =>
      refine hl.of_step a.thread []
        (by simp [ManagerState.apply, TlsWrite.completes]) (by simp)
        (fun u hut => phase_congr rfl (fun _ _ => rfl) (by simp [ManagerState.apply, hut])) ?_
      rw [hphase]
      simp [ManagerState.phase, ManagerState.apply, hrun]
    | @setCallback g =>
      have hplace : s.holds (.thread a.thread) = some g := by
        simp [ManagerState.holds, hpc, ThreadPc.reserved]
      refine hl.of_step a.thread [] (by simp [ManagerState.apply]) (by simp)
        (fun u hut => phase_congr rfl (fun k hk => ?_) rfl) ?_
      · have hkg : k ≠ g := by
          rintro rfl
          exact hi.own.not_running (l := .thread a.thread) rfl hplace hk
        simp [ManagerState.stage, ManagerState.apply, hkg]
      · rw [hphase]
        simp [ManagerState.phase, ManagerState.apply, hrun]
    | @switchTo g =>
      refine hl.of_step a.thread [.switchedTo a.thread g] rfl (by simp [HandoffEvent.owner])
        (fun u hut => phase_congr (by simp [ManagerState.apply, hut]) (fun _ _ => rfl) rfl) ?_
      -- the own code of a thread leaves no hand-off in the `TLS`
      have hheld : (s.tls a.thread).handoff = none := by simp [TLS.handoff, hok.2]
      simp [HandoffPhase.next, ManagerState.phase, ManagerState.apply, hrun, hheld,
        Stage.phase_none]

end LogInv

/-! ## The fiber that is switched to performs the hand-off -/

/-- Thread `t` inevitably comes to the point where its fiber `f` has performed the hand-off `h`, and
nothing else has been logged since `log`. -/
def WillPerform (opts : ManagerOptions) (t f : ℕ) (h : Handoff) (log : List HandoffEvent)
    (s : ManagerState) : Prop :=
  (managerSystem opts).Inevitable (fun a => a.thread = t) (fun s' => s'.running t = some f)
    (fun s' => s'.handoffs = log ++ [.consumed t t f (some h)]) s

section Perform

variable {opts : ManagerOptions} {t f : ℕ} {h : Handoff} {log : List HandoffEvent}
  {s : ManagerState}

/-- A step that does not depend on the choice. -/
private theorem WillPerform.of_step (act : Act) (pc' : FiberPc) (hrun : s.running t = some f)
    (htls : (s.fibers f).currentTLS t = t)
    (hnext : ∀ choice, (s.fibers f).pc.next opts s f t choice = some (act, pc'))
    (hw : WillPerform opts t f h log ((s.apply t f act).setFiber f ⟨t, pc'⟩)) :
    WillPerform opts t f h log s := by
  refine System.Inevitable.of_step hrun ⟨⟨t, .succeed⟩, rfl⟩ (fun a ha => ?_) hw
  subst ha
  change managerStep opts s a = _
  simp only [managerStep, hrun, htls, hnext, Option.map_some]

/-- The two stores of `CleanupPreviousFiber`. -/
private theorem willPerform_store {pc : CleanupPc} {caller : CleanupCaller}
    (hpc : s.fibers f = ⟨t, .cleanup pc caller⟩) (hstore : pc = .storeIdle ∨ pc = .storeStored)
    (hrun : s.running t = some f) (hlog : s.handoffs = log)
    (hheld : (s.tls t).handoff = some h) : WillPerform opts t f h log s := by
  have htls : (s.fibers f).currentTLS t = t := by rw [hpc]; rfl
  rcases hstore with rfl | rfl
  · refine .of_step (.storeIdle t) (.cleanup .cleanup caller) hrun htls (fun _ => ?_) (.now ?_)
    · rw [hpc]
      rfl
    · simp [ManagerState.apply, hlog, hheld]
  · refine .of_step (.storeStored t) (.cleanup .cleanup caller) hrun htls (fun _ => ?_) (.now ?_)
    · rw [hpc]
      rfl
    · simp [ManagerState.apply, hlog, hheld]

/-- `CleanupPreviousFiber` performs what the `TLS` holds. -/
private theorem willPerform_destination {caller : CleanupCaller}
    (hpc : s.fibers f = ⟨t, .cleanup .destination caller⟩) (hrun : s.running t = some f)
    (hlog : s.handoffs = log) (hheld : (s.tls t).handoff = some h) :
    WillPerform opts t f h log s := by
  have htls : (s.fibers f).currentTLS t = t := by rw [hpc]; rfl
  cases hd : (s.tls t).previousFiberDestination with
  | none => simp [TLS.handoff, hd] at hheld
  | pool =>
    refine .of_step .none (.cleanup .storeIdle caller) hrun htls (fun _ => ?_)
      (willPerform_store (Function.update_self ..) (.inl rfl) hrun hlog hheld)
    simp [hpc, FiberPc.next, CleanupPc.next, hd]
  | waiting =>
    refine .of_step .none (.cleanup .storeStored caller) hrun htls (fun _ => ?_)
      (willPerform_store (Function.update_self ..) (.inr rfl) hrun hlog hheld)
    simp [hpc, FiberPc.next, CleanupPc.next, hd]

/-- A fiber that has been switched to performs the hand-off of its predecessor. -/
theorem willPerform_of_pending (hi : OwnInv s) (hrun : s.running t = some f)
    (hpend : (s.stage f).pending = true) (hheld : (s.tls t).handoff = some h) :
    WillPerform opts t f h s.handoffs s := by
  have htls := hi.onThread t f hrun
  obtain ⟨tls, pc, hfiber⟩ : ∃ tls pc, s.fibers f = ⟨tls, pc⟩ := ⟨_, _, rfl⟩
  rw [ManagerState.stage, hfiber] at hpend
  -- the points at which it has been switched to lead to the first step of the clean-up
  have hfirst : ∀ caller, (∀ choice, pc.next opts s f t choice =
      some (.none, .cleanup .destination caller)) → WillPerform opts t f h s.handoffs s :=
    fun caller hnext => .of_step .none (.cleanup .destination caller) hrun htls
      (by rwa [hfiber]) (willPerform_destination (Function.update_self ..) hrun rfl hheld)
  have hthread : pc.getsCurrentTLS = false → tls = t := fun hgets => by
    simpa [hfiber, FiberState.currentTLS, hgets] using htls
  cases pc with
  | start =>
    cases hmain : s.mainCallback f with
    | true => simp [FiberPc.stage, hmain, Stage.pending] at hpend
    | false => exact hfirst .worker fun _ => by simp [FiberPc.next, hmain]
  | cleanup pc caller =>
    obtain rfl := hthread rfl
    cases pc with
    | destination => exact willPerform_destination hfiber hrun rfl hheld
    | storeIdle => exact willPerform_store hfiber (.inl rfl) hrun rfl hheld
    | storeStored => exact willPerform_store hfiber (.inr rfl) hrun rfl hheld
    | cleanup => cases hpend
  | getNextJob pc =>
    cases pc with
    | parked => exact hfirst .getNextJob fun _ => rfl
    | _ => cases hpend
  | waitForCounter ctx caller c v pc =>
    cases pc with
    | parked p => exact hfirst (.waitForCounter ctx caller) fun _ => rfl
    | _ => cases hpend
  | _ => cases hpend

end Perform

/-! ## Hand-offs in every orderly run -/

/-- What the phase of thread `t` says about the state: a hand-off that is written is still in the
`TLS`, and if the thread has switched, its fiber performs it before the thread does anything else.
-/
def HandoffPhase.Ok (opts : ManagerOptions) (s : ManagerState) (t : ℕ) : HandoffPhase → Prop
  | .none => True
  | .written h => (s.tls t).handoff = some h
  | .switched h f => (s.tls t).handoff = some h ∧ WillPerform opts t f h s.handoffs s

/-- The log of every thread is in order, and no hand-off is lost. -/
def HandoffsInOrder (opts : ManagerOptions) (s : ManagerState) : Prop :=
  ∀ t, ∃ phase, handoffPhase t s.handoffs = some phase ∧ phase.Ok opts s t

/-- In every orderly run, each hand-off is performed by the next fiber on its thread, before the
thread writes another one. -/
theorem handoffs_in_order {opts : ManagerOptions} {h : History ManagerState ManagerAction}
    {s : ManagerState} (hr : (managerSystem opts).Run Orderly h s) : HandoffsInOrder opts s := by
  have hi := managerInv_of_run hr
  -- the invariant of the manager carries that of the log
  have hl : LogInv s := by
    have hboth : ManagerInv s ∧ LogInv s := by
      refine hr.invariant (P := fun _ s => ManagerInv s ∧ LogInv s) (fun s hs => ?_)
        fun _ _ _ _ _ hboth hok hs =>
          ⟨hboth.1.step hok.1 hok.2.1 hs, hboth.2.step hboth.1 hs⟩
      obtain rfl : s = .start opts := hs
      exact ⟨.start opts, fun _ => rfl⟩
    exact hboth.2
  refine fun t => ⟨s.phase t, hl t, ?_⟩
  rw [ManagerState.phase]
  cases hrun : s.running t with
  | none => trivial
  | some f =>
    simp only
    cases hheld : (s.tls t).handoff with
    | none =>
      rw [Stage.phase_none]
      trivial
    | some h =>
      -- a pending hand-off is performed by the fiber; the other stages hold none
      cases hst : s.stage f with
      | received | receivedPool | receivedWaiting =>
        exact ⟨hheld, willPerform_of_pending hi.own hrun (by rw [hst]; rfl) hheld⟩
      | written | leaving => exact hheld
      | _ => trivial

theorem handoffs_in_order_resumed :
    ∃ h s, (managerSystem twoWorkers).Run Orderly h s ∧
      s.handoffs.getLast? = some (.consumed 0 0 0 (some (.pool 1))) ∧
        HandoffsInOrder twoWorkers s := by
  obtain ⟨h, s, hr, -, -, hlast⟩ := exists_mainResumes
  exact ⟨h, s, hr, hlast, handoffs_in_order hr⟩

/-- The main callback has written its hand-off into the `TLS` of thread 0 and looks for a free
fiber, when fiber 1, resumed on thread 1 inside the `GetNextJob` that it has called on thread 0,
performs the hand-off. -/
theorem handoff_taken :
    ∃ s, (managerSystem twoWorkers).Reachable s ∧ s.running 0 = some 0 ∧
      s.handoffs.getLast? = some (.consumed 0 1 1 (some (.waiting 0 1))) ∧
        ¬ HandoffsInOrder twoWorkers s := by
  have hrun : ∃ (h : History ManagerState ManagerAction) (s : ManagerState),
      (managerSystem twoWorkers).Run (fun _ _ _ => True) h s ∧ s.running 0 = some 0 ∧
        s.handoffs.getLast? = some (.consumed 0 1 1 (some (.waiting 0 1))) :=
    System.exists_run_of_trace_by (managerStepEval_eq _) rfl
      (mainResumes ++ waitsAgain ++ threadSteps 1 3)
      (by decide +kernel)
  obtain ⟨h, s, hr, hmain, hlast⟩ := hrun
  refine ⟨s, hr.reachable, hmain, hlast, fun hall => ?_⟩
  obtain ⟨phase, hsome, -⟩ := hall 0
  rw [handoffPhase_taken hlast (by decide)] at hsome
  cases hsome

end NomadTasks
