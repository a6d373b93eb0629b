import NomadTasks.Manager.Orderly

/-!
# `GetNextJob` and the queues

Which queue a call of `GetNextJob` is about to poll, which ones it has found empty before, and what
a step does to the queues and to the fiber that a thread executes.

* `managerAct`: what a step does.
* `FiberPc.polls`, `FiberPc.polled`, `FiberPc.unpolled`: the queues and the program points.
* `lastTaken`: the queue from which a fiber has taken its last job.
* `RestInv`: a fiber that no thread executes is at rest.
-/

namespace NomadTasks

open Transition

/-! ## What a step does -/

/-- What the step does. -/
def managerAct (opts : ManagerOptions) (s : ManagerState) (a : ManagerAction) : Option Act :=
  match s.running a.thread with
  | some f =>
      ((s.fibers f).pc.next opts s f ((s.fibers f).currentTLS a.thread) a.choice).map Prod.fst
  | none => ((s.threads a.thread).next opts s a.thread a.choice).map Prod.fst

/-- What a step of the manager is, by the lists of the steps, and what it does. -/
theorem managerStep_act {opts : ManagerOptions} {s s' : ManagerState} {a : ManagerAction}
    (h : managerStep opts s a = some s') :
    (∃ f act pc', s.running a.thread = some f ∧ managerAct opts s a = some act ∧
      FiberStep opts s f ((s.fibers f).currentTLS a.thread) (s.fibers f).pc act pc' ∧
      s' = (s.apply a.thread f act).setFiber f ⟨(s.fibers f).currentTLS a.thread, pc'⟩) ∨
    ∃ act pc', s.running a.thread = none ∧ managerAct opts s a = some act ∧
      ThreadStep s a.thread (s.threads a.thread) act pc' ∧
      s' = (s.apply a.thread noFiber act).setThread a.thread pc' := by
  rcases managerStep_cases h with ⟨f, act, pc', hrun, hn, rfl⟩ | ⟨act, pc', hrun, hn, rfl⟩
  · exact .inl ⟨f, act, pc', hrun, by simp [managerAct, hrun, hn], fiberStep_of_next hn, rfl⟩
  · exact .inr ⟨act, pc', hrun, by simp [managerAct, hrun, hn], threadStep_of_next hn, rfl⟩

namespace Act

/-- The step changes which fiber its thread executes. -/
def moves : Act → Bool
  | .switchTo .. | .switchBack => true
  | _ => false

/-- The queue that a job is taken from. -/
def dequeues : Act → Option JobPriority
  | .dequeue prio => some prio
  | _ => Option.none

theorem dequeues_eq_some {act : Act} {prio : JobPriority} :
    act.dequeues = some prio ↔ act = .dequeue prio := by
  cases act <;> simp [dequeues]

end Act

/-- Other acts leave the threads where they are. -/
theorem ManagerState.apply_running {s : ManagerState} {t f : ℕ} {act : Act}
    (hact : act.moves = false) : (s.apply t f act).running = s.running := by
  cases act with
  | switchTo | switchBack => cases hact
  | endWait caller | throwThrough caller => cases caller <;> rfl
  | _ => rfl

@[simp] theorem ManagerState.apply_switchTo_running (s : ManagerState) (t f tls g : ℕ) :
    (s.apply t f (.switchTo tls g)).running t = some g :=
  Function.update_self ..

@[simp] theorem ManagerState.apply_switchBack_running (s : ManagerState) (t f : ℕ) :
    (s.apply t f .switchBack).running t = none :=
  Function.update_self ..

/-- The threads after an act: only `SwitchBack` changes one. -/
theorem ManagerState.apply_threads (s : ManagerState) (t f : ℕ) (act : Act) (u : ℕ) :
    (s.apply t f act).threads u = s.threads u ∨ (s.apply t f act).threads u = .returned := by
  cases act with
  | switchBack =>
    by_cases hu : u = s.returnFiber f
    · subst hu
      exact .inr (Function.update_self ..)
    · exact .inl (Function.update_of_ne hu ..)
  | endWait caller | throwThrough caller => cases caller <;> exact .inl rfl
  | _ => exact .inl rfl

/-- A switch sets `_returnFiber` of the fiber that its thread goes on with, and of no other. -/
theorem ManagerState.apply_returnFiber {s : ManagerState} {t f u k : ℕ} {act : Act}
    (hk : (s.apply t f act).running u = some k) :
    s.running u = some k ∧ (s.apply t f act).returnFiber k = s.returnFiber k ∨
      ∃ tls, act = .switchTo tls k ∧ (s.apply t f act).returnFiber k = tls ∧
        (u = t ∨ s.running u = some k) := by
  cases act with
  | switchTo tls g =>
    by_cases hut : u = t
    · subst hut
      obtain rfl : g = k := Option.some.inj ((s.apply_switchTo_running u f tls g).symm.trans hk)
      exact .inr ⟨tls, rfl, Function.update_self .., .inl rfl⟩
    · have hold : s.running u = some k := by rwa [ManagerState.apply_running_of_ne hut] at hk
      by_cases hkg : k = g
      · subst hkg
        exact .inr ⟨tls, rfl, Function.update_self .., .inr hold⟩
      · exact .inl ⟨hold, Function.update_of_ne hkg ..⟩
  | switchBack =>
    have hut : u ≠ t := by
      rintro rfl
      cases (s.apply_switchBack_running u f).symm.trans hk
    exact .inl ⟨by rwa [ManagerState.apply_running_of_ne hut] at hk, rfl⟩
  | endWait caller | throwThrough caller => cases caller <;> exact .inl ⟨hk, rfl⟩
  | _ => exact .inl ⟨hk, rfl⟩

/-- A thread that has returned stays so. -/
theorem apply_threads_of_returned {s : ManagerState} {t f u : ℕ} {act : Act}
    (hu : s.threads u = .returned) : (s.apply t f act).threads u = .returned := by
  rcases s.apply_threads t f act u with hsame | hret
  · exact hsame.trans hu
  · exact hret

/-- Which queue an act changes. -/
theorem ManagerState.apply_jobs {s : ManagerState} {t f : ℕ} {act : Act} {prio : JobPriority}
    (henqueue : ∀ job, act ≠ .enqueue prio job) (hdequeue : act ≠ .dequeue prio) :
    (s.apply t f act).jobs prio = s.jobs prio := by
  cases act with
  | enqueue p job =>
    have hp : prio ≠ p := fun hp => henqueue job (by rw [hp])
    exact Function.update_of_ne hp ..
  | dequeue p =>
    have hp : prio ≠ p := fun hp => hdequeue (by rw [hp])
    exact Function.update_of_ne hp ..
  | endWait caller | throwThrough caller => cases caller <;> rfl
  | _ => rfl

/-! ## The polls of `GetNextJob` -/

namespace FiberPc

/-- The queue that the next step polls. -/
def polls : FiberPc → Option JobPriority
  | .getNextJob .dequeueIo => some .io
  | .getNextJob .dequeueHigh => some .high
  | .getNextJob .dequeueNormal => some .normal
  | .getNextJob .dequeueLow => some .low
  | _ => none

/-- The queues that the call of `GetNextJob` in progress has polled without finding a job. -/
def polled : FiberPc → List JobPriority
  | .getNextJob .isIo | .getNextJob .dequeueIo | .getNextJob .dequeueHigh => []
  | .getNextJob .dequeueLow => [.high, .normal]
  | .getNextJob _ | .cleanup _ .getNextJob => [.high]
  | _ => []

/-- The queues that the call has still to poll after the High priority queue. -/
def unpolled : FiberPc → List JobPriority
  | .getNextJob .isIo | .getNextJob .dequeueIo | .getNextJob .dequeueHigh => []
  | .getNextJob .dequeueLow => [.low]
  | .getNextJob _ | .cleanup _ .getNextJob => [.normal, .low]
  | _ => []

/-- In `GetNextJob`, after the test of `_isIO` has failed. -/
def notIo : FiberPc → Bool
  | .getNextJob .isIo | .getNextJob .dequeueIo => false
  | .getNextJob _ | .cleanup _ .getNextJob => true
  | _ => false

/-- Where a fiber is when no thread executes it. -/
def atRest : FiberPc → Bool
  | .start | .getNextJob .parked | .waitForCounter _ _ _ _ (.parked _) | .mainParked | .ended =>
      true
  | _ => false

/-- The point of `GetNextJob` at which a queue is polled. -/
def pollOf : JobPriority → NextJobPc
  | .io => .dequeueIo
  | .high => .dequeueHigh
  | .normal => .dequeueNormal
  | .low => .dequeueLow

/-- Each queue is polled at one point only. -/
theorem eq_of_polls {pc : FiberPc} {prio : JobPriority} (h : pc.polls = some prio) :
    pc = .getNextJob (pollOf prio) := by
  revert h
  fun_cases FiberPc.polls pc <;> rintro ⟨⟩ <;> rfl

/-- A fiber at rest is in `GetNextJob` only where it is parked. -/
theorem notIo_of_atRest {pc : FiberPc} (hrest : pc.atRest = true)
    (hpc : pc ≠ .getNextJob .parked) : pc.notIo = false := by
  revert hrest hpc
  fun_cases FiberPc.atRest pc <;> simp_all [FiberPc.notIo]

end FiberPc

section FiberStep

variable {opts : ManagerOptions} {s : ManagerState} {t f tls : ℕ} {act : Act} {pc pc' : FiberPc}

/-- A job is executed after it has been taken from the queue that was polled. -/
theorem FiberStep.taken (h : FiberStep opts s f tls pc act pc') :
    (∃ job, pc' = .execute job) ↔ ∃ prio, act = .dequeue prio := by
  cases h <;> simp

/-- What is taken comes from the queue that is polled. -/
theorem FiberStep.polls_of_dequeue (h : FiberStep opts s f tls pc act pc') {prio : JobPriority}
    (hact : act = .dequeue prio) : pc.polls = some prio ∧ s.jobs prio ≠ [] := by
  cases h with
  | dequeueIo hj | dequeueHigh hj | dequeueNormal hj | dequeueLow hj =>
    cases hact
    exact ⟨rfl, by simp [hj]⟩
  | «begin» => simp at hact
  | _ => cases hact

/-- `GetNextJob` begins with the test of `_isIO`, on the thread that the worker loop runs on. -/
theorem FiberStep.isIo_cases (h : FiberStep opts s f tls pc act pc') :
    (pc' = .getNextJob .isIo → pc = .loop) ∧
      (pc' = .getNextJob .dequeueIo → pc = .getNextJob .isIo ∧ opts.isIo tls = true) ∧
      (pc'.notIo = true → pc.notIo = true ∨ pc = .getNextJob .isIo ∧ opts.isIo tls = false) := by
  cases h with
  | isIo hio | isNotIo hio => simp_all [FiberPc.notIo]
  | @previousPool k | @previousWaiting k | @storeIdle k | @storeStored k =>
    cases k <;> simp [FiberPc.notIo]
  | _ => simp [FiberPc.notIo]

/-- A step of a fiber stays on its thread, or switches to another fiber, or back to the thread. A
fiber that is left is at rest. -/
theorem FiberStep.moves_cases (h : FiberStep opts s f tls pc act pc') :
    act.moves = false ∨
      (∃ g, act = .switchTo tls g ∧ pc.switchTarget = some g ∧ pc'.atRest = true) ∨
      (act = .switchBack ∧ pc'.atRest = true) := by
  cases h with
  | nextSwitchTo | waitSwitchTo | mainSwitchTo => exact .inr (.inl ⟨_, rfl, rfl, rfl⟩)
  | switchBack => exact .inr (.inr ⟨rfl, rfl⟩)
  | _ => exact .inl rfl

end FiberStep

/-- A step of a thread's own code stays there, or switches to a fiber. -/
theorem ThreadStep.moves_cases {s : ManagerState} {t : ℕ} {act : Act} {pc pc' : ThreadPc}
    (h : ThreadStep s t pc act pc') :
    act.moves = false ∨ ∃ g, act = .switchTo t g ∧ pc.switchTarget = some g := by
  cases h with
  | switchTo => exact .inr ⟨_, rfl, rfl⟩
  | _ => exact .inl rfl

/-- The own code of a thread does nothing to the queues. -/
theorem ThreadStep.keepsJobs {s : ManagerState} {t : ℕ} {act : Act} {pc pc' : ThreadPc}
    (h : ThreadStep s t pc act pc') : (∀ prio job, act ≠ .enqueue prio job) ∧
      ∀ prio, act ≠ .dequeue prio := by
  cases h <;> simp

/-- The queue from which fiber `f` has taken its last job. -/
def lastTaken (opts : ManagerOptions) (f : ℕ) :
    History ManagerState ManagerAction → Option JobPriority
  | [] => none
  | (s, a) :: h =>
      match managerAct opts s a with
      | some (.dequeue prio) =>
          if s.running a.thread = some f then some prio else lastTaken opts f h
      | _ => lastTaken opts f h

section LastTaken

variable {opts : ManagerOptions} {s : ManagerState} {a : ManagerAction} {f : ℕ}
  {h : History ManagerState ManagerAction}

theorem lastTaken_dequeue {prio : JobPriority} (hact : managerAct opts s a = some (.dequeue prio))
    (hrun : s.running a.thread = some f) : lastTaken opts f ((s, a) :: h) = some prio := by
  simp [lastTaken, hact, hrun]

theorem lastTaken_other (hrun : s.running a.thread ≠ some f) :
    lastTaken opts f ((s, a) :: h) = lastTaken opts f h := by
  rw [lastTaken]
  split
  · rw [if_neg hrun]
  · rfl

end LastTaken

/-! ## Fibers at rest -/

/-- What a step of a thread does to the fibers that the threads execute: the thread stays where it
is, or it leaves its fiber at rest and the queues as they are, and goes back to its own code or on
to its switch target. -/
structure StepMoves (s s' : ManagerState) (t : ℕ) (target : Option ℕ) : Prop where
  others : ∀ u, u ≠ t → s'.running u = s.running u
  fibers : ∀ g, s.running t ≠ some g → s'.fibers g = s.fibers g
  move : s'.running t = s.running t ∨
    (∀ f, s.running t = some f → (s'.fibers f).pc.atRest = true) ∧ s'.jobs = s.jobs ∧
      (s'.running t = none ∨ ∃ g, target = some g ∧ s'.running t = some g)

/-- Every step of the manager moves its thread like that. -/
theorem managerStep_moves {opts : ManagerOptions} {s s' : ManagerState} {a : ManagerAction}
    (hs : managerStep opts s a = some s') :
    StepMoves s s' a.thread (s.switchTarget a.thread) := by
  rcases managerStep_inv hs with
    ⟨f, pc, act, pc', hrun, rfl, h, rfl⟩ | ⟨pc, act, pc', hrun, rfl, h, rfl⟩
  · have hfibers : ∀ g, s.running a.thread ≠ some g →
        ((s.apply a.thread f act).setFiber f ⟨(s.fibers f).currentTLS a.thread, pc'⟩).fibers g =
          s.fibers g := by
      intro g hg
      have hgf : g ≠ f := fun hgf => hg (by rw [hrun, hgf])
      simp [hgf]
    have hleft : pc'.atRest = true → ∀ f', s.running a.thread = some f' →
        (((s.apply a.thread f act).setFiber f
          ⟨(s.fibers f).currentTLS a.thread, pc'⟩).fibers f').pc.atRest = true := by
      intro hrest f' hf'
      obtain rfl : f = f' := Option.some.inj (hrun.symm.trans hf')
      simpa using hrest
    -- no switch, a switch to the target of the fiber, or a switch back
    rcases h.moves_cases with hstay | ⟨g, rfl, htarget, hrest⟩ | ⟨rfl, hrest⟩
    · refine ⟨fun u _ => ?_, hfibers, .inl ?_⟩ <;>
        rw [ManagerState.setFiber_running, s.apply_running hstay]
    · refine ⟨fun u hu => Function.update_of_ne hu .., hfibers,
        .inr ⟨hleft hrest, rfl, .inr ⟨g, ?_, ?_⟩⟩⟩
      · rw [ManagerState.switchTarget, hrun]
        exact htarget
      · exact Function.update_self ..
    · exact ⟨fun u hu => Function.update_of_ne hu .., hfibers,
        .inr ⟨hleft hrest, rfl, .inl (Function.update_self ..)⟩⟩
  · have hfibers : ∀ g, ((s.apply a.thread noFiber act).setThread a.thread pc').fibers g =
        s.fibers g := fun g => by simp
    rcases h.moves_cases with hstay | ⟨g, rfl, htarget⟩
    · refine ⟨fun u _ => ?_, fun g _ => hfibers g, .inl ?_⟩ <;>
        rw [ManagerState.setThread_running, s.apply_running hstay]
    · refine ⟨fun u hu => Function.update_of_ne hu .., fun g _ => hfibers g,
        .inr ⟨fun f hf => ?_, rfl, .inr ⟨g, ?_, Function.update_self ..⟩⟩⟩
      · rw [hrun] at hf
        cases hf
      · rw [ManagerState.switchTarget, hrun]
        exact htarget

/-- A fiber that no thread executes stays at rest. -/
theorem StepMoves.rest {s s' : ManagerState} {t : ℕ} {target : Option ℕ}
    (hm : StepMoves s s' t target)
    (hrest : ∀ g, (∀ u, s.running u ≠ some g) → (s.fibers g).pc.atRest = true) {g : ℕ}
    (hg : ∀ u, s'.running u ≠ some g) : (s'.fibers g).pc.atRest = true := by
  by_cases hrun : s.running t = some g
  · rcases hm.move with hsame | ⟨hleft, -⟩
    · exact absurd hrun (by rw [← hsame]; exact hg t)
    · exact hleft g hrun
  · rw [hm.fibers g hrun]
    refine hrest g fun u hu => ?_
    by_cases hut : u = t
    · exact hrun (hut ▸ hu)
    · exact hg u ((hm.others u hut).trans hu)

/-- A fiber that no thread executes is at rest, and the threads that do not exist execute none. -/
structure RestInv (opts : ManagerOptions) (s : ManagerState) : Prop where
  rest : ∀ g, (∀ u, s.running u ≠ some g) → (s.fibers g).pc.atRest = true
  absent : ∀ u, opts.threadCount ≤ u → s.running u = none ∧ s.threads u = .returned

namespace RestInv

variable {opts : ManagerOptions} {s s' : ManagerState} {a : ManagerAction}

theorem start (opts : ManagerOptions) : RestInv opts (.start opts) where
  rest _ _ := rfl
  absent u hu := ⟨rfl, by simp [ManagerState.start, Nat.not_lt.mpr hu]⟩

/-- A thread that executes a fiber exists. -/
theorem lt_of_running (hi : RestInv opts s) {u g : ℕ} (hu : s.running u = some g) :
    u < opts.threadCount := by
  by_contra hge
  rw [(hi.absent u (by omega)).1] at hu
  cases hu

/-- A thread that takes a step exists. -/
theorem lt_of_step (hi : RestInv opts s) (hs : managerStep opts s a = some s') :
    a.thread < opts.threadCount := by
  by_contra hge
  obtain ⟨hrun, hthread⟩ := hi.absent a.thread (by omega)
  simp [managerStep, hrun, hthread, ThreadPc.next] at hs

/-- Every step keeps the fibers at rest that no thread executes. -/
theorem step (hi : RestInv opts s) (hs : managerStep opts s a = some s') : RestInv opts s' := by
  have hlt := hi.lt_of_step hs
  have hm := managerStep_moves hs
  refine ⟨fun g hg => hm.rest hi.rest hg, fun u hu => ?_⟩
  · have hne : u ≠ a.thread := by omega
    obtain ⟨hnone, hret⟩ := hi.absent u hu
    refine ⟨(hm.others u hne).trans hnone, ?_⟩
    rcases managerStep_inv hs with ⟨f, pc, act, pc', -, -, -, rfl⟩ | ⟨pc, act, pc', -, -, -, rfl⟩
    · rw [ManagerState.setFiber_threads]
      exact apply_threads_of_returned hret
    · rw [ManagerState.setThread_threads, Function.update_of_ne hne]
      exact apply_threads_of_returned hret

end RestInv

/-- In every run, the fibers that no thread executes are at rest. -/
theorem restInv_of_run {opts : ManagerOptions}
    {ok : History ManagerState ManagerAction → ManagerState → ManagerAction → Prop}
    {h : History ManagerState ManagerAction} {s : ManagerState}
    (hr : (managerSystem opts).Run ok h s) : RestInv opts s := by
  refine hr.invariant (P := fun _ s => RestInv opts s) (fun s hs => ?_)
    fun _ _ _ _ _ hi _ hs => hi.step hs
  obtain rfl : s = .start opts := hs
  exact .start opts

end NomadTasks
