import NomadTasks.Manager.Step

/-!
# How far a fiber is with a hand-off

A fiber that is switched to first performs the hand-off that its predecessor has left in the
thread's `TLS`; a fiber that switches away first writes one. The stage of a program point says
how far it is with that, and `StageStep` what each step does to the stage, to the fiber that has
been taken for the next switch, and to the `TLS`.
-/

namespace NomadTasks

/-- How far a fiber is with the hand-offs in the `TLS` of its thread. -/
inductive Stage
  /-- It has been switched to, and has not looked at the `TLS` yet. -/
  | received
  /-- It is about to put its predecessor into the pool. -/
  | receivedPool
  /-- It is about to set the `fiberStored` flag of its predecessor. -/
  | receivedWaiting
  /-- It has performed the hand-off, which is still in the `TLS`. -/
  | consumed
  /-- The `TLS` holds no hand-off. -/
  | clear
  /-- `_previousFiberIndex` is written. -/
  | index
  /-- The destination `Waiting` is written. -/
  | waiting
  /-- The hand-off is complete: `none` for the pool, or the `fiberStored` flag. -/
  | written (fiberStored : Option FlagPtr)
  /-- `_currentFiberIndex` is that of the next fiber. -/
  | leaving (fiberStored : Option FlagPtr) (next : ℕ)
  /-- The same, without a hand-off. -/
  | departing (next : ℕ)
  /-- The fiber has left its thread without a hand-off. -/
  | gone
  deriving DecidableEq

/-- The fiber has been switched to and has not performed the hand-off of its predecessor yet. -/
def Stage.pending : Stage → Bool
  | .received | .receivedPool | .receivedWaiting => true
  | _ => false

/-- The stage of a program point. A fiber that starts in the main callback expects no hand-off. -/
def FiberPc.stage (mainCallback : Bool) : FiberPc → Stage
  | .start => if mainCallback then .clear else .received
  | .cleanup .destination _ => .received
  | .cleanup .storeIdle _ => .receivedPool
  | .cleanup .storeStored _ => .receivedWaiting
  | .cleanup .cleanup _ => .consumed
  | .getNextJob .parked => .received
  | .getNextJob (.setDestination _) => .index
  | .getNextJob (.setCurrent _) => .written none
  | .getNextJob (.switchTo g) => .leaving none g
  | .waitForCounter _ _ _ _ (.parked _) => .received
  | .waitForCounter _ _ _ _ (.setDestination _) => .index
  | .waitForCounter _ _ _ _ (.setStored _) => .waiting
  | .waitForCounter _ _ _ _ (.findFree p _) => .written (some p)
  | .waitForCounter _ _ _ _ (.setCurrent p _) => .written (some p)
  | .waitForCounter _ _ _ _ (.switchTo p g) => .leaving (some p) g
  | .mainSwitchTo g => .departing g
  | .mainParked | .ended => .gone
  | _ => .clear

/-- The fiber that has been taken to be switched to next. -/
def FiberPc.reserved : FiberPc → Option ℕ
  | .getNextJob (.setPrevious g) | .getNextJob (.setDestination g)
  | .getNextJob (.setCurrent g) | .getNextJob (.switchTo g)
  | .waitForCounter _ _ _ _ (.setCurrent _ g) | .waitForCounter _ _ _ _ (.switchTo _ g)
  | .mainSetCurrent g | .mainSwitchTo g => some g
  | _ => none

/-- The fiber that a thread's own code has taken to be switched to. -/
def ThreadPc.reserved : ThreadPc → Option ℕ
  | .setCurrent g | .setCallback g | .switchTo g => some g
  | _ => none

/-- The fiber can be switched to: it has not run yet, or is inside the `SwitchTo` of `GetNextJob` or
`WaitForCounter`. -/
def FiberPc.resumable : FiberPc → Bool
  | .start | .getNextJob .parked | .waitForCounter _ _ _ _ (.parked _) => true
  | _ => false

/-- The act changes nothing that hand-offs depend on. -/
def Act.quiet : Act → Bool
  | .none | .counter .. | .enqueue .. | .dequeue _ | .shutdown | .callDelegate _
  | .finishDelegate _ | .beginSingle .. | .addJob .. | .enterExecute _ | .leaveExecute _
  | .endWait _ | .throwThrough _ => true
  | _ => false

/-- What a step does to the stage of the fiber and to the fiber it has reserved; `τ` is the thread
whose `TLS` it uses, and `tls` is that `TLS`. -/
inductive StageStep (s : ManagerState) (τ : ℕ) (tls : TLS) :
    Stage → Option ℕ → Act → Stage → Option ℕ → Prop
  | quiet {st r act} (hact : act.quiet = true) (hst : st = .clear ∨ act = .none) :
      StageStep s τ tls st r act st r
  | newStored {p} (hp : s.flags p = none) :
      StageStep s τ tls .clear none (.newStored p) .clear none
  | deleteStored {p} : StageStep s τ tls .clear none (.deleteStored p) .clear none
  | nothing (hd : tls.previousFiberDestination = .none) :
      StageStep s τ tls .received none .none .clear none
  | pool (hd : tls.previousFiberDestination = .pool) :
      StageStep s τ tls .received none .none .receivedPool none
  | waitingStored (hd : tls.previousFiberDestination = .waiting) :
      StageStep s τ tls .received none .none .receivedWaiting none
  | storeIdle : StageStep s τ tls .receivedPool none (.storeIdle τ) .consumed none
  | storeStored : StageStep s τ tls .receivedWaiting none (.storeStored τ) .consumed none
  | cleanup : StageStep s τ tls .consumed none (.writeTls τ .cleanup) .clear none
  | erase {k g} : StageStep s τ tls .clear none (.erase τ k) .clear (some g)
  | setPrevious {r} :
      StageStep s τ tls .clear r (.writeTls τ (.previousFiberIndex tls.currentFiberIndex)) .index r
  | setPool {g} :
      StageStep s τ tls .index (some g) (.writeTls τ (.previousFiberDestination .pool))
        (.written none) (some g)
  | setWaiting :
      StageStep s τ tls .index none (.writeTls τ (.previousFiberDestination .waiting)) .waiting
        none
  | setStored {p} :
      StageStep s τ tls .waiting none (.writeTls τ (.previousFiberStored p)) (.written (some p))
        none
  | take {st g} (hg : s.idleFibers g = true) (hst : st.pending = false) :
      StageStep s τ tls st none (.takeIdle g) st (some g)
  | setCurrent {p g} :
      StageStep s τ tls (.written p) (some g) (.writeTls τ (.currentFiberIndex g)) (.leaving p g)
        (some g)
  | mainSetCurrent {g} :
      StageStep s τ tls .clear (some g) (.writeTls τ (.currentFiberIndex g)) (.departing g)
        (some g)
  | switchTo {p g} :
      StageStep s τ tls (.leaving p g) (some g) (.switchTo τ g) .received none
  | mainSwitchTo {g} : StageStep s τ tls (.departing g) (some g) (.switchTo τ g) .gone none
  | switchBack : StageStep s τ tls .clear none .switchBack .gone none

/-- Every step of a fiber that is not parked for good is one of these. The main callback starts
where there is no hand-off. -/
theorem FiberStep.stageStep {opts : ManagerOptions} {s : ManagerState} {f τ : ℕ} {act : Act}
    {pc pc' : FiberPc} (h : FiberStep opts s f τ pc act pc')
    (hgone : pc.stage (s.mainCallback f) ≠ .gone) :
    StageStep s τ (s.tls τ) (pc.stage (s.mainCallback f)) pc.reserved act
      (pc'.stage (s.mainCallback f)) pc'.reserved := by
  cases h with
  | startMain hcb => simpa [FiberPc.stage, hcb] using .quiet rfl (.inr rfl)
  | startWorker hcb => simpa [FiberPc.stage, hcb] using .quiet rfl (.inr rfl)
  | mainResumed => exact absurd rfl hgone
  | nothingWorker hd | nothingNext hd | nothingWait hd => exact .nothing hd
  | previousPool hd => exact .pool hd
  | previousWaiting hd => exact .waitingStored hd
  | storeIdle => exact .storeIdle
  | storeStored => exact .storeStored
  | cleanupWorker | cleanupNext | cleanupWait => exact .cleanup
  | erase => exact .erase
  | nextSetPrevious | waitSetPrevious => exact .setPrevious
  | nextSetDestination => exact .setPool
  | waitSetDestination => exact .setWaiting
  | waitSetStored => exact .setStored
  | waitFound hg | mainFound hg => exact .take hg rfl
  | nextSetCurrent | waitSetCurrent => exact .setCurrent
  | mainSetCurrent => exact .mainSetCurrent
  | nextSwitchTo | waitSwitchTo => exact .switchTo
  | mainSwitchTo => exact .mainSwitchTo
  | switchBack => exact .switchBack
  | newStored h0 hp => exact .newStored hp
  | deleteStored => exact .deleteStored
  | _ => exact .quiet rfl (by first | exact .inl rfl | exact .inr rfl)

/-- A fiber that does not switch and still has a hand-off to perform has only looked at it. -/
theorem StageStep.of_pending {s : ManagerState} {τ : ℕ} {tls : TLS} {st st' : Stage}
    {r r' : Option ℕ} {act : Act} (h : StageStep s τ tls st r act st' r')
    (hpend : st'.pending = true) (hswitch : ∀ g, act ≠ .switchTo τ g) :
    act = .none ∧ st.pending = true := by
  cases h with
  | quiet hact hst =>
    rcases hst with rfl | rfl
    · cases hpend
    · exact ⟨rfl, hpend⟩
  | pool | waitingStored => exact ⟨rfl, rfl⟩
  | take hg hst => simp [hst] at hpend
  | switchTo => exact absurd rfl (hswitch _)
  | _ => cases hpend

/-! ## The `TLS` of a thread that executes a fiber -/

/-- What the `TLS` of the thread of fiber `f` holds at each stage. -/
def TLS.AtStage (tls : TLS) (f : ℕ) : Stage → Prop
  | .received | .consumed => tls.currentFiberIndex = f
  | .receivedPool => tls.currentFiberIndex = f ∧ tls.previousFiberDestination = .pool
  | .receivedWaiting => tls.currentFiberIndex = f ∧ tls.previousFiberDestination = .waiting
  | .clear => tls.currentFiberIndex = f ∧ tls.previousFiberDestination = .none
  | .index =>
      tls.currentFiberIndex = f ∧ tls.previousFiberDestination = .none ∧
        tls.previousFiberIndex = f
  | .waiting =>
      tls.currentFiberIndex = f ∧ tls.previousFiberDestination = .waiting ∧
        tls.previousFiberIndex = f
  | .written none => tls.currentFiberIndex = f ∧ tls.handoff = some (.pool f)
  | .written (some p) => tls.currentFiberIndex = f ∧ tls.handoff = some (.waiting f p)
  | .leaving none g => tls.currentFiberIndex = g ∧ tls.handoff = some (.pool f)
  | .leaving (some p) g => tls.currentFiberIndex = g ∧ tls.handoff = some (.waiting f p)
  | .departing g => tls.currentFiberIndex = g ∧ tls.previousFiberDestination = .none
  | .gone => False

/-- An assignment leaves the `TLS` as the next stage says. -/
theorem StageStep.atStage_write {s : ManagerState} {τ f : ℕ} {tls : TLS} {st st' : Stage}
    {r r' : Option ℕ} {w : TlsWrite} (h : StageStep s τ tls st r (.writeTls τ w) st' r')
    (hat : tls.AtStage f st) : (tls.write w).AtStage f st' := by
  cases h with
  | quiet hact => cases hact
  | cleanup => exact ⟨hat, rfl⟩
  | setPrevious => exact ⟨hat.1, hat.2, hat.1⟩
  | setPool => exact ⟨hat.1, congrArg (fun g => some (Handoff.pool g)) hat.2.2⟩
  | setWaiting => exact ⟨hat.1, rfl, hat.2.2⟩
  | @setStored p =>
    refine ⟨hat.1, ?_⟩
    simp [TLS.write, TLS.handoff, hat.2.1, hat.2.2]
  | @setCurrent p => cases p <;> exact ⟨rfl, hat.2⟩
  | mainSetCurrent => exact ⟨rfl, hat.2⟩

end NomadTasks
