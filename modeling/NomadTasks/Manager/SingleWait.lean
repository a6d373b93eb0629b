import NomadTasks.Manager.InTurn

/-!
# What `WaitForSingle` promises

The `TinyCounter` of a `WaitForSingle` call is incremented once and decremented once. So a scan that
announces zero on it announces the last value that it has, and cannot be late.

* `SingleInv`: the one decrement leaves zero for good, and only its scan finds the registration.
* `inTurn_of_single`: no scan takes a registration on a `TinyCounter` late.
* `single_executed`: when `WaitForSingle` returns, the job has been executed once.
-/

namespace NomadTasks

open Transition Ownership

/-! ## The condition -/

/-- The condition of a run: it is orderly and no wait is refused, and no `ScheduleJob` of a job
bound to counter `c` throws. -/
def Unthrown (c : CtrId) (h : History ManagerState ManagerAction) (s : ManagerState)
    (a : ManagerAction) : Prop :=
  OrderlyUnrefused h s a ∧ ThroughJobs c h s a

instance (c : CtrId) (h : History ManagerState ManagerAction) (s : ManagerState)
    (a : ManagerAction) : Decidable (Unthrown c h s a) :=
  inferInstanceAs (Decidable (_ ∧ _))

/-! ## Scans -/

namespace CounterCall

/-- The value that a scan announces. -/
def announced : CounterCall → Option CounterUnit
  | .modify _ (.check _ value _) => some value
  | _ => none

/-- The value that a scan announces, from when it has found a registration for it until it has
released the slot. -/
def matched : CounterCall → Option CounterUnit
  | .modify _ (.check _ value (.casInUse _)) | .modify _ (.check _ value (.loadFiberIndex _))
  | .modify _ (.check _ value (.push ..)) | .modify _ (.check _ value (.release _)) => some value
  | _ => none

variable {b : BaseCounter} {call call' : CounterCall} {eff : Effect} {value : CounterUnit}

/-- A scan that has found a registration announces its value. -/
theorem announced_of_matched (h : call.matched = some value) : call.announced = some value := by
  rcases call with _ | ⟨reg, pc⟩ | ⟨op, _ | ⟨prev, v, pc⟩ | prev⟩
  · cases h
  · cases h
  · cases h
  · cases pc <;> first | exact h | cases h
  · cases h

/-- A modifier that announces a value has changed the value. -/
theorem modified_of_announced (h : call.announced = some value) : call.modified = true := by
  rcases call with _ | ⟨reg, pc⟩ | ⟨op, _ | ⟨prev, v, pc⟩ | prev⟩ <;> first | rfl | cases h

/-- The value that a step leaves a scan to announce has been announced before, or is the new one. -/
theorem announced_next (hn : call.next b = some (eff, call')) (h : call'.announced = some value) :
    call.announced = some value ∨ call.modified = false ∧ (b.apply eff).counter = value := by
  rcases call with _ | ⟨reg, pc⟩ | ⟨op, _ | ⟨prev, v, pc⟩ | prev⟩
  · cases hn
  · simp only [next, Option.map_eq_some_iff, Prod.mk.injEq] at hn
    obtain ⟨⟨eff', pc'⟩, -, -, rfl⟩ := hn
    cases h
  · cases hn
    exact .inr ⟨rfl, Option.some.inj h⟩
  · simp only [next, Option.map_eq_some_iff, ModifyPc.next, Prod.mk.injEq] at hn
    obtain ⟨⟨eff', pc'⟩, hpc, -, rfl⟩ := hn
    split at hpc <;> cases hpc
    · exact .inl h
    · cases h
  · cases hn

/-- Where all registrations are for zero, a scan finds one only if it announces zero. -/
theorem matched_next (hn : call.next b = some (eff, call'))
    (hslots : ∀ i, (b.waitingFibers i).targetValue = 0) (h : call'.matched = some value) :
    call.matched = some value ∨ value = 0 := by
  rcases call with _ | ⟨reg, pc⟩ | ⟨op, _ | ⟨prev, v, pc⟩ | prev⟩
  · cases hn
  · simp only [next, Option.map_eq_some_iff, Prod.mk.injEq] at hn
    obtain ⟨⟨eff', pc'⟩, -, -, rfl⟩ := hn
    cases h
  · cases hn
    cases h
  · revert hn
    simp only [next, ModifyPc.next]
    fun_cases ScanPc.next b v pc <;> rintro ⟨⟩ <;> simp_all [matched]
  · cases hn

end CounterCall

/-- A thread that works on a counter executes a fiber in a call. -/
theorem exists_of_counterCall {s : ManagerState} {t : ℕ} {c : CtrId} {x : ℕ}
    (h : s.counterCall t = some (c, x)) : ∃ w use, s.running t = some w ∧
      (s.fibers w).pc = .call use c x ∧ ((s.counters c).calls x).inProgress = true := by
  rw [ManagerState.counterCall] at h
  cases hrun : s.running t with
  | none => simp [hrun] at h
  | some w =>
    cases hpc : (s.fibers w).pc with
    | call use d y =>
      simp only [hrun, hpc] at h
      split at h
      · next hprogress =>
        obtain ⟨rfl, rfl⟩ : d = c ∧ y = x := by simpa using h
        exact ⟨w, use, rfl, hpc, hprogress⟩
      · cases h
    | _ => simp [hrun, hpc] at h

/-- A scan that takes a registration late is about to exchange the slot's `_inUse`. -/
theorem exists_of_claimsLate {c : CtrId} {s : ManagerState} {a : ManagerAction}
    (h : claimsLate c s a = true) : ∃ w use x op prev value i,
      (s.fibers w).pc = .call use c x ∧
      (s.counters c).calls x = .modify op (.check prev value (.casInUse i)) ∧
      ((s.counters c).ctr.waitingFibers i).targetValue ≠ s.value c := by
  rw [claimsLate] at h
  cases hcounter : s.counterCall a.thread with
  | none => simp [hcounter] at h
  | some e =>
    obtain ⟨d, x⟩ := e
    simp only [hcounter, Bool.and_eq_true, decide_eq_true_eq] at h
    obtain ⟨rfl, h⟩ := h
    obtain ⟨w, use, -, hpc, -⟩ := exists_of_counterCall hcounter
    split at h
    case h_1 op prev value i hcall =>
      simp only [Bool.and_eq_true, decide_eq_true_eq] at h
      exact ⟨w, use, x, op, prev, value, i, hpc, hcall, h.2⟩
    case h_2 => cases h

/-! ## The invariant -/

/-- The job of `WaitForSingle` is counted once, and done once: before it is counted nobody is in the
`Decrement`, and after the decrement the value stays zero. Only the scan of the decrement finds the
registration. -/
structure SingleInv (n : ℕ) (s : ManagerState) : Prop where
  fresh : s.singles n = .notStarted → ∀ w x, (s.fibers w).pc ≠ .call .execute (.tiny n) x
  uncounted : ∀ f, (s.fibers f).pc.round = some (.tiny n) → s.between (s.fibers f).pc = true →
    (s.fibers f).pc.scheduled ≠ none → ∀ w x, (s.fibers w).pc ≠ .call .execute (.tiny n) x
  decremented : ∀ w x, (s.fibers w).pc = .call .execute (.tiny n) x →
    ((s.counters (.tiny n)).calls x).modified = true → s.value (.tiny n) = 0
  incremented : ∀ w ctx caller prio job x,
    (s.fibers w).pc = .call (.scheduleJob ctx caller prio job) (.tiny n) x →
    ((s.counters (.tiny n)).calls x).announced ≠ some 0
  matched : ∀ w use x v, (s.fibers w).pc = .call use (.tiny n) x →
    ((s.counters (.tiny n)).calls x).matched = some v → v = 0
  one : ∀ w w' x x', (s.fibers w).pc = .call .execute (.tiny n) x →
    ((s.counters (.tiny n)).calls x).modified = true →
    (s.fibers w').pc = .call .execute (.tiny n) x' →
    ((s.counters (.tiny n)).calls x').modified = true → w = w'

namespace SingleInv

variable {opts : ManagerOptions} {s s' : ManagerState} {t f n : ℕ} {act : Act} {pc' : FiberPc}

/-- Only a scan that announces zero finds a registration, and then the value is zero. -/
theorem value_of_matched (hi : SingleInv n s) (hcalls : CallsInv s) (hrounds : RoundInv s)
    {w : ℕ} {use : CounterUse} {x : ℕ} {v : CounterUnit}
    (hpc : (s.fibers w).pc = .call use (.tiny n) x)
    (hmatched : ((s.counters (.tiny n)).calls x).matched = some v) :
    use = .execute ∧ ((s.counters (.tiny n)).calls x).modified = true ∧
      s.value (.tiny n) = 0 := by
  obtain rfl := hi.matched w use x v hpc hmatched
  have hannounced := CounterCall.announced_of_matched hmatched
  have hmod := CounterCall.modified_of_announced hannounced
  cases use with
  | execute => exact ⟨rfl, hmod, hi.decremented w x hpc hmod⟩
  | scheduleJob ctx caller prio job =>
    exact absurd hannounced (hi.incremented w ctx caller prio job x hpc)
  | modify =>
    have hown := hrounds.own w
    rw [hpc] at hown
    cases hown
  | waitForCounter =>
    have hmakes := hcalls.makes w _ _ x hpc
    cases hcall : (s.counters (.tiny n)).calls x with
    | modify => rw [hcall] at hmakes; cases hmakes
    | _ => rw [hcall] at hmod; cases hmod

/-- No scan takes a registration late. -/
theorem claimsLate_eq_false (hi : SingleInv n s) (he : RoundEndInv (.tiny n) s)
    (hcalls : CallsInv s) (hrounds : RoundInv s) (a : ManagerAction) :
    claimsLate (.tiny n) s a = false := by
  by_contra hlate
  obtain ⟨w, use, x, op, prev, value, i, hpc, hcall, hne⟩ :=
    exists_of_claimsLate (Bool.not_eq_false _ ▸ hlate)
  refine hne ?_
  rw [he.slots, (hi.value_of_matched hcalls hrounds hpc (v := value) (by rw [hcall]; rfl)).2.2]

/-- At zero, nobody begins a `Decrement`. -/
private theorem nobody_step (hf : InTurnInv (.tiny n) s) (he : RoundEndInv (.tiny n) s)
    (h : FiberStep opts s f t (s.fibers f).pc act pc') (hself : (s'.fibers f).pc = pc')
    (hother : ∀ g, g ≠ f → s'.fibers g = s.fibers g) (hz : s.value (.tiny n) = 0)
    (hnobody : ∀ w x, (s.fibers w).pc ≠ .call .execute (.tiny n) x) (w x : ℕ) :
    (s'.fibers w).pc ≠ .call .execute (.tiny n) x := by
  intro hw
  by_cases hwf : w = f
  · subst hwf
    rw [hself] at hw
    rcases h.counter_cases with ⟨use, c, y, hpc, hpc', -⟩ | ⟨use, c, y, hpc, hpc', -⟩ | ⟨-, hno⟩
    -- the fiber would still have the job
    · cases hw.symm.trans hpc'
      have howed := (he.of_zero hf.outstanding hz).2 w
      rw [ManagerState.owed, hpc] at howed
      simp [ManagerState.owes] at howed
    · cases hw.symm.trans hpc'
      exact hnobody w x hpc
    · exact hno _ _ _ hw
  · rw [hother w hwf] at hw
    exact hnobody w x hw

/-- A call that has not started has not started before. -/
theorem singles_of_apply (h : (s.apply t f act).singles n = .notStarted) :
    s.singles n = .notStarted := by
  cases act with
  | beginSingle m job =>
    by_cases hnm : n = m
    · simp [ManagerState.apply, hnm] at h
    · simpa [ManagerState.apply, hnm] using h
  | endWait caller | throwThrough caller =>
    cases caller with
    | single m =>
      by_cases hnm : n = m
      · subst hnm
        cases hn : s.singles n with
        | notStarted => rfl
        | _ => simp [ManagerState.apply, SingleCall.return, hn] at h
      · simpa [ManagerState.apply, hnm] using h
    | _ => exact h
  | _ => exact h

/-- Before the call of `WaitForSingle`, nobody uses its counter. -/
private theorem fresh_step (hi : SingleInv n s) (hf : InTurnInv (.tiny n) s)
    (he : RoundEndInv (.tiny n) s) (h : FiberStep opts s f t (s.fibers f).pc act pc')
    (hself : (s'.fibers f).pc = pc') (hother : ∀ g, g ≠ f → s'.fibers g = s.fibers g)
    (hsingles : s'.singles = (s.apply t f act).singles) (hnot : s'.singles n = .notStarted)
    (w x : ℕ) : (s'.fibers w).pc ≠ .call .execute (.tiny n) x := by
  have hold : s.singles n = .notStarted := singles_of_apply (hsingles ▸ hnot)
  have hout : ∀ g, (s.fibers g).pc.round ≠ some (.tiny n) :=
    hf.rounds.round_ne (by simp [ManagerState.busy, hold])
  exact nobody_step hf he h hself hother (he.outside hout) (hi.fresh hold) w x

/-- Before the job is counted, nobody is in the `Decrement`. -/
private theorem uncounted_step (hi : SingleInv n s) (hf : InTurnInv (.tiny n) s)
    (he : RoundEndInv (.tiny n) s) (h : FiberStep opts s f t (s.fibers f).pc act pc')
    (hm : CounterMove s s' f (s.fibers f).pc pc') (hself : (s'.fibers f).pc = pc')
    (hother : ∀ g, g ≠ f → s'.fibers g = s.fibers g) {g : ℕ}
    (hround : (s'.fibers g).pc.round = some (.tiny n))
    (hbetween : s'.between (s'.fibers g).pc = true) (hsched : (s'.fibers g).pc.scheduled ≠ none)
    (w x : ℕ) : (s'.fibers w).pc ≠ .call .execute (.tiny n) x := by
  by_cases hgf : g = f
  · subst hgf
    rw [hself] at hround hbetween hsched
    obtain ⟨job, hjob⟩ := Option.ne_none_iff_exists'.mp hsched
    have hat : pc'.atQueue = false := by
      cases pc' <;> first | rfl | cases hjob
    have hmodified : ∀ use d x, (s.fibers g).pc = .call use d x →
        ((s.counters d).calls x).modified = true →
        ((s'.counters d).calls x).modified = true := fun use d x hpc hmod => by
      rw [hpc] at hm
      exact hm.modified_kept hmod
    have hcases := h.between_cases hmodified hround hbetween
    rcases h.front hround hat with ⟨hin, -, -, hsame⟩ | ⟨_, q, _, _, _, -, hq, -⟩ |
      ⟨m, job', hm', rfl, -⟩
    -- the fiber has been scheduling the job before
    · have hjob' := hsame job hjob
      rcases hcases with ⟨hnone, -⟩ | ⟨-, hbefore | ⟨_, _, _, _, hpc, -⟩ |
        ⟨_, _, _, _, _, _, _, hpc, -⟩ | ⟨_, _, _, _, _, hpc⟩⟩
      · rw [hnone] at hin
        cases hin
      · exact nobody_step hf he h hself hother (he.between g hin hbefore)
          (hi.uncounted g hin hbefore (by rw [hjob']; simp)) w x
      all_goals
        rw [hpc] at hjob'
        cases hjob'
    · cases hq
    -- the call of `WaitForSingle` begins
    · cases hm'
      have hstep := h.roundStep
      generalize (s.fibers g).pc.round = r at hstep
      generalize pc'.round = r' at hstep
      cases hstep with
      | same hact => cases hact
      | beginSingle hn =>
        have hout : ∀ k, (s.fibers k).pc.round ≠ some (.tiny n) :=
          hf.rounds.round_ne (by simp [ManagerState.busy, hn])
        exact nobody_step hf he h hself hother (he.outside hout) (hi.fresh hn) w x
  · rw [hother g hgf] at hround hbetween hsched
    have hbefore : s.between (s.fibers g).pc = true := by
      rw [← hbetween]
      exact (ManagerState.between_congr fun use d x hpc => by
        rw [hf.outstanding.calls.calls_other hm hgf hpc]).symm
    exact nobody_step hf he h hself hother (he.between g hround hbefore)
      (hi.uncounted g hround hbefore hsched) w x

/-- A fiber whose `Decrement` has changed the value has changed it before, unless this step does. -/
private theorem modified_before (hf : InTurnInv (.tiny n) s)
    (hm : CounterMove s s' f (s.fibers f).pc pc') (hself : (s'.fibers f).pc = pc')
    (hother : ∀ g, g ≠ f → s'.fibers g = s.fibers g) {w x : ℕ}
    (hkeep : w = f → ModifiedKept (.tiny n) s s' (s.fibers f).pc pc')
    (hpc : (s'.fibers w).pc = .call .execute (.tiny n) x)
    (hmod : ((s'.counters (.tiny n)).calls x).modified = true) :
    (s.fibers w).pc = .call .execute (.tiny n) x ∧
      ((s.counters (.tiny n)).calls x).modified = true := by
  by_cases hwf : w = f
  · subst hwf
    rcases hkeep rfl _ x (hself.symm.trans hpc) with ⟨-, hnot⟩ | ⟨hold, hsame⟩
    · rw [hmod] at hnot
      cases hnot
    · exact ⟨hold, hsame ▸ hmod⟩
  · rw [hother w hwf] at hpc
    exact ⟨hpc, by rw [← hf.outstanding.calls.calls_other hm hwf hpc]; exact hmod⟩

/-- While the job is counted, nobody is in the `Decrement`. -/
private theorem not_counted (hi : SingleInv n s) (hself : (s'.fibers f).pc = pc')
    (hother : ∀ g, g ≠ f → s'.fibers g = s.fibers g) {ctx : Ctx} {caller : Caller}
    {prio : JobPriority} {job : JobInfo} {y : ℕ}
    (hcall : (s.fibers f).pc = .call (.scheduleJob ctx caller prio job) (.tiny n) y)
    (hpc' : pc' = .call (.scheduleJob ctx caller prio job) (.tiny n) y)
    (hin : (s.fibers f).pc.round = some (.tiny n))
    (hfetch : (s.counters (.tiny n)).calls y = .modify (.increment 1) .fetch) (w x : ℕ) :
    (s'.fibers w).pc ≠ .call .execute (.tiny n) x := by
  intro hpc
  have hwf : w ≠ f := by
    rintro rfl
    cases hpc.symm.trans (hself.trans hpc')
  rw [hother w hwf] at hpc
  exact hi.uncounted f hin (by rw [hcall, ManagerState.between, hfetch]; rfl)
    (by rw [hcall]; simp [FiberPc.scheduled]) w x hpc

/-- After the decrement, the value stays zero. -/
private theorem decremented_step (hi : SingleInv n s) (hf : InTurnInv (.tiny n) s)
    (he : RoundEndInv (.tiny n) s) (hm : CounterMove s s' f (s.fibers f).pc pc')
    (hself : (s'.fibers f).pc = pc') (hother : ∀ g, g ≠ f → s'.fibers g = s.fibers g) {w x : ℕ}
    (hpc : (s'.fibers w).pc = .call .execute (.tiny n) x)
    (hmod : ((s'.counters (.tiny n)).calls x).modified = true) : s'.value (.tiny n) = 0 := by
  rcases he.value_cases hf.outstanding hf.rounds (by simp [CtrId.owner]) hm with
    ⟨ctx, caller, prio, job, y, hcall, hpc', hin, hfetch, -⟩ | ⟨-, -, -, -, hz⟩ | ⟨hvalue, hkeep⟩
  · exact absurd hpc (hi.not_counted hself hother hcall hpc' hin hfetch w x)
  · exact hz
  · obtain ⟨hold, hbefore⟩ := modified_before hf hm hself hother (fun _ => hkeep) hpc hmod
    rw [hvalue]
    exact hi.decremented w x hold hbefore

/-- Only one fiber decrements. -/
private theorem one_step (hi : SingleInv n s) (hf : InTurnInv (.tiny n) s)
    (he : RoundEndInv (.tiny n) s) (hm : CounterMove s s' f (s.fibers f).pc pc')
    (hself : (s'.fibers f).pc = pc') (hother : ∀ g, g ≠ f → s'.fibers g = s.fibers g)
    {w w' x x' : ℕ} (hpc : (s'.fibers w).pc = .call .execute (.tiny n) x)
    (hmod : ((s'.counters (.tiny n)).calls x).modified = true)
    (hpc' : (s'.fibers w').pc = .call .execute (.tiny n) x')
    (hmod' : ((s'.counters (.tiny n)).calls x').modified = true) : w = w' := by
  rcases he.value_cases hf.outstanding hf.rounds (by simp [CtrId.owner]) hm with
    ⟨ctx, caller, prio, job, y, hcall, hcall', hin, hfetch, -⟩ | ⟨y, -, -, hone, -⟩ | ⟨-, hkeep⟩
  · exact absurd hpc (hi.not_counted hself hother hcall hcall' hin hfetch w x)
  -- nobody has decremented before
  · have hmover : ∀ {g z}, (s'.fibers g).pc = .call .execute (.tiny n) z →
        ((s'.counters (.tiny n)).calls z).modified = true → g = f := by
      intro g z hg hz
      by_contra hgf
      obtain ⟨hold, hbefore⟩ := modified_before hf hm hself hother (fun h => absurd h hgf) hg hz
      have hzero := hi.decremented g z hold hbefore
      rw [hone] at hzero
      cases hzero
    rw [hmover hpc hmod, hmover hpc' hmod']
  · obtain ⟨hold, hbefore⟩ := modified_before hf hm hself hother (fun _ => hkeep) hpc hmod
    obtain ⟨hold', hbefore'⟩ := modified_before hf hm hself hother (fun _ => hkeep) hpc' hmod'
    exact hi.one w w' x x' hold hbefore hold' hbefore'

/-- The increment announces one. -/
private theorem incremented_step (hi : SingleInv n s) (hf : InTurnInv (.tiny n) s)
    (he : RoundEndInv (.tiny n) s) (hm : CounterMove s s' f (s.fibers f).pc pc')
    (hself : (s'.fibers f).pc = pc') (hother : ∀ g, g ≠ f → s'.fibers g = s.fibers g) {w x : ℕ}
    {ctx : Ctx} {caller : Caller} {prio : JobPriority} {job : JobInfo}
    (hpc : (s'.fibers w).pc = .call (.scheduleJob ctx caller prio job) (.tiny n) x) :
    ((s'.counters (.tiny n)).calls x).announced ≠ some 0 := by
  by_cases hwf : w = f
  swap
  · rw [hother w hwf] at hpc
    rw [hf.outstanding.calls.calls_other hm hwf hpc]
    exact hi.incremented w ctx caller prio job x hpc
  subst hwf
  rw [hself] at hpc
  subst hpc
  intro hannounced
  have hvalues := he.value_cases hf.outstanding hf.rounds (by simp [CtrId.owner]) hm
  have hold := hi.incremented w ctx caller prio job x
  generalize (s.fibers w).pc = pc at hm hold hvalues
  cases hm with
  | begins hx hs =>
    obtain ⟨current, hs⟩ := hs
    rw [hs, Function.update_self, CounterState.setCall_calls, Function.update_self] at hannounced
    cases hannounced
  | continues hn hs =>
    have hmodified : ((s'.counters (.tiny n)).calls x).modified = true :=
      CounterCall.modified_of_announced hannounced
    rw [hs, Function.update_self, CounterState.perform_calls, Function.update_self] at hannounced
    rcases CounterCall.announced_next hn hannounced with hbefore | ⟨hnot, hzero⟩
    · exact hold rfl hbefore
    -- a value that is announced for the first time is one
    · have hvalue : s'.value (.tiny n) = 0 := by simpa [ManagerState.value, hs] using hzero
      rcases hvalues with ⟨_, _, _, _, _, -, -, -, -, -, -, hone⟩ | ⟨_, hcall, -⟩ | ⟨-, hkeep⟩
      · rw [hvalue] at hone
        cases hone
      · cases hcall
      · rcases hkeep _ x rfl with ⟨hbegin, -⟩ | ⟨-, hsame⟩
        · cases hbegin
        · rw [hmodified, hnot] at hsame
          cases hsame
  | other hs hpc => exact absurd rfl (hpc _ _ x)

/-- A scan finds a registration only if it announces zero. -/
private theorem matched_step (hi : SingleInv n s) (hf : InTurnInv (.tiny n) s)
    (he : RoundEndInv (.tiny n) s) (hm : CounterMove s s' f (s.fibers f).pc pc')
    (hself : (s'.fibers f).pc = pc') (hother : ∀ g, g ≠ f → s'.fibers g = s.fibers g) {w x : ℕ}
    {use : CounterUse} {v : CounterUnit} (hpc : (s'.fibers w).pc = .call use (.tiny n) x)
    (hmatched : ((s'.counters (.tiny n)).calls x).matched = some v) : v = 0 := by
  by_cases hwf : w = f
  swap
  · rw [hother w hwf] at hpc
    rw [hf.outstanding.calls.calls_other hm hwf hpc] at hmatched
    exact hi.matched w use x v hpc hmatched
  subst hwf
  rw [hself] at hpc
  subst hpc
  have hold := hi.matched w use x v
  generalize (s.fibers w).pc = pc at hm hold
  cases hm with
  | begins hx hs =>
    obtain ⟨current, hs⟩ := hs
    rw [hs, Function.update_self, CounterState.setCall_calls, Function.update_self] at hmatched
    cases use <;> cases hmatched
  | continues hn hs =>
    rw [hs, Function.update_self, CounterState.perform_calls, Function.update_self] at hmatched
    exact (CounterCall.matched_next hn he.slots hmatched).elim (hold rfl) id
  | other hs hpc => exact absurd rfl (hpc use _ x)

/-- Every step keeps the invariant. -/
theorem step {a : ManagerAction} (hi : SingleInv n s) (hf : InTurnInv (.tiny n) s)
    (he : RoundEndInv (.tiny n) s) (hs : managerStep opts s a = some s') : SingleInv n s' := by
  rcases managerStep_cases hs with ⟨f, act, pc', hrun, hn, hs'⟩ | ⟨act, pc', hrun, hn, rfl⟩
  · have h := fiberStep_of_next hn
    rw [hf.manager.own.onThread a.thread f hrun] at h hs'
    have hm : CounterMove s s' f (s.fibers f).pc pc' := hs' ▸ h.counterMove (t := a.thread) _
    have hself : (s'.fibers f).pc = pc' := by simp [hs']
    have hother : ∀ g, g ≠ f → s'.fibers g = s.fibers g := fun g hg => by simp [hs', hg]
    exact
      { fresh := fun hnot w x =>
          hi.fresh_step hf he h hself hother (t := a.thread) (by rw [hs']; rfl) hnot w x
        uncounted := fun g hin hbetween hsched w x =>
          hi.uncounted_step hf he h hm hself hother hin hbetween hsched w x
        decremented := fun w x hpc hmod => hi.decremented_step hf he hm hself hother hpc hmod
        incremented := fun w ctx caller prio job x hpc =>
          hi.incremented_step hf he hm hself hother hpc
        matched := fun w use x v hpc hmatched =>
          hi.matched_step hf he hm hself hother hpc hmatched
        one := fun w w' x x' hpc hmod hpc' hmod' =>
          hi.one_step hf he hm hself hother hpc hmod hpc' hmod' }
  -- the own code of a thread has nothing to do with it
  · have hstep := threadStep_of_next hn
    have hsingles : (s.apply a.thread noFiber act).singles = s.singles := by
      generalize s.threads a.thread = pc at hstep
      cases hstep <;> rfl
    have hctr : (s.apply a.thread noFiber act).counters = s.counters :=
      ManagerState.apply_counters hstep.not_counter
    have hbetween : ∀ pc, (s.apply a.thread noFiber act).between pc = s.between pc := fun pc =>
      ManagerState.between_congr fun _ _ _ _ => by rw [hctr]
    constructor <;>
      simp only [ManagerState.setThread_fibers, ManagerState.setThread_counters,
        ManagerState.setThread_singles, ManagerState.apply_fibers, ManagerState.value, hctr,
        hsingles]
    · exact hi.fresh
    · exact fun f hin hpc => hi.uncounted f hin ((hbetween _).symm.trans hpc)
    · exact hi.decremented
    · exact hi.incremented
    · exact hi.matched
    · exact hi.one

theorem start (opts : ManagerOptions) (n : ℕ) : SingleInv n (.start opts) where
  fresh _ _ _ h := by cases h
  uncounted _ h := by cases h
  decremented _ _ h := by cases h
  incremented _ _ _ _ _ _ h := by cases h
  matched _ _ _ _ h := by cases h
  one _ _ _ _ h := by cases h

end SingleInv

/-! ## Results -/

section Run

variable {opts : ManagerOptions} {n : ℕ} {h : History ManagerState ManagerAction} {s : ManagerState}

/-- In every such run, no scan takes the registration of the `WaitForSingle` call late. -/
theorem inTurn_of_single (hr : (managerSystem opts).Run (Unthrown (.tiny n)) h s) :
    (managerSystem opts).Run (InTurn (.tiny n)) h s ∧ SingleInv n s := by
  induction hr with
  | init hs =>
    obtain rfl := hs
    exact ⟨.init rfl, .start opts n⟩
  | step hr hok hs ih =>
    obtain ⟨hrun, hi⟩ := ih
    have hf := inTurnInv_of_run hrun
    have he := roundEndInv_of_run (by simp [CtrId.owner]) hrun
    exact ⟨hrun.step ⟨hok.1, hok.2, hi.claimsLate_eq_false he hf.outstanding.calls hf.rounds _⟩ hs,
      hi.step hf he hs⟩

/-- The job of a `WaitForSingle` call that has returned has been executed, and is nowhere. -/
theorem SingleInv.executed_of_returned
    (hr : (managerSystem opts).Run (Unthrown (.tiny n)) h s) {job : JobInfo}
    (hjob : s.singles n = .returned job) :
    s.delegatesOf (.tiny n) = job.events ∧
      (∀ prio, ∀ j ∈ s.jobs prio, j.counter ≠ some (.tiny n)) ∧ ∀ f, s.owed (.tiny n) f = 0 := by
  have hrun := (inTurn_of_single hr).1
  have hc : (CtrId.tiny n).owner ≠ .body := by simp [CtrId.owner]
  have he := roundEndInv_of_run hc hrun
  have hf := inTurnInv_of_run hrun
  have hasked : s.asked (.tiny n) = [job] := by simp [ManagerState.asked, hjob]
  have htodo : s.todo (.tiny n) = [] := by simp [ManagerState.todo, hjob]
  have hnobody := hf.rounds.round_ne (c := .tiny n) (by simp [ManagerState.busy, hjob])
  have hzero := he.outside hnobody
  obtain ⟨hqueued, howed⟩ := he.of_zero hf.outstanding hzero
  refine ⟨?_, fun prio j hj hctr => ?_, howed⟩
  · have hall := (delegatesInv_of_run hc hrun).at_zero hzero fun g hg => absurd hg (hnobody g)
    simpa [hasked, htodo] using hall
  · have hpos := ManagerState.queued_pos hj hctr
    rw [hqueued] at hpos
    cases hpos

/-- In every orderly run in which no wait is refused and the `ScheduleJob` of the `WaitForSingle`
call does not throw: the delegate of its job is called at most once, and when the call has returned,
the delegate has been called and has finished, and the job is neither queued nor with a fiber. -/
theorem single_executed (hr : (managerSystem opts).Run (Unthrown (.tiny n)) h s) :
    (∀ job, s.singles n = .waiting job → s.delegatesOf (.tiny n) <+: job.events) ∧
      ∀ job, s.singles n = .returned job → s.delegatesOf (.tiny n) = job.events ∧
        (∀ prio, ∀ j ∈ s.jobs prio, j.counter ≠ some (.tiny n)) ∧
          ∀ f, s.owed (.tiny n) f = 0 := by
  refine ⟨fun job hjob => ?_, fun job hjob => SingleInv.executed_of_returned hr hjob⟩
  have hi := delegatesInv_of_run (by simp [CtrId.owner]) (inTurn_of_single hr).1
  have hasked : s.asked (.tiny n) = [job] := by simp [ManagerState.asked, hjob]
  simpa [hasked] using hi.isPrefix

end Run

theorem single_executed_resumed :
    ∃ h s, (managerSystem twoWorkers).Run (Unthrown (.tiny 0)) h s ∧
      s.singles 0 = .returned ⟨some 7, some (.tiny 0)⟩ ∧
      s.delegatesOf (.tiny 0) =
        [.called ⟨some 7, some (.tiny 0)⟩, .finished ⟨some 7, some (.tiny 0)⟩] := by
  have hrun : ∃ (h : History ManagerState ManagerAction) (s : ManagerState),
      (managerSystem twoWorkers).Run (Unthrown (.tiny 0)) h s ∧
        s.singles 0 = .returned ⟨some 7, some (.tiny 0)⟩ :=
    System.exists_run_of_trace_by (managerStepEval_eq _) rfl mainResumes (by decide +kernel)
  obtain ⟨h, s, hr, hret⟩ := hrun
  exact ⟨h, s, hr, hret, ((single_executed hr).2 _ hret).1⟩

end NomadTasks
