import NomadTasks.Manager.SingleWait

/-!
# How long a `TinyCounter` is used

The `TinyCounter` of a `WaitForSingle` call is on the stack of the call. The `Decrement` of the job
goes on with its scan after the value has become zero, and a wait that sees the zero by itself does
not wait for the scan.

* `leavesEarly`: a `WaitForSingle` call leaves its wait by itself while a thread is inside a call on
  its `TinyCounter`.
* `OutlivesInv`: a wait that is resumed by the scan is over after the scan.
* `tiny_counter_outlives`: unless a call leaves early, nobody is inside a call on a `TinyCounter`
  that is gone.
* `single_sound`: what a `WaitForSingle` call that returns promises.
* `scan_on_dead_counter`: a call that leaves early.
-/

namespace NomadTasks

open Transition Ownership

/-! ## The condition -/

namespace ManagerState

/-- The `WaitForSingle` call that the next step at a program point leaves by itself:
`WaitForCounter` has seen the value, or `AddWaitingFiber` has returned `true`. -/
def leaves (s : ManagerState) : FiberPc → Option ℕ
  | .waitForCounter _ (.single n) c v .getValue => if s.value c = v then some n else none
  | .call (.waitForCounter _ (.single n) ..) c x =>
      match (s.counters c).calls x with
      | .addWaiting _ (.returned true) => some n
      | _ => none
  | _ => none

/-- No fiber is inside a call on counter `c`. -/
def Quiet (s : ManagerState) (c : CtrId) : Prop :=
  ∀ w use x, (s.fibers w).pc = .call use c x → ((s.counters c).calls x).inProgress = false

end ManagerState

/-- In the step, a `WaitForSingle` call leaves its wait by itself, while a thread is inside a call
on its `TinyCounter`. -/
def leavesEarly (opts : ManagerOptions) (s : ManagerState) (a : ManagerAction) : Bool :=
  match s.running a.thread with
  | some f =>
      match s.leaves (s.fibers f).pc with
      | some n =>
          decide (∃ u < opts.threadCount, (s.counterCall u).map Prod.fst = some (.tiny n))
      | none => false
  | none => false

/-- In the step, the `ScheduleJob` of a `WaitForSingle` call throws. -/
def failsSingle (s : ManagerState) (a : ManagerAction) : Bool :=
  match s.running a.thread with
  | some f =>
      match (s.fibers f).pc with
      | .enqueue _ (.single _) _ _ => a.choice == .fail
      | _ => false
  | none => false

/-- The condition of a run: no fiber is resumed inside a `GetNextJob` called on another thread, no
claim is stale, no wait is refused, no `ScheduleJob` of a `WaitForSingle` call throws, and none
leaves early. -/
def Punctual (opts : ManagerOptions) (_ : History ManagerState ManagerAction) (s : ManagerState)
    (a : ManagerAction) : Prop :=
  resumesElsewhere s a = false ∧ claimsStale s a = false ∧ refusesWait s a.thread = false ∧
    failsSingle s a = false ∧ leavesEarly opts s a = false

instance (opts : ManagerOptions) (h : History ManagerState ManagerAction) (s : ManagerState)
    (a : ManagerAction) : Decidable (Punctual opts h s a) :=
  inferInstanceAs (Decidable (_ ∧ _ ∧ _ ∧ _ ∧ _))

/-! ## What a step does -/

/-- The wait is over. -/
def FiberPc.pastWait : FiberPc → Bool
  | .waitForCounter _ _ _ _ (.deleteStored _) | .cleanup _ (.waitForCounter ..) | .waited .. => true
  | _ => false

section Step

variable {opts : ManagerOptions} {s s' : ManagerState} {t f tls u : ℕ} {act : Act}
  {pc pc' : FiberPc} {c : CtrId}

/-- After its wait, the fiber is between the jobs of its rounds. -/
theorem ManagerState.between_of_pastWait (s : ManagerState) (h : pc.pastWait = true) :
    s.between pc = true := by
  cases pc with
  | waitForCounter ctx caller d v pc => cases pc <;> first | rfl | cases h
  | cleanup pc caller => cases caller <;> first | rfl | cases h
  | waited => rfl
  | _ => cases h

/-- How a wait comes to be over. -/
theorem FiberStep.pastWait_cases (h : FiberStep opts s f tls pc act pc')
    (hover : pc'.pastWait = true) :
    pc.round = pc'.round ∧ (pc.pastWait = true ∨
      (∃ ctx caller d v, pc = .waitForCounter ctx caller d v .getValue ∧ s.value d = v) ∨
      (∃ ctx caller d v p x reg, pc = .call (.waitForCounter ctx caller v p) d x ∧
        (s.counters d).calls x = .addWaiting reg (.returned true)) ∨
      ∃ ctx caller d v p, pc = .waitForCounter ctx caller d v (.parked p)) := by
  cases h with
  | waitReached hv => exact ⟨rfl, .inr (.inl ⟨_, _, _, _, rfl, hv⟩)⟩
  | addReached hx => exact ⟨rfl, .inr (.inr (.inl ⟨_, _, _, _, _, _, _, rfl, hx⟩))⟩
  | waitResumed => exact ⟨rfl, .inr (.inr (.inr ⟨_, _, _, _, _, rfl⟩))⟩
  | @previousPool k | @previousWaiting k | @storeIdle k | @storeStored k =>
    cases k with
    | waitForCounter => exact ⟨rfl, .inl rfl⟩
    | _ => cases hover
  | deleteStored | nothingWait | cleanupWait => exact ⟨rfl, .inl rfl⟩
  | _ => cases hover

/-- An entry of a ready list has been there before, or is put there by the step. -/
theorem mem_ready_apply {e : ReadyFiber} (he : e ∈ (s.apply t f act).ready u) :
    e ∈ s.ready u ∨ u = t ∧ e ∈ act.readied s := by
  by_cases herase : ∃ k, act = .erase u k
  · obtain ⟨k, rfl⟩ := herase
    refine .inl ?_
    simp only [ManagerState.ready, ManagerState.apply, Function.update_self] at he
    exact List.mem_of_mem_eraseIdx he
  · rw [ManagerState.ready, readyFibers_apply s t f u fun k hk => herase ⟨k, hk⟩,
      List.mem_append] at he
    refine he.imp_right fun hnew => ?_
    split at hnew
    · next hut => exact ⟨hut, hnew⟩
    · cases hnew

/-- A call that pushes an entry is the scan of a modifier, which has found a registration. -/
theorem CounterCall.matched_of_pushes {b : BaseCounter} {call call' : CounterCall} {eff : Effect}
    (hn : call.next b = some (eff, call')) (hpush : eff.pushes ≠ []) :
    ∃ v, call.matched = some v := by
  rcases call with _ | ⟨reg, pc⟩ | ⟨op, _ | ⟨prev, v, pc⟩ | prev⟩
  · cases hn
  · revert hn
    simp only [CounterCall.next]
    fun_cases AddPc.next b reg pc <;> rintro ⟨⟩ <;> exact absurd rfl hpush
  · cases hn
    exact absurd rfl hpush
  · revert hn
    simp only [CounterCall.next, ModifyPc.next]
    fun_cases ScanPc.next b v pc <;> rintro ⟨⟩ <;> first | exact absurd rfl hpush | exact ⟨v, rfl⟩
  · cases hn

end Step

/-! ## The invariant -/

/-- Nobody is inside a call on the `TinyCounter` of a `WaitForSingle` call after its wait. While the
entry of the wait is in the ready list of a thread, only this thread can be inside the `Decrement`.
-/
structure OutlivesInv (n : ℕ) (s : ManagerState) : Prop where
  ended : (s.singles n).ended = true → s.Quiet (.tiny n)
  past : ∀ f, (s.fibers f).pc.round = some (.tiny n) → (s.fibers f).pc.pastWait = true →
    s.Quiet (.tiny n)
  resumed : ∀ f ctx caller v p,
    (s.fibers f).pc = .waitForCounter ctx caller (.tiny n) v (.parked p) →
    ¬ (s.flags p ≠ none ∧ s.flagFiber p = f) → s.Quiet (.tiny n)
  pushed : ∀ t g p x, (g, p) ∈ s.ready t → s.flagCall p = some (.tiny n, x) →
    ∀ w y, (s.fibers w).pc = .call .execute (.tiny n) y →
      ((s.counters (.tiny n)).calls y).inProgress = true → s.running t = some w

/-- What is known of a `TinyCounter` in every such run. -/
structure SingleFacts (opts : ManagerOptions) (n : ℕ) (s : ManagerState) : Prop where
  facts : InTurnInv (.tiny n) s
  roundEnd : RoundEndInv (.tiny n) s
  single : SingleInv n s
  rest : RestInv opts s

namespace OutlivesInv

variable {opts : ManagerOptions} {s s' : ManagerState} {t f n : ℕ} {act : Act} {pc' : FiberPc}

/-- At zero, only the fiber of the round can begin a call. -/
private theorem not_begin (hk : SingleFacts opts n s) (hz : s.value (.tiny n) = 0)
    (hnot : (s.fibers f).pc.round = some (.tiny n) → ∀ use, (s.fibers f).pc ≠ .begin use (.tiny n))
    (use : CounterUse) : (s.fibers f).pc ≠ .begin use (.tiny n) := by
  intro hpc
  have hown := hk.facts.rounds.own f
  rw [hpc] at hown
  cases use with
  | scheduleJob ctx caller =>
    have hcaller : caller = .single n := hown
    exact hnot (by rw [hpc, FiberPc.round, hcaller]; rfl) _ hpc
  | waitForCounter ctx caller =>
    have hcaller : caller = .single n := hown.1
    exact hnot (by rw [hpc, FiberPc.round, hcaller]; rfl) _ hpc
  | modify => cases hown
  | execute =>
    -- the fiber would still have the job
    have howed := (hk.roundEnd.of_zero hk.facts.outstanding hz).2 f
    rw [ManagerState.owed, hpc] at howed
    simp [ManagerState.owes] at howed

/-- Where nobody is inside a call, nobody is after a step that begins none. -/
private theorem quiet_step (hk : SingleFacts opts n s) (hq : s.Quiet (.tiny n))
    (h : FiberStep opts s f t (s.fibers f).pc act pc')
    (hm : CounterMove s s' f (s.fibers f).pc pc') (hself : (s'.fibers f).pc = pc')
    (hother : ∀ g, g ≠ f → s'.fibers g = s.fibers g)
    (hbegin : ∀ use, (s.fibers f).pc ≠ .begin use (.tiny n)) : s'.Quiet (.tiny n) := by
  intro w use x hw
  by_cases hwf : w = f
  · subst hwf
    rw [hself] at hw
    rcases h.counter_cases with ⟨use', c, y, hpc, hpc', -⟩ | ⟨use', c, y, hpc, hpc', hx, -⟩ |
      ⟨-, hno⟩
    · cases hw.symm.trans hpc'
      exact absurd hpc (hbegin use)
    · cases hw.symm.trans hpc'
      rw [hq w use x hpc] at hx
      cases hx
    · exact absurd hw (hno _ _ _)
  · rw [hother w hwf] at hw
    rw [hk.facts.outstanding.calls.calls_other hm hwf hw]
    exact hq w use x hw

/-- A wait that is not left early is left when nobody is inside a call on its counter. -/
private theorem quiet_of_not_leaves (hk : SingleFacts opts n s) {a : ManagerAction}
    (hrun : s.running a.thread = some f) (hleaves : s.leaves (s.fibers f).pc = some n)
    (hearly : leavesEarly opts s a = false) : s.Quiet (.tiny n) := by
  intro w use x hpc
  by_contra hprogress
  rw [Bool.not_eq_false] at hprogress
  simp only [leavesEarly, hrun, hleaves, decide_eq_false_iff_not] at hearly
  refine hearly ?_
  -- a fiber in a call is executed by a thread
  have hrunning : ∃ u, s.running u = some w := by
    by_contra hno
    have hrest := hk.rest.rest w fun u hu => hno ⟨u, hu⟩
    rw [hpc] at hrest
    cases hrest
  obtain ⟨u, hu⟩ := hrunning
  exact ⟨u, hk.rest.lt_of_running hu, by simp [ManagerState.counterCall, hu, hpc, hprogress]⟩

/-- How a `WaitForSingle` call comes to be over. -/
private theorem ended_of_apply (h : ((s.apply t f act).singles n).ended = true) :
    (s.singles n).ended = true ∨ act = .endWait (.single n) ∨ act = .throwThrough (.single n) := by
  cases act with
  | beginSingle m job =>
    by_cases hnm : n = m
    · subst hnm
      simp [ManagerState.apply, SingleCall.ended] at h
    · exact .inl (by simpa [ManagerState.apply, hnm] using h)
  | endWait caller | throwThrough caller =>
    cases caller with
    | single m =>
      by_cases hnm : n = m
      · subst hnm
        simp
      · exact .inl (by simpa [ManagerState.apply, hnm] using h)
    | _ => exact .inl h
  | _ => exact .inl h

/-- Nobody is inside a call after the end. -/
private theorem ended_step (hi : OutlivesInv n s) (hk : SingleFacts opts n s)
    (h : FiberStep opts s f t (s.fibers f).pc act pc')
    (hm : CounterMove s s' f (s.fibers f).pc pc') (hself : (s'.fibers f).pc = pc')
    (hother : ∀ g, g ≠ f → s'.fibers g = s.fibers g)
    (hended : ((s.apply t f act).singles n).ended = true) : s'.Quiet (.tiny n) := by
  rcases ended_of_apply hended with hold | rfl | rfl
  · have hnobody := hk.facts.rounds.round_ne (c := .tiny n) (by
      cases hn : s.singles n <;> simp [ManagerState.busy, hn]
      rw [hn] at hold
      cases hold)
    exact quiet_step hk (hi.ended hold) h hm hself hother
      (not_begin hk (hk.roundEnd.outside hnobody) fun hin => absurd hin (hnobody f))
  -- the wait was over
  · have hpc : ∃ ctx, (s.fibers f).pc = .waited ctx (.single n) := by
      generalize hb : Act.endWait (.single n) = act at h
      generalize (s.fibers f).pc = pc at h
      cases h with
      | waitedSingle => cases hb; exact ⟨_, rfl⟩
      | @«begin» use => cases use <;> cases hb
      | _ => cases hb
    obtain ⟨ctx, hpc⟩ := hpc
    exact quiet_step hk (hi.past f (by rw [hpc]; rfl) (by rw [hpc]; rfl)) h hm hself hother
      (by rw [hpc]; simp)
  -- no exception goes through the round
  · have hpc : ∃ ctx, (s.fibers f).pc = .threw ctx (.single n) := by
      generalize hb : Act.throwThrough (.single n) = act at h
      generalize (s.fibers f).pc = pc at h
      cases h with
      | threw => cases hb; exact ⟨_, rfl⟩
      | @«begin» use => cases use <;> cases hb
      | _ => cases hb
    obtain ⟨ctx, hpc⟩ := hpc
    exact absurd rfl (hk.roundEnd.caught f ctx _ hpc)

/-- Nobody is inside a call when the wait is over. -/
private theorem past_step (hi : OutlivesInv n s) (hk : SingleFacts opts n s) {a : ManagerAction}
    (hrun : s.running a.thread = some f) (h : FiberStep opts s f t (s.fibers f).pc act pc')
    (hm : CounterMove s s' f (s.fibers f).pc pc') (hself : (s'.fibers f).pc = pc')
    (hother : ∀ g, g ≠ f → s'.fibers g = s.fibers g) (hearly : leavesEarly opts s a = false)
    {g : ℕ} (hin : (s'.fibers g).pc.round = some (.tiny n))
    (hover : (s'.fibers g).pc.pastWait = true) : s'.Quiet (.tiny n) := by
  by_cases hgf : g = f
  · subst hgf
    rw [hself] at hin hover
    obtain ⟨hround, hcases⟩ := h.pastWait_cases hover
    rw [hin] at hround
    have hown := hk.facts.rounds.own g
    -- the caller is the `WaitForSingle` call, and waits for its counter
    have hcaller : ∀ {caller : Caller} {d : CtrId}, caller.ctr = some (.tiny n) →
        caller = d.owner → caller = .single n ∧ d = .tiny n := by
      rintro caller d hctr rfl
      obtain rfl := CtrId.eq_of_owner_ctr hctr
      exact ⟨rfl, rfl⟩
    -- it sees the value, has registered in vain, or has been resumed
    have hquiet : s.Quiet (.tiny n) ∧ ∀ use, (s.fibers g).pc ≠ .begin use (.tiny n) := by
      rcases hcases with hbefore | ⟨ctx, caller, d, v, hpc, hv⟩ |
        ⟨ctx, caller, d, v, p, x, reg, hpc, hret⟩ | ⟨ctx, caller, d, v, p, hpc⟩
      · refine ⟨hi.past g hround hbefore, fun use hpc => ?_⟩
        rw [hpc] at hbefore
        cases hbefore
      · rw [hpc] at hround hown
        obtain ⟨rfl, rfl⟩ := hcaller hround hown.1
        exact ⟨quiet_of_not_leaves hk hrun (by rw [hpc]; simp [ManagerState.leaves, hv]) hearly,
          by rw [hpc]; simp⟩
      · rw [hpc] at hround hown
        obtain ⟨rfl, rfl⟩ := hcaller hround hown.1
        exact ⟨quiet_of_not_leaves hk hrun (by rw [hpc]; simp [ManagerState.leaves, hret]) hearly,
          by rw [hpc]; simp⟩
      · rw [hpc] at hround hown
        obtain ⟨rfl, rfl⟩ := hcaller hround hown.1
        refine ⟨hi.resumed g ctx _ v p hpc fun hflag => ?_, by rw [hpc]; simp⟩
        -- a fiber that runs is awake
        have hawake := hk.facts.lifetime.fits (.run a.thread) g hrun p hflag.1 hflag.2
        rw [hpc] at hawake
        cases hawake
    exact quiet_step hk hquiet.1 h hm hself hother hquiet.2
  · rw [hother g hgf] at hin hover
    have hbetween := s.between_of_pastWait hover
    exact quiet_step hk (hi.past g hin hover) h hm hself hother
      (not_begin hk (hk.roundEnd.between g hin hbetween) fun hf =>
        absurd (hk.facts.rounds.exclusive g f _ hin hf) hgf)

/-- Nobody is inside a call when the fiber has been taken to be resumed. -/
private theorem resumed_step (hi : OutlivesInv n s) (hk : SingleFacts opts n s)
    (hrun : s.running t = some f) (h : FiberStep opts s f t (s.fibers f).pc act pc')
    (hm : CounterMove s s' f (s.fibers f).pc pc') (hself : (s'.fibers f).pc = pc')
    (hother : ∀ g, g ≠ f → s'.fibers g = s.fibers g) {g : ℕ} {ctx : Ctx} {caller : Caller}
    {v : CounterUnit} {p : FlagPtr}
    (hg : (s'.fibers g).pc = .waitForCounter ctx caller (.tiny n) v (.parked p))
    (hgone : ¬ ((s.apply t f act).flags p ≠ none ∧ (s.apply t f act).flagFiber p = g)) :
    s'.Quiet (.tiny n) := by
  by_cases hgf : g = f
  · subst hgf
    exact absurd (RoundEndInv.flag_of_parked hk.facts h (hself.symm.trans hg)) hgone
  rw [hother g hgf] at hg
  have hin : (s.fibers g).pc.round = some (.tiny n) := by
    have hown := hk.facts.rounds.own g
    rw [hg] at hown
    rw [hg]
    exact InTurnInv.round_of_owner (by simp [CtrId.owner]) hown.1
  obtain ⟨hzero, hcases⟩ := hk.roundEnd.gone_cases hk.facts hrun h hgf hg hgone
  have hquiet : s.Quiet (.tiny n) := by
    rcases hcases with hold | ⟨hmem, ⟨x, hcall⟩, k, rfl⟩
    · exact hi.resumed g ctx caller v p hg hold
    intro w use y hpc
    by_contra hprogress
    rw [Bool.not_eq_false] at hprogress
    have hown := hk.facts.rounds.own w
    rw [hpc] at hown
    -- the fiber of the round waits, so that only the `Decrement` is left
    have hnot : ∀ caller : Caller, (s.fibers w).pc.round = caller.ctr → caller ≠ .single n := by
      rintro caller hround rfl
      have hwg := hk.facts.rounds.exclusive w g _ hround hin
      rw [hwg, hg] at hpc
      cases hpc
    cases use with
    | scheduleJob ctx caller => exact hnot caller (by rw [hpc]; rfl) hown
    | waitForCounter ctx caller => exact hnot caller (by rw [hpc]; rfl) hown.1
    | modify => cases hown
    -- the scan is on the thread that takes the fiber, which is in `GetNextJob`
    | execute =>
      have hrunning := hi.pushed t g p x hmem hcall w y hpc hprogress
      obtain rfl : f = w := Option.some.inj (hrun.symm.trans hrunning)
      rw [hpc] at h
      generalize hb : Act.erase t k = act at h
      cases h <;> cases hb
  exact quiet_step hk hquiet h hm hself hother (not_begin hk hzero fun hf =>
    absurd (hk.facts.rounds.exclusive g f _ hin hf) hgf)

/-- A flag in a ready list is not registered again. -/
private theorem flagCall_of_pushed (hk : SingleFacts opts n s)
    (h : FiberStep opts s f t (s.fibers f).pc act pc') {u g : ℕ} {p : FlagPtr}
    (hmem : (g, p) ∈ s.ready u) : (s.apply t f act).flagCall p = s.flagCall p := by
  obtain ⟨hp, -, d, a, hcall, -⟩ := hk.facts.manager.flag.entries.entry u g p hmem
  have huse := hk.facts.manager.flag.uses f
  have hflag := h.flagStep
  generalize (s.fibers f).pc.flagUse = use at huse hflag
  generalize pc'.flagUse = use' at hflag
  cases hflag with
  | quiet hact => rw [(EntryInv.apply_keepsFlags hact s t f).2.2.1]
  | @newStored q _ _ hq =>
    have hpq : p ≠ q := by
      rintro rfl
      exact hp hq
    simp [ManagerState.apply, hpq]
  | @«begin» q =>
    have hpq : p ≠ q := by
      rintro rfl
      rw [huse.2.2] at hcall
      cases hcall
    simp [ManagerState.apply, ManagerState.flagCallAfter, hpq]
  | _ => rfl

/-- The value is zero while the entry of the wait is in a ready list. -/
private theorem value_of_pushed (hk : SingleFacts opts n s) {u g : ℕ} {p : FlagPtr} {x : ℕ}
    (hmem : (g, p) ∈ s.ready u) (hcall : s.flagCall p = some (.tiny n, x)) :
    s.value (.tiny n) = 0 := by
  obtain ⟨hp, -, d, a, hcall', hdel⟩ := hk.facts.manager.flag.entries.entry u g p hmem
  obtain ⟨rfl, rfl⟩ : CtrId.tiny n = d ∧ x = a := by simpa using hcall.symm.trans hcall'
  obtain ⟨y, -, hy⟩ := (hk.facts.manager.flag.entries.counters (.tiny n)).claimed_of_delivered hdel
  exact hk.roundEnd.claimed p x y hp hcall hy

/-- An entry that is put into a ready list for the `TinyCounter` is put there by the `Decrement`. -/
private theorem decrement_of_readied (hk : SingleFacts opts n s)
    (h : FiberStep opts s f t (s.fibers f).pc act pc') {g x : ℕ} {p : FlagPtr}
    (hnew : (g, p) ∈ act.readied s) (hcall : (s.apply t f act).flagCall p = some (.tiny n, x)) :
    ∃ z a, act = .counter (.tiny n) a ∧ (s.fibers f).pc = .call .execute (.tiny n) z ∧
      ((s.counters (.tiny n)).calls z).modified = true ∧ s.value (.tiny n) = 0 := by
  cases act with
  | counter d a =>
    cases a with
    | step z =>
      obtain ⟨⟨use, hpc⟩, hprogress⟩ := h.counterCall_of_step rfl
      obtain ⟨eff, call, hn⟩ := CounterCall.exists_next (b := (s.counters d).ctr) hprogress
      have hpushes : (g, p) ∈ eff.pushes := by
        simpa [Act.readied, CounterState.readied, hn] using hnew
      have hctr := hk.facts.manager.flag.entries.counters d
      rcases hctr.delivered_perform hn with ⟨hnone, -⟩ | ⟨b, hpush, hclaim, hmod, hnot, -⟩
      · rw [hnone] at hpushes
        cases hpushes
      -- the entry is that of a registration on the counter
      have hd : d = .tiny n := by
        rw [hpush, List.mem_singleton] at hpushes
        have hregistered := hctr.claims.registered b z hclaim
        cases hb : (s.counters d).calls b with
        | addWaiting reg pc =>
          have hreg : ((s.counters d).calls b).registration = some reg := by rw [hb]; rfl
          simp only [CounterCall.entry, hreg, Option.map_some, Option.getD_some,
            Registration.entry, Prod.mk.injEq] at hpushes
          obtain ⟨-, -, hflagCall⟩ := hk.facts.manager.flag.entries.call d b reg hreg
            (hctr.not_ownResolved_of_claimed hmod hclaim) hnot
          rw [← hpushes.2] at hflagCall
          have hsame := hflagCall.symm.trans hcall
          simp only [Option.some.injEq, Prod.mk.injEq] at hsame
          exact hsame.1
        | _ => simp [hb, CounterCall.registered] at hregistered
      subst hd
      obtain ⟨v, hmatched⟩ := CounterCall.matched_of_pushes hn (by rw [hpush]; simp)
      obtain ⟨rfl, hmodified, hzero⟩ := hk.single.value_of_matched hk.facts.outstanding.calls
        hk.facts.rounds hpc hmatched
      exact ⟨z, _, rfl, hpc, hmodified, hzero⟩
    | _ => cases hnew
  | _ => cases hnew

/-- While the entry of the wait is in a ready list, only its thread can be inside the `Decrement`.
-/
private theorem pushed_step (hi : OutlivesInv n s) (hk : SingleFacts opts n s)
    (hrun : s.running t = some f) (h : FiberStep opts s f t (s.fibers f).pc act pc')
    (hm : CounterMove s s' f (s.fibers f).pc pc') (hself : (s'.fibers f).pc = pc')
    (hother : ∀ g, g ≠ f → s'.fibers g = s.fibers g)
    (hrunning : ∀ u, u ≠ t → s'.running u = s.running u)
    (hlocal : ∀ d a, act = .counter d a → s'.running = s.running) {u g x : ℕ} {p : FlagPtr}
    (hmem : (g, p) ∈ (s.apply t f act).ready u)
    (hcall : (s.apply t f act).flagCall p = some (.tiny n, x)) {w y : ℕ}
    (hpc : (s'.fibers w).pc = .call .execute (.tiny n) y)
    (hprogress : ((s'.counters (.tiny n)).calls y).inProgress = true) :
    s'.running u = some w := by
  -- at zero, a fiber in the `Decrement` has been there before
  have hbefore : s.value (.tiny n) = 0 → ((s.fibers w).pc = .call .execute (.tiny n) y ∧
      ((s.counters (.tiny n)).calls y).inProgress = true) ∧
        (w = f → ∃ d a, act = .counter d a) := by
    intro hz
    by_cases hwf : w = f
    · subst hwf
      rw [hself] at hpc
      rcases h.counter_cases with ⟨use, d, z, hold, hnew, -⟩ | ⟨use, d, z, hold, hnew, hx, hact⟩ |
        ⟨-, hno⟩
      · cases hpc.symm.trans hnew
        have howed := (hk.roundEnd.of_zero hk.facts.outstanding hz).2 w
        rw [ManagerState.owed, hold] at howed
        simp [ManagerState.owes] at howed
      · cases hpc.symm.trans hnew
        exact ⟨⟨hold, hx⟩, fun _ => ⟨_, _, hact⟩⟩
      · exact absurd hpc (hno _ _ _)
    · rw [hother w hwf] at hpc
      rw [hk.facts.outstanding.calls.calls_other hm hwf hpc] at hprogress
      exact ⟨⟨hpc, hprogress⟩, fun h => absurd h hwf⟩
  -- the entry has been there before, or the step pushes it
  rcases mem_ready_apply hmem with hold | ⟨rfl, hnew⟩
  · have hcall₀ := (flagCall_of_pushed hk h hold).symm.trans hcall
    obtain ⟨⟨hpc₀, hprogress₀⟩, hact⟩ := hbefore (value_of_pushed hk hold hcall₀)
    have hw := hi.pushed u g p x hold hcall₀ w y hpc₀ hprogress₀
    by_cases hut : u = t
    · subst hut
      obtain rfl : f = w := Option.some.inj (hrun.symm.trans hw)
      obtain ⟨d, a, hact⟩ := hact rfl
      rw [hlocal d a hact]
      exact hrun
    · rw [hrunning u hut]
      exact hw
  · obtain ⟨z, a, hact, hpcf, hmod, hzero⟩ := decrement_of_readied hk h hnew hcall
    obtain ⟨⟨hpc₀, -⟩, -⟩ := hbefore hzero
    -- only one fiber decrements
    have hmodified : ((s.counters (.tiny n)).calls y).modified = true := by
      have howed := (hk.roundEnd.of_zero hk.facts.outstanding hzero).2 w
      rw [ManagerState.owed, hpc₀] at howed
      simpa [ManagerState.owes] using howed
    obtain rfl := hk.single.one f w z y hpcf hmod hpc₀ hmodified
    rw [hlocal _ a hact]
    exact hrun

/-- Every step in which no `WaitForSingle` call leaves early keeps the invariant. -/
theorem step {a : ManagerAction} (hi : OutlivesInv n s) (hk : SingleFacts opts n s)
    (hearly : leavesEarly opts s a = false) (hs : managerStep opts s a = some s') :
    OutlivesInv n s' := by
  have hrunning := (managerStep_moves hs).others
  rcases managerStep_cases hs with ⟨f, act, pc', hrun, hn, hs'⟩ | ⟨act, pc', hrun, hn, hs'⟩
  · have h := fiberStep_of_next hn
    rw [hk.facts.manager.own.onThread a.thread f hrun] at h hs'
    have hm : CounterMove s s' f (s.fibers f).pc pc' := hs' ▸ h.counterMove (t := a.thread) _
    have hself : (s'.fibers f).pc = pc' := by simp [hs']
    have hother : ∀ g, g ≠ f → s'.fibers g = s.fibers g := fun g hg => by simp [hs', hg]
    refine ⟨fun hended => ?_, fun g hin hover => ?_, fun g ctx caller v p hg hgone => ?_,
      fun u g p x hmem hcall w y hpc hprogress => ?_⟩
    · refine hi.ended_step hk h hm hself hother (t := a.thread) ?_
      rwa [hs'] at hended
    · exact hi.past_step hk hrun h hm hself hother hearly hin hover
    · refine hi.resumed_step hk hrun h hm hself hother hg ?_
      rwa [hs'] at hgone
    · have hlocal : ∀ d b, act = .counter d b → s'.running = s.running := by
        rintro d b rfl
        rw [hs']
        rfl
      have hmem' : (g, p) ∈ (s.apply a.thread f act).ready u := by rwa [hs'] at hmem
      have hcall' : (s.apply a.thread f act).flagCall p = some (.tiny n, x) := by rwa [hs'] at hcall
      exact hi.pushed_step hk hrun h hm hself hother hrunning hlocal hmem' hcall' hpc hprogress
  -- the own code of a thread does nothing to counters and flags
  · have hstep := threadStep_of_next hn
    have hkeeps : act.keepsFlags = true ∧ (s.apply a.thread noFiber act).singles = s.singles := by
      generalize s.threads a.thread = pc at hstep
      cases hstep <;> exact ⟨rfl, rfl⟩
    obtain ⟨hflags, hff, hfc, hctr, hready⟩ :=
      EntryInv.apply_keepsFlags hkeeps.1 s a.thread noFiber
    have hfibers : s'.fibers = s.fibers := by
      rw [hs']
      exact ManagerState.apply_fibers ..
    have hquiet : s.Quiet (.tiny n) → s'.Quiet (.tiny n) := by
      intro hq w use x hpc
      rw [hfibers] at hpc
      rw [hs', ManagerState.setThread_counters, hctr]
      exact hq w use x hpc
    refine ⟨fun hended => ?_, fun g hin hover => ?_, fun g ctx caller v p hg hgone => ?_,
      fun u g p x hmem hcall w y hpc hprogress => ?_⟩
    · rw [hs', ManagerState.setThread_singles, hkeeps.2] at hended
      exact hquiet (hi.ended hended)
    · rw [hfibers] at hin hover
      exact hquiet (hi.past g hin hover)
    · rw [hfibers] at hg
      rw [hs', ManagerState.setThread_flags, ManagerState.setThread_flagFiber, hflags, hff] at hgone
      exact hquiet (hi.resumed g ctx caller v p hg hgone)
    · have hmem₀ : (g, p) ∈ s.ready u := by
        rw [← hready u]
        rwa [hs'] at hmem
      rw [hs', ManagerState.setThread_flagCall, hfc] at hcall
      rw [hfibers] at hpc
      rw [hs', ManagerState.setThread_counters, hctr] at hprogress
      have hw := hi.pushed u g p x hmem₀ hcall w y hpc hprogress
      have hut : u ≠ a.thread := by
        rintro rfl
        rw [hrun] at hw
        cases hw
      rw [hrunning u hut]
      exact hw

theorem start (opts : ManagerOptions) (n : ℕ) : OutlivesInv n (.start opts) where
  ended h := by cases h
  past _ h := by cases h
  resumed _ _ _ _ _ h := by cases h
  pushed _ _ _ _ h := by cases h

end OutlivesInv

/-! ## Whole runs -/

section Run

variable {opts : ManagerOptions} {h : History ManagerState ManagerAction} {s : ManagerState}
  {a : ManagerAction}

/-- No `ScheduleJob` of a job that is bound to a `TinyCounter` throws. -/
theorem throughJobs_of_failsSingle (hrounds : RoundInv s) (hok : failsSingle s a = false) (n : ℕ) :
    ThroughJobs (.tiny n) h s a := by
  intro f hrun
  rw [Option.mem_def] at hrun
  have hown := hrounds.own f
  simp only [failsSingle, hrun] at hok
  cases hpc : (s.fibers f).pc with
  | enqueue ctx caller prio job =>
    rw [hpc] at hok hown
    by_cases hjob : job.counter = some (.tiny n)
    · obtain rfl := hown.1 _ hjob
      have hnot : (a.choice == .fail) = false := hok
      simp [Choice.throughJobs, bne, hnot]
    · simp [Choice.throughJobs, hjob]
  | body ctx => cases a.choice with
    | op bodyOp => cases bodyOp <;> rfl
    | _ => rfl
  | _ => rfl

/-- A step on a `TinyCounter` that is gone is one of a fiber inside a call on it. -/
theorem usesDeadCounter_eq_false (hi : ∀ n, OutlivesInv n s) : usesDeadCounter s a = false := by
  rw [usesDeadCounter]
  split
  · next n x hcounter =>
    obtain ⟨w, use, -, hpc, hprogress⟩ := exists_of_counterCall hcounter
    by_contra hended
    rw [Bool.not_eq_false] at hended
    rw [(hi n).ended hended w use x hpc] at hprogress
    cases hprogress
  · rfl

/-- Every such run is orderly. -/
theorem outlivesInv_of_run (hr : (managerSystem opts).Run (Punctual opts) h s) :
    ∀ n, (managerSystem opts).Run (Unthrown (.tiny n)) h s ∧ OutlivesInv n s := by
  induction hr with
  | init hs =>
    obtain rfl := hs
    exact fun n => ⟨.init rfl, .start opts n⟩
  | step hr hok hs ih =>
    obtain ⟨hhere, hfresh, hrefuses, hfails, hearly⟩ := hok
    have hdead : ∀ a, usesDeadCounter _ a = false :=
      fun _ => usesDeadCounter_eq_false fun n => (ih n).2
    intro n
    obtain ⟨hrun, hi⟩ := ih n
    obtain ⟨hturn, hsingle⟩ := inTurn_of_single hrun
    have hk : SingleFacts opts n _ :=
      { facts := inTurnInv_of_run hturn
        roundEnd := roundEndInv_of_run (by simp [CtrId.owner]) hturn
        single := hsingle
        rest := restInv_of_run hr }
    exact ⟨hrun.step ⟨⟨⟨hhere, hfresh, hdead _⟩, hrefuses⟩,
      throughJobs_of_failsSingle hk.facts.rounds hfails n⟩ hs, hi.step hk hearly hs⟩

end Run

/-- In every run in which no `WaitForSingle` call leaves its wait by itself while a thread is inside
a call on its `TinyCounter` (and no fiber is resumed inside a `GetNextJob` called on another thread,
no claim is stale, and neither its wait nor its job is refused): when a `WaitForSingle` call has
ended, nobody is inside a call on its `TinyCounter`, and no step uses one that is gone. -/
theorem tiny_counter_outlives {opts : ManagerOptions} {h : History ManagerState ManagerAction}
    {s : ManagerState} (hr : (managerSystem opts).Run (Punctual opts) h s) :
    (∀ n, (s.singles n).ended = true → s.Quiet (.tiny n)) ∧ ∀ a, usesDeadCounter s a = false :=
  ⟨fun n => (outlivesInv_of_run hr n).2.ended,
    fun _ => usesDeadCounter_eq_false fun n => (outlivesInv_of_run hr n).2⟩

theorem tiny_counter_outlives_resumed :
    ∃ h s, (managerSystem twoWorkers).Run (Punctual twoWorkers) h s ∧
      s.singles 0 = .returned ⟨some 7, some (.tiny 0)⟩ ∧ s.Quiet (.tiny 0) := by
  have hrun : ∃ (h : History ManagerState ManagerAction) (s : ManagerState),
      (managerSystem twoWorkers).Run (Punctual twoWorkers) h s ∧
        s.singles 0 = .returned ⟨some 7, some (.tiny 0)⟩ :=
    System.exists_run_of_trace_by (managerStepEval_eq _) rfl mainResumes (by decide +kernel)
  obtain ⟨h, s, hr, hret⟩ := hrun
  exact ⟨h, s, hr, hret, (tiny_counter_outlives hr).1 0 (by rw [hret]; rfl)⟩

/-- In every such run, `WaitForSingle` is sound about its `TinyCounter`: when a call has returned,
the delegate of its job has been called once and has finished, and nobody is inside a call on its
counter; and no step of the run is one on the counter of a call that had ended before. -/
theorem single_sound {opts : ManagerOptions} {h : History ManagerState ManagerAction}
    {s : ManagerState} (hr : (managerSystem opts).Run (Punctual opts) h s) :
    (∀ n job, s.singles n = .returned job →
      s.delegatesOf (.tiny n) = job.events ∧ s.Quiet (.tiny n)) ∧
      ∀ e ∈ h, usesDeadCounter e.1 e.2 = false := by
  refine ⟨fun n job hjob => ?_, fun e he => ?_⟩
  · obtain ⟨hrun, hi⟩ := outlivesInv_of_run hr n
    exact ⟨(SingleInv.executed_of_returned hrun hjob).1, hi.ended (by rw [hjob]; rfl)⟩
  · obtain ⟨h', hr'⟩ := hr.before he
    exact usesDeadCounter_eq_false fun n => (outlivesInv_of_run hr' n).2

theorem single_sound_resumed :
    ∃ h s, (managerSystem twoWorkers).Run (Punctual twoWorkers) h s ∧
      s.delegatesOf (.tiny 0) =
        [.called ⟨some 7, some (.tiny 0)⟩, .finished ⟨some 7, some (.tiny 0)⟩] ∧
      s.Quiet (.tiny 0) ∧ ∀ e ∈ h, usesDeadCounter e.1 e.2 = false := by
  have hrun : ∃ (h : History ManagerState ManagerAction) (s : ManagerState),
      (managerSystem twoWorkers).Run (Punctual twoWorkers) h s ∧
        s.singles 0 = .returned ⟨some 7, some (.tiny 0)⟩ :=
    System.exists_run_of_trace_by (managerStepEval_eq _) rfl mainResumes (by decide +kernel)
  obtain ⟨h, s, hr, hret⟩ := hrun
  obtain ⟨hall, hdead⟩ := single_sound hr
  exact ⟨h, s, hr, (hall 0 _ hret).1, (hall 0 _ hret).2, hdead⟩

/-- Thread 1 has decremented the `TinyCounter` when `WaitForCounter` looks at it: `WaitForSingle`
returns before the scan. -/
def leavesBeforeScan : List ManagerAction :=
  threadSteps 0 7 ++ [⟨0, .op (.waitForSingle .normal (some 7) 0)⟩, ⟨0, .call 0⟩] ++
    threadSteps 0 6 ++ threadSteps 1 14 ++ [⟨1, .op .finish⟩, ⟨1, .call 1⟩] ++
    threadSteps 1 1 ++ threadSteps 0 2

/-- The scan goes on with the `TinyCounter` of the call that has returned, which has left its wait
early; the run meets the rest of the condition. -/
theorem scan_on_dead_counter :
    ∃ h s, (managerSystem twoWorkers).Run (fun _ s a => resumesElsewhere s a = false ∧
        claimsStale s a = false ∧ refusesWait s a.thread = false ∧ failsSingle s a = false) h s ∧
      ∃ e ∈ h, e.2.thread = 1 ∧ e.1.singles 0 = .returned ⟨some 7, some (.tiny 0)⟩ ∧
        (e.1.counterCall 1).map Prod.fst = some (.tiny 0) :=
  System.exists_run_of_trace_by (managerStepEval_eq _) rfl (leavesBeforeScan ++ threadSteps 1 1)
    (by decide +kernel)

end NomadTasks
