import NomadTasks.Thread.SpawnInv

/-!
# Every thread finds its own `TLS`

`GetCurrentTLS` searches the `Thread`s for the identifier of the thread that it runs on, while
others may be spawned. Every pointer to a `TLS` in the manager comes from there or from the `Thread`
that has been passed to the callback.

* `getCurrentTls_own`: when a callback begins, its `Thread` is complete, and every `GetCurrentTLS`
  returns the `TLS` of the thread that has called it.
* `spawn_twice_waits`, `reused_id_finds_other`: what goes wrong otherwise.
* `launch_reaches_callback`: a thread that has been created is never stuck before its callback.
-/

namespace NomadTasks

open Transition

/-! ## The results -/

/-- Every `GetCurrentTLS` has returned the `TLS` of the `Thread` of its thread, or `nullptr` if the
thread has none, and no two threads have the same; when a callback is called, it is the one that
`Spawn` has been given, and everything in its `Thread` is in place; nobody waits for
`_cvReceivedId`, and no `SetupThread` goes wrong. -/
structure FindsOwnTls (osId : ℕ → ThreadId) (s : SpawnState) : Prop where
  found : ∀ k i, s.pc k = .found i → i = s.home k
  alone : ∀ k k' i, s.home k = some i → s.home k' = some i → k = k'
  called : ∀ k i callback, s.pc k = .launch i (.call callback) →
    s.home k = some i ∧ (s.thread i).id = osId k ∧ (s.thread i).handle = some (.thread k) ∧
      ∃ userdata, s.given k = some (some callback, userdata) ∧ (s.thread i).userdata = userdata
  waits : ∀ k i callback, s.pc k ≠ .launch i (.wait callback)
  assertion : ∀ k, s.pc k ≠ .failed

section Run

variable {n : ℕ} {osId : ℕ → ThreadId} {h : History SpawnState SpawnAction} {s : SpawnState}

/-- Every run finds the right `TLS`, if no `Thread` gets two threads and no identifier that a
`Thread` still has is used again. -/
theorem getCurrentTls_own (hr : (spawnSystem n osId).Run (OwnThreads n osId) h s) :
    FindsOwnTls osId s := by
  have hi := spawnInv_of_run hr
  refine ⟨fun k i hpc => ?_, fun k k' i hk hk' => ?_, fun k i callback hpc => ?_,
    fun k i callback hpc => ?_, fun k hpc => ?_⟩
  · have hok := hi.pc k
    rw [hpc] at hok
    exact hok.2
  · rcases (hi.home k i hk).2 with h₁ | ⟨v, h₁⟩ <;>
      rcases (hi.home k' i hk').2 with h₂ | ⟨w, h₂⟩ <;>
      rw [h₁] at h₂ <;> cases h₂ <;> rfl
  · have hok := hi.pc k
    rw [hpc] at hok
    obtain ⟨hhome, htaken, userdata, hgiven⟩ := hok
    have huse := hi.use i
    rw [htaken] at huse
    obtain ⟨-, hid, -, hhas, hhandle⟩ := huse
    exact ⟨hhome, hid, hhandle (by simp [hgiven]), userdata, hgiven, (hhas _ _ hgiven).2⟩
  · have hok := hi.pc k
    rw [hpc] at hok
    exact hok.2
  · have hok := hi.pc k
    rw [hpc] at hok
    exact hok

end Run

/-! ## Runs of the main thread and a worker -/

/-- Every thread has its name as its identifier. -/
def ownIds (k : ℕ) : ThreadId := BitVec.ofNat 32 k

/-- `n` steps of thread `u`. -/
def osSteps (u n : ℕ) : List SpawnAction := List.replicate n ⟨u, .step⟩

/-- `Run` sets up the main thread, and calls `Spawn` on `_threads[1]` up to `CreateThread`. -/
def mainSpawns : List SpawnAction :=
  [⟨0, .fromCurrentThread 0⟩] ++ osSteps 0 2 ++ [⟨0, .spawn 1 (some 7) 9⟩] ++ osSteps 0 5 ++
    [⟨0, .created 1⟩]

/-- The new thread runs first, and waits for the mutex; then it calls `GetCurrentTLS`. -/
theorem getCurrentTls_own_worker :
    ∃ h s, (spawnSystem 2 ownIds).Run (OwnThreads 2 ownIds) h s ∧
      s.pc 1 = .found (some 1) ∧ FindsOwnTls ownIds s := by
  have hrun : ∃ (h : History SpawnState SpawnAction) (s : SpawnState),
      (spawnSystem 2 ownIds).Run (OwnThreads 2 ownIds) h s ∧ s.pc 1 = .found (some 1) :=
    System.exists_run_of_trace ⟨by decide, rfl⟩ (mainSpawns ++ osSteps 1 1 ++ osSteps 0 3 ++
      osSteps 1 4 ++ [⟨1, .getCurrentTls⟩] ++ osSteps 1 2) (by decide +kernel)
  obtain ⟨h, s, hr, hfound⟩ := hrun
  exact ⟨h, s, hr, hfound, getCurrentTls_own hr⟩

/-- `Spawn` is called on the same `Thread` once more: the first thread finds `UINT32_MAX`, and waits
after both have notified it. -/
theorem spawn_twice_waits :
    ∃ h s, (spawnSystem 2 ownIds).Run (fun _ _ _ => True) h s ∧
      s.pc 1 = .launch 1 (.wait 7) ∧ s.pc 0 = .code ∧ s.pc 2 = .code :=
  System.exists_run_of_trace ⟨by decide, rfl⟩ (mainSpawns ++ osSteps 0 5 ++
    [⟨0, .spawn 1 (some 7) 9⟩] ++ osSteps 0 2 ++ osSteps 1 4 ++ osSteps 0 3 ++ [⟨0, .created 2⟩] ++
    osSteps 0 5 ++ osSteps 2 5 ++ osSteps 1 1) (by decide +kernel)

/-- The worker has ended, and another thread that has got its identifier takes its `TLS`. -/
theorem reused_id_finds_other :
    ∃ h s, (spawnSystem 2 fun k => ownIds (k % 2)).Run (fun _ _ _ => True) h s ∧
      s.pc 3 = .found (some 1) ∧ s.home 3 = none :=
  System.exists_run_of_trace ⟨by decide, rfl⟩ (mainSpawns ++ osSteps 0 5 ++ osSteps 1 5 ++
    [⟨1, .exit⟩, ⟨0, .startThread 3⟩, ⟨3, .getCurrentTls⟩] ++ osSteps 3 2) (by decide +kernel)

/-! ## The way to the callback -/

/-- The `Thread` whose `_startupIdMutex` a thread has locked. -/
def OsPc.locked : OsPc → Option ℕ
  | .spawn i _ _ .createThread | .spawn i _ _ (.storeId _) | .spawn i _ _ (.storeHandle _)
  | .spawn i _ _ .unlock | .launch i (.readId _) | .launch i (.unlock _ _) => some i
  | _ => none

/-- Whoever has locked a mutex is about to unlock it. -/
def MutexInv (s : SpawnState) : Prop :=
  ∀ i v, (s.thread i).startupIdMutex = some v → (s.pc v).locked = some i

namespace MutexInv

variable {n : ℕ} {osId : ℕ → ThreadId} {s s' : SpawnState} {u : ℕ} {p : OsPc}

/-- A step of thread `u` that locks at most the mutex that it has locked afterwards. -/
private theorem of_local (hm : MutexInv s) (hpc : ∀ v, v ≠ u → (s'.pc v).locked = (s.pc v).locked)
    (hmutex : ∀ j v, (s'.thread j).startupIdMutex = some v →
      v ≠ u ∧ (s.thread j).startupIdMutex = some v ∨ v = u ∧ (s'.pc u).locked = some j) :
    MutexInv s' := by
  intro j v hv
  rcases hmutex j v hv with ⟨hvu, hold⟩ | ⟨rfl, hlocked⟩
  · rw [hpc v hvu]
    exact hm j v hold
  · exact hlocked

/-- A step of thread `u` that locks and unlocks nothing. -/
private theorem of_same (hm : MutexInv s) (hpc : ∀ v, v ≠ u → (s'.pc v).locked = (s.pc v).locked)
    (hmutex : ∀ j, (s'.thread j).startupIdMutex = (s.thread j).startupIdMutex)
    (hkept : ∀ j, (s.pc u).locked = some j → (s'.pc u).locked = some j) : MutexInv s' := by
  refine hm.of_local hpc fun j v hv => ?_
  rw [hmutex] at hv
  by_cases hvu : v = u
  · subst hvu
    exact .inr ⟨rfl, hkept j (hm j v hv)⟩
  · exact .inl ⟨hvu, hv⟩

/-- Thread `u` locks the mutex of `_threads[i]`. -/
private theorem lock_step (hm : MutexInv s) {i : ℕ} (hnone : (s.pc u).locked = none)
    (hp : p.locked = some i) :
    MutexInv ((s.setThread i { s.thread i with startupIdMutex := some u }).setPc u p) := by
  refine hm.of_local (u := u) (fun v hv => by simp [hv]) fun j v hv => ?_
  by_cases hji : j = i
  · subst hji
    obtain rfl : u = v := by simpa using hv
    exact .inr ⟨rfl, by simpa using hp⟩
  · have hv' : (s.thread j).startupIdMutex = some v := by simpa [hji] using hv
    refine .inl ⟨?_, hv'⟩
    rintro rfl
    have hlocked := hm j v hv'
    rw [hnone] at hlocked
    cases hlocked

/-- Thread `u` unlocks the mutex of `_threads[i]`. -/
private theorem unlock_step (hm : MutexInv s) {i : ℕ} (hsome : (s.pc u).locked = some i)
    (hpc : ∀ v, v ≠ u → s'.pc v = s.pc v)
    (hthread : s'.thread = Function.update s.thread i { s.thread i with startupIdMutex := none }) :
    MutexInv s' := by
  refine hm.of_local (fun v hv => by rw [hpc v hv]) fun j v hv => ?_
  by_cases hji : j = i
  · subst hji
    simp [hthread] at hv
  · have hv' : (s.thread j).startupIdMutex = some v := by simpa [hthread, hji] using hv
    refine .inl ⟨?_, hv'⟩
    rintro rfl
    have hlocked := hm j v hv'
    rw [hsome, Option.some.injEq] at hlocked
    exact hji hlocked.symm

/-- Every step of `Spawn` keeps the invariant. -/
private theorem spawnStep_inv (hm : MutexInv s) (hi : SpawnInv n osId s) {i : ℕ}
    {callback : Option ℕ} {userdata : ℕ} {pc : SpawnPc} {choice : SpawnChoice}
    (hpc : s.pc u = .spawn i callback userdata pc)
    (hs : s.spawnStep osId u i callback userdata choice pc = some s') : MutexInv s' := by
  have hmove : ∀ (t : ThreadObject) (p : OsPc),
      t.startupIdMutex = (s.thread i).startupIdMutex →
      (∀ j, (s.pc u).locked = some j → p.locked = some j) →
      MutexInv ((s.setThread i t).setPc u p) := by
    intro t p ht hp
    refine hm.of_same (u := u) (fun v hv => by simp [hv]) (fun j => ?_) (by simpa using hp)
    by_cases hji : j = i
    · subst hji
      simpa using ht
    · simp [hji]
  cases pc with
  | setHandle | setId | setCallback | setUserdata | storeId | storeHandle =>
    cases hs
    exact hmove _ _ rfl (by simp [hpc, OsPc.locked])
  | lock =>
    simp only [SpawnState.spawnStep, Option.ite_none_right_eq_some, Option.some.injEq] at hs
    obtain ⟨-, rfl⟩ := hs
    exact hm.lock_step (by rw [hpc]; rfl) rfl
  | createThread =>
    cases choice with
    | created k =>
      simp only [SpawnState.spawnStep, Option.ite_none_right_eq_some, Option.some.injEq] at hs
      obtain ⟨hk, rfl⟩ := hs
      refine hm.of_same (u := u) (fun v hv => ?_) (fun j => rfl) (by simp [hpc, OsPc.locked])
      by_cases hvk : v = k
      · subst hvk
        simp [hv, hk.1, OsPc.locked]
      · simp [hv, hvk]
    | failed =>
      cases hs
      exact hm.of_same (u := u) (fun v hv => by simp [hv]) (fun _ => rfl)
        (by simp [hpc, OsPc.locked])
    | _ => cases hs
  | unlock =>
    cases hs
    exact hm.unlock_step (u := u) (by rw [hpc]; rfl) (fun v hv => by simp [hv]) rfl
  | notifyAll =>
    cases hs
    rw [hi.notifyAll_eq i]
    exact hm.of_same (u := u) (fun v hv => by simp [hv]) (fun _ => rfl) (by simp [hpc, OsPc.locked])
  | hasSpawned =>
    cases hs
    exact hm.of_same (u := u) (fun v hv => by simp [hv]) (fun _ => rfl) (by simp [hpc, OsPc.locked])

/-- Every step of `LaunchThread` keeps the invariant. -/
private theorem launchStep_inv (hm : MutexInv s) {i : ℕ} {pc : LaunchPc} {choice : SpawnChoice}
    (hpc : s.pc u = .launch i pc) (hs : s.launchStep u i choice pc = some s') : MutexInv s' := by
  have hmove : ∀ p : OsPc, (∀ j, (s.pc u).locked = some j → p.locked = some j) →
      MutexInv (s.setPc u p) := fun p hp =>
    hm.of_same (u := u) (fun v hv => by simp [hv]) (fun _ => rfl) (by simpa using hp)
  cases pc with
  | getCallback =>
    simp only [SpawnState.launchStep] at hs
    split at hs <;> cases hs <;> exact hmove _ (by simp [hpc, OsPc.locked])
  | lock =>
    simp only [SpawnState.launchStep, Option.ite_none_right_eq_some, Option.some.injEq] at hs
    obtain ⟨-, rfl⟩ := hs
    exact hm.lock_step (by rw [hpc]; rfl) rfl
  | unlock =>
    cases hs
    exact hm.unlock_step (u := u) (by rw [hpc]; rfl) (fun v hv => by simp [hv]) rfl
  | readId | beginWait | call =>
    cases hs
    exact hmove _ (by simp [hpc, OsPc.locked])
  | wait =>
    simp only [SpawnState.launchStep, Option.ite_none_right_eq_some, Option.some.injEq] at hs
    obtain ⟨-, rfl⟩ := hs
    exact hmove _ (by simp [hpc, OsPc.locked])

/-- The other calls lock nothing. -/
private theorem of_unlocked (hm : MutexInv s) (hnone : (s.pc u).locked = none)
    (hpc : ∀ v, v ≠ u → (s'.pc v).locked = (s.pc v).locked)
    (hmutex : ∀ j, (s'.thread j).startupIdMutex = (s.thread j).startupIdMutex) : MutexInv s' :=
  hm.of_same hpc hmutex fun j hj => by rw [hnone] at hj; cases hj

/-- Every step keeps the invariant. -/
theorem step (hm : MutexInv s) (hi : SpawnInv n osId s) {a : SpawnAction}
    (hs : (spawnSystem n osId).step s a = some s') : MutexInv s' := by
  obtain ⟨u, choice⟩ := a
  change s.osStep n osId u choice (s.pc u) = some s' at hs
  cases hpc : s.pc u with
  | spawn i callback userdata pc =>
    rw [hpc] at hs
    exact hm.spawnStep_inv hi hpc hs
  | launch i pc =>
    rw [hpc] at hs
    exact hm.launchStep_inv hpc hs
  | code =>
    rw [hpc] at hs
    have hnone : (s.pc u).locked = none := by rw [hpc]; rfl
    cases choice with
    | spawn | setupThread | fromCurrentThread =>
      simp only [SpawnState.osStep, SpawnState.codeStep, Option.ite_none_right_eq_some,
        Option.some.injEq] at hs
      obtain ⟨-, rfl⟩ := hs
      exact hm.of_unlocked hnone (fun v hv => by simp [hv]) fun _ => rfl
    | startThread k =>
      simp only [SpawnState.osStep, SpawnState.codeStep, Option.ite_none_right_eq_some,
        Option.some.injEq] at hs
      obtain ⟨hk, rfl⟩ := hs
      refine hm.of_unlocked hnone (fun v _ => ?_) fun _ => rfl
      by_cases hvk : v = k
      · subst hvk
        simp [hk.1, OsPc.locked]
      · simp [hvk]
    | getCurrentTls | exit =>
      cases hs
      exact hm.of_unlocked hnone (fun v hv => by simp [hv]) fun _ => rfl
    | step | created | failed | spurious => cases hs
  | find caller j =>
    rw [hpc] at hs
    have hnone : (s.pc u).locked = none := by rw [hpc]; rfl
    have hreturns : ∀ result, MutexInv (s.findReturns u result caller) := by
      intro result
      cases caller with
      | code | setupAgain => exact hm.of_unlocked hnone (fun v hv => by
          simp [SpawnState.findReturns, hv]) fun _ => rfl
      | setup =>
        cases result <;> exact hm.of_unlocked hnone (fun v hv => by
          simp [SpawnState.findReturns, hv]) fun _ => rfl
    simp only [SpawnState.osStep] at hs
    split at hs
    · split at hs <;> cases hs
      · exact hreturns _
      · exact hm.of_unlocked hnone (fun v hv => by simp [hv]) fun _ => rfl
    · cases hs
      exact hreturns _
  | found =>
    rw [hpc] at hs
    cases hs
    exact hm.of_unlocked (u := u) (by rw [hpc]; rfl) (fun v hv => by simp [hv]) fun _ => rfl
  | setup i checks pc =>
    rw [hpc] at hs
    cases hs
    have hnone : (s.pc u).locked = none := by rw [hpc]; rfl
    refine hm.of_unlocked hnone (fun v hv => ?_) fun j => ?_
    · cases pc <;> simp only [SpawnState.setupStep] <;> (try split) <;> simp [hv]
    · by_cases hji : j = i
      · subst hji
        cases pc <;> simp only [SpawnState.setupStep] <;> (try split) <;> simp
      · cases pc <;> simp only [SpawnState.setupStep] <;> (try split) <;> simp [hji]
  | absent | threw | failed | ended =>
    rw [hpc] at hs
    cases hs

end MutexInv

section Launch

variable {n : ℕ} {osId : ℕ → ThreadId} {h : History SpawnState SpawnAction} {s : SpawnState}
  {k i : ℕ} {pc : LaunchPc}

theorem mutexInv_of_run (hr : (spawnSystem n osId).Run (OwnThreads n osId) h s) : MutexInv s := by
  induction hr with
  | init hs =>
    obtain ⟨-, rfl⟩ := hs
    intro i v hv
    cases hv
  | step hr _ hs ih => exact ih.step (spawnInv_of_run hr) hs

/-- The steps that are left for a thread that has been created, up to its callback. -/
def LaunchPc.left : LaunchPc → ℕ
  | .getCallback => 4
  | .lock _ => 3
  | .readId _ => 2
  | .unlock .. => 1
  | .beginWait _ | .wait _ | .call _ => 0

/-- The steps that are left for `Spawn` until the mutex is unlocked. -/
def SpawnPc.left : SpawnPc → ℕ
  | .storeId _ => 3
  | .storeHandle _ => 2
  | .unlock => 1
  | _ => 0

/-- The steps of `Spawn` that the new thread of `_threads[i]` waits for. -/
def SpawnState.heldFor (s : SpawnState) (i : ℕ) : ℕ :=
  match s.use i with
  | .created u _ =>
      match s.pc u with
      | .spawn _ _ _ pc => pc.left
      | _ => 0
  | _ => 0

/-- Who has locked the mutex of `_threads[i]`. -/
theorem SpawnInv.locked_cases (hi : SpawnInv n osId s) {v : ℕ} (h : (s.pc v).locked = some i) :
    s.use i = .claimed v ∨ s.use i = .taken v ∨
      ∃ k callback userdata pc, s.use i = .created v k ∧
        s.pc v = .spawn i callback userdata pc ∧ 0 < pc.left := by
  have hok := hi.pc v
  cases hv : s.pc v with
  | spawn j callback userdata p =>
    rw [hv] at h hok
    obtain ⟨-, -, hspawn⟩ := hok
    cases p with
    | createThread =>
      cases h
      exact .inl hspawn.1
    | storeId k =>
      cases h
      exact .inr (.inr ⟨k, _, _, _, hspawn, rfl, by simp [SpawnPc.left]⟩)
    | storeHandle k =>
      cases h
      cases k with
      | none => exact .inl hspawn
      | some k => exact .inr (.inr ⟨k, _, _, _, hspawn.1, rfl, by simp [SpawnPc.left]⟩)
    | unlock =>
      cases h
      rcases hspawn with hclaimed | ⟨k, hcreated, -⟩
      · exact .inl hclaimed
      · exact .inr (.inr ⟨k, _, _, _, hcreated, rfl, by simp [SpawnPc.left]⟩)
    | _ => cases h
  | launch j p =>
    rw [hv] at h hok
    obtain ⟨-, hlaunch⟩ := hok
    cases p with
    | readId =>
      cases h
      exact .inr (.inl hlaunch.1)
    | unlock =>
      cases h
      exact .inr (.inl hlaunch.2.1)
    | _ => cases h
  | _ =>
    rw [hv] at h
    cases h

/-- While `Spawn` has the mutex, its next step brings it nearer to unlocking it. -/
private theorem spawn_advances (hi : SpawnInv n osId s) (hm : MutexInv s) {u : ℕ}
    (hpc : s.pc k = .launch i pc) (huse : s.use i = .created u k) :
    ∃ s', (spawnSystem n osId).step s ⟨u, .step⟩ = some s' ∧ s'.pc k = .launch i pc ∧
      s'.heldFor i < s.heldFor i ∧ (s'.use i = .created u k ∨ s'.use i = .taken k) := by
  have hok := hi.use i
  rw [huse] at hok
  obtain hcase | hcase | ⟨k', callback, userdata, p, -, hu, hleft⟩ :=
    hi.locked_cases (hm i u hok.2.1)
  · rw [huse] at hcase
    cases hcase
  · rw [huse] at hcase
    cases hcase
  have hku : k ≠ u := by
    rintro rfl
    rw [hpc] at hu
    cases hu
  have hstep : ∀ s', s.spawnStep osId u i callback userdata .step p = some s' →
      (spawnSystem n osId).step s ⟨u, .step⟩ = some s' := by
    intro s' hs
    change s.osStep n osId u .step (s.pc u) = some s'
    rwa [hu]
  cases p with
  | storeId | storeHandle =>
    refine ⟨_, hstep _ rfl, by simp [hku, hpc], ?_, .inl huse⟩
    simp [SpawnState.heldFor, huse, hu, SpawnPc.left]
  | unlock =>
    refine ⟨_, hstep _ rfl, by simp [hku, hpc], ?_, .inr ?_⟩
    · simp [SpawnState.heldFor, huse, hu, SpawnPc.left, ThreadUse.release]
    · simp [huse, ThreadUse.release]
  | _ => cases hleft

/-- After that, the next step of the new thread brings it nearer to its callback. -/
private theorem launch_advances (hi : SpawnInv n osId s) (hm : MutexInv s)
    (hpc : s.pc k = .launch i pc) (huse : s.use i = .taken k) (hleft : 0 < pc.left) :
    ∃ s', (spawnSystem n osId).step s ⟨k, .step⟩ = some s' ∧ s'.use i = .taken k ∧
      (s'.pc k = .threw ∨ ∃ pc', s'.pc k = .launch i pc' ∧ pc'.left < pc.left) := by
  have hstep : ∀ s', s.launchStep k i .step pc = some s' →
      (spawnSystem n osId).step s ⟨k, .step⟩ = some s' := by
    intro s' hs
    change s.osStep n osId k .step (s.pc k) = some s'
    rwa [hpc]
  have hok := hi.pc k
  rw [hpc] at hok
  cases pc with
  | getCallback =>
    cases hcallback : (s.thread i).callback with
    | none =>
      exact ⟨s.setPc k .threw, hstep _ (by simp [SpawnState.launchStep, hcallback]), huse,
        .inl (by simp)⟩
    | some callback =>
      exact ⟨s.setPc k (.launch i (.lock callback)),
        hstep _ (by simp [SpawnState.launchStep, hcallback]), huse,
        .inr ⟨.lock callback, by simp, by simp [LaunchPc.left]⟩⟩
  | lock callback =>
    -- nobody has the mutex: neither `Spawn`, nor the thread itself
    have hfree : (s.thread i).startupIdMutex = none := by
      cases hmutex : (s.thread i).startupIdMutex with
      | none => rfl
      | some v =>
        have hlocked := hm i v hmutex
        obtain hcase | hcase | ⟨k', _, _, _, hcase, -⟩ := hi.locked_cases hlocked
        · rw [huse] at hcase
          cases hcase
        · rw [huse] at hcase
          cases hcase
          rw [hpc] at hlocked
          cases hlocked
        · rw [huse] at hcase
          cases hcase
    exact ⟨_, hstep _ (if_pos hfree), huse,
      .inr ⟨.readId callback, by simp, by simp [LaunchPc.left]⟩⟩
  | readId callback =>
    exact ⟨_, hstep _ rfl, huse, .inr ⟨.unlock callback _, by simp; rfl, by simp [LaunchPc.left]⟩⟩
  | unlock callback ready =>
    exact ⟨_, hstep _ rfl, huse, .inr ⟨.call callback, by simp [hok.2.1], by simp [LaunchPc.left]⟩⟩
  | beginWait | wait | call => cases hleft

/-- The new thread is at its callback, or has thrown since there is none. -/
def SpawnState.Launched (s : SpawnState) (k i : ℕ) : Prop :=
  (∃ callback userdata, s.given k = some (some callback, userdata) ∧
    s.pc k = .launch i (.call callback)) ∨
  ∃ userdata, s.given k = some (none, userdata) ∧ s.pc k = .threw

/-- A thread that has no step left is at its callback. -/
private theorem launched_of_left (hi : SpawnInv n osId s) (hpc : s.pc k = .launch i pc)
    (hleft : pc.left = 0) : s.Launched k i := by
  have hok := hi.pc k
  rw [hpc] at hok
  cases pc with
  | call callback =>
    obtain ⟨-, -, userdata, hgiven⟩ := hok
    exact .inl ⟨callback, userdata, hgiven, hpc⟩
  | beginWait | wait => exact hok.2.elim
  | _ => cases hleft

/-- One step towards the callback. -/
private theorem launch_step (hr : (spawnSystem n osId).Run (OwnThreads n osId) h s)
    (hpc : s.pc k = .launch i pc) (hleft : 0 < pc.left) :
    ∃ v s', (v = k ∨ (s.use i).caller = some v) ∧
      (spawnSystem n osId).step s ⟨v, .step⟩ = some s' ∧
      (∀ w, (s'.use i).caller = some w → (s.use i).caller = some w) ∧
      (s'.pc k = .threw ∨
        ∃ pc', s'.pc k = .launch i pc' ∧ pc'.left + s'.heldFor i < pc.left + s.heldFor i) := by
  have hi := spawnInv_of_run hr
  have hm := mutexInv_of_run hr
  have hok := hi.pc k
  rw [hpc] at hok
  rcases (hi.home k i hok.1).2 with huse | ⟨u, huse⟩
  · obtain ⟨s', hs, huse', hpc'⟩ := launch_advances hi hm hpc huse hleft
    have hheld : s.heldFor i = 0 := by simp [SpawnState.heldFor, huse]
    have hheld' : s'.heldFor i = 0 := by simp [SpawnState.heldFor, huse']
    refine ⟨k, s', .inl rfl, hs, fun w hw => ?_, hpc'.imp_right ?_⟩
    · simp [huse', ThreadUse.caller] at hw
    · rintro ⟨pc', hpc', hlt⟩
      exact ⟨pc', hpc', by omega⟩
  · obtain ⟨s', hs, hpc', hlt, huse'⟩ := spawn_advances hi hm hpc huse
    refine ⟨u, s', .inr (by rw [huse]; rfl), hs, fun w hw => ?_, .inr ⟨pc, hpc', by omega⟩⟩
    rcases huse' with huse' | huse'
    · rwa [huse, ← huse']
    · simp [huse', ThreadUse.caller] at hw

/-- The thread is not stuck: its own steps and those of the `Spawn` that has created it bring it to
its callback. -/
private theorem exists_launched {m : ℕ} (hr : (spawnSystem n osId).Run (OwnThreads n osId) h s)
    (hpc : s.pc k = .launch i pc) (hm : pc.left + s.heldFor i ≤ m) :
    ∃ new s', (spawnSystem n osId).Run (OwnThreads n osId) (new ++ h) s' ∧ new.length ≤ m ∧
      (∀ e ∈ new, e.2.thread = k ∨ (s.use i).caller = some e.2.thread) ∧ s'.Launched k i := by
  -- by induction on what is left for both
  induction m generalizing h s pc with
  | zero =>
    have hleft : pc.left = 0 := by omega
    exact ⟨[], s, hr, Nat.le_refl _, by simp, launched_of_left (spawnInv_of_run hr) hpc hleft⟩
  | succ m ih =>
    rcases Nat.eq_zero_or_pos pc.left with hleft | hleft
    · exact ⟨[], s, hr, by simp, by simp, launched_of_left (spawnInv_of_run hr) hpc hleft⟩
    obtain ⟨v, s', hv, hs, hcaller, hpc'⟩ := launch_step hr hpc hleft
    have hr' : (spawnSystem n osId).Run (OwnThreads n osId) ((s, ⟨v, .step⟩) :: h) s' :=
      hr.step trivial hs
    rcases hpc' with hthrew | ⟨pc', hpc', hlt⟩
    · have hok := (spawnInv_of_run hr').pc k
      rw [hthrew] at hok
      obtain ⟨userdata, hgiven⟩ := hok
      exact ⟨[(s, ⟨v, .step⟩)], s', hr', by simp, by simpa using hv,
        .inr ⟨userdata, hgiven, hthrew⟩⟩
    · obtain ⟨new, s'', hr'', hlen, hthreads, hlaunched⟩ := ih hr' hpc' (by omega)
      refine ⟨new ++ [(s, ⟨v, .step⟩)], s'', by simpa using hr'', by simpa using hlen,
        fun e he => ?_, hlaunched⟩
      rcases List.mem_append.mp he with he | he
      · exact (hthreads e he).imp_right (hcaller _)
      · obtain rfl := List.mem_singleton.mp he
        exact hv

/-- No thread is stuck before its callback: from every state of every run, at most seven steps, each
of the new thread itself or of the `Spawn` that has created it, bring it to the callback that
`Spawn` has been given, or to the exception if that is `nullptr`. -/
theorem launch_reaches_callback (hr : (spawnSystem n osId).Run (OwnThreads n osId) h s)
    (hpc : s.pc k = .launch i pc) :
    ∃ new s', (spawnSystem n osId).Run (OwnThreads n osId) (new ++ h) s' ∧ new.length ≤ 7 ∧
      (∀ e ∈ new, e.2.thread = k ∨ (s.use i).caller = some e.2.thread) ∧ s'.Launched k i := by
  refine exists_launched hr hpc ?_
  have hleft : pc.left ≤ 4 := by cases pc <;> simp [LaunchPc.left]
  have hheld : s.heldFor i ≤ 3 := by
    simp only [SpawnState.heldFor]
    split
    · split
      · next pc _ => cases pc <;> simp [SpawnPc.left]
      · omega
    · omega
  omega

end Launch

/-- The new thread is about to lock the mutex, which `Spawn` has. -/
theorem launch_reaches_callback_worker :
    ∃ h s, (spawnSystem 2 ownIds).Run (OwnThreads 2 ownIds) h s ∧
      s.pc 1 = .launch 1 (.lock 7) ∧ ∃ new s',
        (spawnSystem 2 ownIds).Run (OwnThreads 2 ownIds) (new ++ h) s' ∧ new.length ≤ 7 ∧
        (∀ e ∈ new, e.2.thread = 1 ∨ (s.use 1).caller = some e.2.thread) ∧ s'.Launched 1 1 := by
  have hrun : ∃ (h : History SpawnState SpawnAction) (s : SpawnState),
      (spawnSystem 2 ownIds).Run (OwnThreads 2 ownIds) h s ∧ s.pc 1 = .launch 1 (.lock 7) :=
    System.exists_run_of_trace ⟨by decide, rfl⟩ (mainSpawns ++ osSteps 1 1) (by decide +kernel)
  obtain ⟨h, s, hr, hpc⟩ := hrun
  exact ⟨h, s, hr, hpc, launch_reaches_callback hr hpc⟩

end NomadTasks
