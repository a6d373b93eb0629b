import NomadTasks.Thread.Spawn

/-!
# Whose `Thread` each one is

A `Thread` gets its thread in several steps: `Spawn` sets its members one after another, and
`CreateThread` stores the identifier when the new thread may already run.

* `OwnThreads`: the condition on the calls of the program.
* `SpawnInv`: to whom each `Thread` belongs, and what is in place at each program point.
* `spawnInv_of_run`: it holds in every run in which the program keeps to the condition.
-/

namespace NomadTasks

open Transition

/-! ## The condition -/

namespace ThreadUse

/-- The thread whose `Spawn` or `SetupThread` is in progress. -/
def caller : ThreadUse → Option ℕ
  | claimed u | created u _ => some u
  | unused | taken _ => none

end ThreadUse

/-- What the program keeps to when thread `u` makes a choice. -/
def SpawnChoice.Own (n : ℕ) (osId : ℕ → ThreadId) (s : SpawnState) (u : ℕ) : SpawnChoice → Prop
  | .spawn i _ _ => s.use i = .unused
  | .setupThread i => (s.use i).caller = none
  | .fromCurrentThread i => s.use i = .unused ∧ s.home u = none
  | .startThread k | .created k => ∀ i < n, (s.thread i).id ≠ osId k
  | .step | .getCurrentTls | .failed | .spurious | .exit => True

instance (n : ℕ) (osId : ℕ → ThreadId) (s : SpawnState) (u : ℕ) (choice : SpawnChoice) :
    Decidable (choice.Own n osId s u) :=
  match choice with
  | .spawn _ _ _ | .setupThread _ => inferInstanceAs (Decidable (_ = _))
  | .fromCurrentThread _ => inferInstanceAs (Decidable (_ ∧ _))
  | .startThread _ | .created _ => inferInstanceAs (Decidable (∀ i < n, _))
  | .step | .getCurrentTls | .failed | .spurious | .exit => inferInstanceAs (Decidable True)

/-- `Spawn` is called on a `Thread` that has no thread, and `SetupThread` on one on which no other
call is in progress; `Run` has not set up its thread before; and no thread that is created has the
identifier that some `Thread` has from a thread that has ended. -/
def OwnThreads (n : ℕ) (osId : ℕ → ThreadId) (_ : History SpawnState SpawnAction) (s : SpawnState)
    (a : SpawnAction) : Prop := a.choice.Own n osId s a.thread

instance (n : ℕ) (osId : ℕ → ThreadId) (h : History SpawnState SpawnAction) (s : SpawnState)
    (a : SpawnAction) : Decidable (OwnThreads n osId h s a) :=
  inferInstanceAs (Decidable (a.choice.Own n osId s a.thread))

/-! ## The invariant -/

/-- The callback and the user data of `_threads[i]` are those that thread `k` has been spawned
with. -/
def SpawnState.HasGiven (s : SpawnState) (i k : ℕ) : Prop :=
  ∀ callback userdata, s.given k = some (callback, userdata) →
    (s.thread i).callback = callback ∧ (s.thread i).userdata = userdata

/-- What holds of `_threads[i]` by its use. -/
def ThreadUse.Ok (osId : ℕ → ThreadId) (s : SpawnState) (i : ℕ) : ThreadUse → Prop
  | .unused | .claimed _ => (s.thread i).id = noThreadId
  | .created u k =>
      s.home k = some i ∧ (s.thread i).startupIdMutex = some u ∧ s.HasGiven i k
  | .taken k =>
      s.home k = some i ∧ (s.thread i).id = osId k ∧ osId k ≠ noThreadId ∧ s.HasGiven i k ∧
        (s.given k ≠ none → (s.thread i).handle = some (.thread k))

/-- Thread `k` has nothing to do with a `Thread` but its own. -/
def SpawnState.Settled (s : SpawnState) (k : ℕ) : Prop :=
  ∀ i, s.home k = some i → s.use i = .taken k

/-- What holds while thread `u` is in `Spawn`. -/
def SpawnPc.Ok (osId : ℕ → ThreadId) (s : SpawnState) (u i : ℕ) (callback : Option ℕ)
    (userdata : ℕ) : SpawnPc → Prop
  | .setHandle | .setId | .setCallback => s.use i = .claimed u
  | .setUserdata => s.use i = .claimed u ∧ (s.thread i).callback = callback
  | .lock =>
      s.use i = .claimed u ∧ (s.thread i).callback = callback ∧ (s.thread i).userdata = userdata
  | .createThread =>
      s.use i = .claimed u ∧ (s.thread i).callback = callback ∧ (s.thread i).userdata = userdata ∧
        (s.thread i).startupIdMutex = some u
  | .storeId k => s.use i = .created u k
  | .storeHandle (some k) => s.use i = .created u k ∧ (s.thread i).id = osId k
  | .storeHandle none => s.use i = .claimed u
  | .unlock =>
      s.use i = .claimed u ∨ ∃ k, s.use i = .created u k ∧ (s.thread i).id = osId k ∧
        (s.thread i).handle = some (.thread k)
  | .notifyAll | .hasSpawned => True

/-- What holds while thread `k` is in `LaunchThread`. -/
def LaunchPc.Ok (s : SpawnState) (k i : ℕ) : LaunchPc → Prop
  | .getCallback => ∃ given, s.given k = some given
  | .lock callback => ∃ userdata, s.given k = some (some callback, userdata)
  | .readId callback | .call callback =>
      s.use i = .taken k ∧ ∃ userdata, s.given k = some (some callback, userdata)
  | .unlock callback ready =>
      ready = true ∧ s.use i = .taken k ∧ ∃ userdata, s.given k = some (some callback, userdata)
  | .beginWait _ | .wait _ => False

/-- What holds while thread `k` is in `SetupThread` or `FromCurrentThread`. -/
def SetupPc.Ok (s : SpawnState) (k i : ℕ) : SetupPc → Prop
  | .hasSpawned => s.use i = .claimed k ∨ ∃ k', s.use i = .taken k'
  | .setHandle | .setId => s.use i = .claimed k ∧ s.home k = none

/-- What the caller of `GetCurrentTLS` relies on. -/
def FindCaller.Ok (n : ℕ) (s : SpawnState) (k : ℕ) : FindCaller → Prop
  | .code => True
  | .setup i => i < n ∧ s.use i = .claimed k
  | .setupAgain i => s.home k = some i

/-- What holds of thread `k` at each program point. -/
def OsPc.Ok (n : ℕ) (osId : ℕ → ThreadId) (s : SpawnState) (k : ℕ) : OsPc → Prop
  | .absent => s.home k = none
  | .code | .ended => s.Settled k
  | .find caller j => s.Settled k ∧ (∀ i, s.home k = some i → j ≤ i) ∧ caller.Ok n s k
  | .found i => s.Settled k ∧ i = s.home k
  | .spawn i callback userdata pc => s.Settled k ∧ i < n ∧ pc.Ok osId s k i callback userdata
  | .launch i pc => s.home k = some i ∧ pc.Ok s k i
  | .setup i _ pc => s.Settled k ∧ i < n ∧ pc.Ok s k i
  | .threw => ∃ userdata, s.given k = some (none, userdata)
  | .failed => False

/-- What holds in every run in which the program keeps to the condition. -/
structure SpawnInv (n : ℕ) (osId : ℕ → ThreadId) (s : SpawnState) : Prop where
  use : ∀ i, (s.use i).Ok osId s i
  pc : ∀ k, (s.pc k).Ok n osId s k
  home : ∀ k i, s.home k = some i → i < n ∧ (s.use i = .taken k ∨ ∃ u, s.use i = .created u k)
  owner : ∀ k, (s.pc k).live = true → s.owner (osId k) = some k ∧ osId k ≠ noThreadId
  own : ∀ k i, (s.pc k).live = true → (s.thread i).id = osId k → s.home k = some i
  given : ∀ k, s.given k ≠ none → s.home k ≠ none

/-! ## What a thread relies on stays, when another takes a step -/

section Frame

variable {n : ℕ} {osId : ℕ → ThreadId} {s s' : SpawnState} {k : ℕ}

/-- The step changes no `Thread` with which a call of thread `k` is busy, and none is taken away. -/
structure SpawnState.Spares (s s' : SpawnState) (k : ℕ) : Prop where
  busy : ∀ i, (s.use i).caller = some k → s'.use i = s.use i ∧ s'.thread i = s.thread i
  taken : ∀ i k', s.use i = .taken k' → s'.use i = .taken k'
  home : s'.home k = s.home k
  given : s'.given k = s.given k

theorem SpawnState.Settled.of_taken (h : s.Settled k) (hhome : s'.home k = s.home k)
    (htaken : ∀ i, s.use i = .taken k → s'.use i = .taken k) : s'.Settled k :=
  fun i hi => htaken i (h i (hhome ▸ hi))

theorem SpawnState.Settled.frame (h : s.Settled k) (hs : s.Spares s' k) : s'.Settled k :=
  h.of_taken hs.home fun i => hs.taken i k

theorem SpawnPc.Ok.frame {i : ℕ} {callback : Option ℕ} {userdata : ℕ} {pc : SpawnPc}
    (h : pc.Ok osId s k i callback userdata) (hs : s.Spares s' k) :
    pc.Ok osId s' k i callback userdata := by
  have hclaimed : s.use i = .claimed k → s'.use i = .claimed k ∧ s'.thread i = s.thread i := by
    intro hu
    obtain ⟨huse, hthread⟩ := hs.busy i (by rw [hu]; rfl)
    exact ⟨huse.trans hu, hthread⟩
  have hcreated : ∀ k', s.use i = .created k k' →
      s'.use i = .created k k' ∧ s'.thread i = s.thread i := by
    intro k' hu
    obtain ⟨huse, hthread⟩ := hs.busy i (by rw [hu]; rfl)
    exact ⟨huse.trans hu, hthread⟩
  cases pc with
  | setHandle | setId | setCallback => exact (hclaimed h).1
  | setUserdata =>
    obtain ⟨huse, hthread⟩ := hclaimed h.1
    exact ⟨huse, by rw [hthread]; exact h.2⟩
  | lock | createThread =>
    obtain ⟨huse, hthread⟩ := hclaimed h.1
    exact ⟨huse, by rw [hthread]; exact h.2⟩
  | storeId k' => exact (hcreated k' h).1
  | storeHandle k' =>
    cases k' with
    | none => exact (hclaimed h).1
    | some k' =>
      obtain ⟨huse, hthread⟩ := hcreated k' h.1
      exact ⟨huse, by rw [hthread]; exact h.2⟩
  | unlock =>
    rcases h with hu | ⟨k', hu, hrest⟩
    · exact .inl (hclaimed hu).1
    · obtain ⟨huse, hthread⟩ := hcreated k' hu
      exact .inr ⟨k', huse, by rw [hthread]; exact hrest⟩
  | notifyAll | hasSpawned => trivial

theorem LaunchPc.Ok.frame {i : ℕ} {pc : LaunchPc} (h : pc.Ok s k i) (hs : s.Spares s' k) :
    pc.Ok s' k i := by
  cases pc with
  | getCallback | lock => simpa only [LaunchPc.Ok, hs.given] using h
  | readId | call =>
    obtain ⟨huse, hgiven⟩ := h
    exact ⟨hs.taken i k huse, by simpa only [hs.given] using hgiven⟩
  | unlock =>
    obtain ⟨hready, huse, hgiven⟩ := h
    exact ⟨hready, hs.taken i k huse, by simpa only [hs.given] using hgiven⟩
  | beginWait | wait => exact h

theorem OsPc.Ok.frame {pc : OsPc} (h : pc.Ok n osId s k) (hs : s.Spares s' k) :
    pc.Ok n osId s' k := by
  have hclaimed : ∀ i, s.use i = .claimed k → s'.use i = .claimed k := by
    intro i hu
    exact (hs.busy i (by rw [hu]; rfl)).1.trans hu
  cases pc with
  | absent => exact hs.home.trans h
  | code | ended => exact SpawnState.Settled.frame h hs
  | find caller j =>
    obtain ⟨hsettled, hpast, hcaller⟩ := h
    refine ⟨hsettled.frame hs, fun i hi => hpast i (hs.home ▸ hi), ?_⟩
    cases caller with
    | code => trivial
    | setup i => exact ⟨hcaller.1, hclaimed i hcaller.2⟩
    | setupAgain i => exact hs.home.trans hcaller
  | found i => exact ⟨h.1.frame hs, h.2.trans hs.home.symm⟩
  | spawn i callback userdata pc => exact ⟨h.1.frame hs, h.2.1, h.2.2.frame hs⟩
  | launch i pc => exact ⟨hs.home.trans h.1, h.2.frame hs⟩
  | setup i checks pc =>
    obtain ⟨hsettled, hlt, hpc⟩ := h
    refine ⟨hsettled.frame hs, hlt, ?_⟩
    cases pc with
    | hasSpawned =>
      rcases hpc with hu | ⟨k', hu⟩
      · exact .inl (hclaimed i hu)
      · exact .inr ⟨k', hs.taken i k' hu⟩
    | setHandle | setId => exact ⟨hclaimed i hpc.1, hs.home.trans hpc.2⟩
  | threw => simpa only [OsPc.Ok, hs.given] using h
  | failed => exact h

/-- What holds of a `Thread` depends on what its use names. -/
theorem ThreadUse.Ok.frame {i : ℕ} {use : ThreadUse} (h : use.Ok osId s i)
    (hthread : s'.thread i = s.thread i) (hhome : ∀ k, s.home k = some i → s'.home k = some i)
    (hgiven : ∀ k, s.home k = some i → s'.given k = s.given k) : use.Ok osId s' i := by
  cases use with
  | unused | claimed => exact (congrArg ThreadObject.id hthread).trans h
  | created u k =>
    obtain ⟨hk, hmutex, hhas⟩ := h
    refine ⟨hhome k hk, by rw [hthread]; exact hmutex, ?_⟩
    simpa only [SpawnState.HasGiven, hthread, hgiven k hk] using hhas
  | taken k =>
    obtain ⟨hk, hid, hne, hhas, hhandle⟩ := h
    refine ⟨hhome k hk, by rw [hthread]; exact hid, hne, ?_, ?_⟩
    · simpa only [SpawnState.HasGiven, hthread, hgiven k hk] using hhas
    · simpa only [hthread, hgiven k hk] using hhandle

end Frame

/-! ## Steps -/

namespace SpawnInv

variable {n : ℕ} {osId : ℕ → ThreadId} {s s' : SpawnState} {u i : ℕ} {p : OsPc}

/-- A step of thread `u` that changes its program point, and `_threads[i]` with its use. -/
private theorem of_local (hi : SpawnInv n osId s) (hlive : (s.pc u).live = true)
    (hpc : s'.pc = Function.update s.pc u p)
    (howner : s'.owner = s.owner) (hhome : s'.home = s.home) (hgiven : s'.given = s.given)
    (hthread : ∀ j, j ≠ i → s'.thread j = s.thread j) (huse : ∀ j, j ≠ i → s'.use j = s.use j)
    (hcaller : ∀ k, k ≠ u → (s.use i).caller ≠ some k ∨
      s'.use i = s.use i ∧ s'.thread i = s.thread i)
    (htaken : ∀ k, s.use i = .taken k → s'.use i = .taken k)
    (hself : p.Ok n osId s' u) (huseOk : (s'.use i).Ok osId s' i)
    (hhomes : ∀ k, s.home k = some i → s'.use i = .taken k ∨ ∃ v, s'.use i = .created v k)
    (hown : ∀ k, (s.pc k).live = true → (s'.thread i).id = osId k → s.home k = some i) :
    SpawnInv n osId s' := by
  have hlives : ∀ k, (s'.pc k).live = true → (s.pc k).live = true := by
    intro k hk
    by_cases hku : k = u
    · rwa [hku]
    · rwa [hpc, Function.update_of_ne hku] at hk
  refine ⟨fun j => ?_, fun k => ?_, fun k j hk => ?_, fun k hk => ?_, fun k j hk hid => ?_,
    fun k hk => ?_⟩
  -- what the `Thread`s are used for
  · by_cases hji : j = i
    · subst hji
      exact huseOk
    · rw [huse j hji]
      exact (hi.use j).frame (hthread j hji) (fun k hk => by rwa [hhome]) fun k _ => by rw [hgiven]
  -- where the threads are
  · by_cases hku : k = u
    · subst hku
      rwa [hpc, Function.update_self]
    · rw [hpc, Function.update_of_ne hku]
      refine (hi.pc k).frame ⟨fun j hj => ?_, fun j k' hj => ?_, by rw [hhome], by rw [hgiven]⟩
      · by_cases hji : j = i
        · subst hji
          exact (hcaller k hku).resolve_left fun hne => hne hj
        · exact ⟨huse j hji, hthread j hji⟩
      · by_cases hji : j = i
        · subst hji
          exact htaken k' hj
        · rwa [huse j hji]
  -- whose `Thread`s they are
  · rw [hhome] at hk
    refine ⟨(hi.home k j hk).1, ?_⟩
    by_cases hji : j = i
    · subst hji
      exact hhomes k hk
    · rw [huse j hji]
      exact (hi.home k j hk).2
  -- the identifiers
  · rw [howner]
    exact hi.owner k (hlives k hk)
  -- whose identifiers are stored
  · rw [hhome]
    by_cases hji : j = i
    · subst hji
      exact hown k (hlives k hk) hid
    · rw [hthread j hji] at hid
      exact hi.own k j (hlives k hk) hid
  -- what `Spawn` has been given
  · rw [hgiven] at hk
    rw [hhome]
    exact hi.given k hk

/-- A step of thread `u` that only moves it on. -/
theorem setPc (hi : SpawnInv n osId s) (hlive : (s.pc u).live = true)
    (hself : p.Ok n osId s u) : SpawnInv n osId (s.setPc u p) := by
  have hspares : s.Spares (s.setPc u p) u := ⟨fun _ _ => ⟨rfl, rfl⟩, fun _ _ h => h, rfl, rfl⟩
  refine hi.of_local (i := 0) hlive rfl rfl rfl rfl (fun _ _ => rfl) (fun _ _ => rfl)
    (fun _ _ => .inr ⟨rfl, rfl⟩) (fun _ h => h) (hself.frame hspares) ?_
    (fun k hk => (hi.home k 0 hk).2) fun k hk hid => hi.own k 0 hk hid
  exact (hi.use 0).frame rfl (fun _ h => h) fun _ _ => rfl

/-- A step of a call on `_threads[i]` that has not created a thread. -/
private theorem claimed_step (hi : SpawnInv n osId s) (hlive : (s.pc u).live = true)
    (hu : s.use i = .claimed u) {t : ThreadObject} (ht : t.id = noThreadId)
    (hself : p.Ok n osId ((s.setThread i t).setPc u p) u) :
    SpawnInv n osId ((s.setThread i t).setPc u p) := by
  have hne : ∀ k, (s.pc k).live = true → osId k ≠ noThreadId := fun k hk => (hi.owner k hk).2
  refine hi.of_local (i := i) hlive rfl rfl rfl rfl (fun j hji => ?_) (fun _ _ => rfl)
    (fun k hku => .inl ?_) (fun _ h => h) hself ?_ (fun k hk => (hi.home k i hk).2)
    fun k hk hid => ?_
  · exact Function.update_of_ne hji ..
  · simpa [hu, ThreadUse.caller] using Ne.symm hku
  · change (s.use i).Ok osId _ i
    rw [hu]
    simpa [ThreadUse.Ok] using ht
  · -- no thread has the identifier `UINT32_MAX`
    refine absurd ?_ (hne k hk)
    rw [← hid]
    simpa using ht

/-- The thread that `CreateThread` has made is there until `Spawn` has unlocked the mutex. -/
theorem live_of_created (hi : SpawnInv n osId s) {k : ℕ} (hu : s.use i = .created u k) :
    (s.pc k).live = true := by
  have hhome : s.home k = some i := by
    have hok := hi.use i
    rw [hu] at hok
    exact hok.1
  have hpc := hi.pc k
  cases hk : s.pc k with
  | absent =>
    rw [hk] at hpc
    exact absurd (hpc.symm.trans hhome) (by simp)
  | ended =>
    rw [hk] at hpc
    have htaken := hpc i hhome
    rw [hu] at htaken
    cases htaken
  | _ => rfl

/-- Different threads that are there have different identifiers. -/
theorem osId_inj (hi : SpawnInv n osId s) {k k' : ℕ} (hk : (s.pc k).live = true)
    (hk' : (s.pc k').live = true) (h : osId k = osId k') : k = k' := by
  have howner := (hi.owner k hk).1
  rw [h, (hi.owner k' hk').1, Option.some.injEq] at howner
  exact howner.symm

/-- A step of `Spawn` on `_threads[i]` while it holds the mutex and has created thread `k`. -/
private theorem created_step (hi : SpawnInv n osId s) (hlive : (s.pc u).live = true) {k : ℕ}
    (hu : s.use i = .created u k) {t : ThreadObject}
    (hmutex : t.startupIdMutex = (s.thread i).startupIdMutex)
    (hcallback : t.callback = (s.thread i).callback) (hdata : t.userdata = (s.thread i).userdata)
    (hid : t.id = (s.thread i).id ∨ t.id = osId k)
    (hself : p.Ok n osId ((s.setThread i t).setPc u p) u) :
    SpawnInv n osId ((s.setThread i t).setPc u p) := by
  have hok := hi.use i
  rw [hu] at hok
  obtain ⟨hhome, hlocked, hgiven⟩ := hok
  refine hi.of_local (i := i) hlive rfl rfl rfl rfl (fun j hji => ?_) (fun _ _ => rfl)
    (fun k hku => .inl ?_) (fun _ h => h) hself ?_ (fun k hk => (hi.home k i hk).2)
    fun k' hk' hid' => ?_
  · exact Function.update_of_ne hji ..
  · simpa [hu, ThreadUse.caller] using Ne.symm hku
  · change (s.use i).Ok osId _ i
    rw [hu]
    refine ⟨hhome, by simpa using hmutex.trans hlocked, fun cb ud hg => ?_⟩
    obtain ⟨hcb, hud⟩ := hgiven cb ud hg
    exact ⟨by simpa using hcallback.trans hcb, by simpa using hdata.trans hud⟩
  · simp only [SpawnState.setPc_thread, SpawnState.setThread_thread, Function.update_self] at hid'
    rcases hid with hold | hnew
    · exact hi.own k' i hk' (hold.symm.trans hid')
    · obtain rfl := hi.osId_inj (hi.live_of_created hu) hk' (hnew.symm.trans hid')
      exact hhome

/-- A thread that has its `Thread` locks or unlocks the mutex. -/
private theorem taken_step (hi : SpawnInv n osId s) (hlive : (s.pc u).live = true) {k : ℕ}
    (hu : s.use i = .taken k) {mutex : Option ℕ} (hself : p.Ok n osId s u) :
    SpawnInv n osId ((s.setThread i { s.thread i with startupIdMutex := mutex }).setPc u p) := by
  have hspares : s.Spares ((s.setThread i { s.thread i with startupIdMutex := mutex }).setPc u p)
      u := by
    refine ⟨fun j hj => ⟨rfl, ?_⟩, fun _ _ h => h, rfl, rfl⟩
    have hji : j ≠ i := by
      rintro rfl
      rw [hu] at hj
      cases hj
    exact Function.update_of_ne hji ..
  have hok := hi.use i
  rw [hu] at hok
  obtain ⟨hhome, hid, hne, hgiven, hhandle⟩ := hok
  refine hi.of_local (i := i) hlive rfl rfl rfl rfl (fun j hji => ?_) (fun _ _ => rfl)
    (fun k' _ => .inl ?_) (fun _ h => h) (hself.frame hspares) ?_
    (fun k' hk' => (hi.home k' i hk').2) fun k' hk' hid' => ?_
  · exact Function.update_of_ne hji ..
  · simp [hu, ThreadUse.caller]
  · change (s.use i).Ok osId _ i
    rw [hu]
    refine ⟨hhome, by simpa using hid, hne, fun cb ud hg => ?_, fun hg => ?_⟩
    · simpa using hgiven cb ud hg
    · simpa using hhandle hg
  · exact hi.own k' i hk' (by simpa using hid')

/-- A call on `_threads[i]` begins. -/
private theorem claim_step (hi : SpawnInv n osId s) (hpc : s.pc u = .code)
    (hcaller : (s.use i).caller = none)
    (hself : ∀ s' : SpawnState, s'.home = s.home → s'.Settled u →
      s'.use i = (s.use i).claim u → p.Ok n osId s' u) :
    SpawnInv n osId ((s.setUse i ((s.use i).claim u)).setPc u p) := by
  have hok := hi.use i
  have hlive : (s.pc u).live = true := by rw [hpc]; rfl
  have htaken : ∀ k j, s.use j = .taken k →
      ((s.setUse i ((s.use i).claim u)).setPc u p).use j = .taken k := by
    intro k j hj
    by_cases hji : j = i
    · subst hji
      simp [hj, ThreadUse.claim]
    · simpa [hji] using hj
  have hsettled : ((s.setUse i ((s.use i).claim u)).setPc u p).Settled u := by
    have hcode := hi.pc u
    rw [hpc] at hcode
    exact hcode.of_taken rfl (htaken u)
  refine hi.of_local (i := i) hlive rfl rfl rfl rfl (fun _ _ => rfl) (fun j hji => ?_)
    (fun k _ => .inl (by simp [hcaller])) (fun k hk => htaken k i hk)
    (hself _ rfl hsettled (by simp)) ?_ (fun k hk => ?_) fun k hk hid => hi.own k i hk hid
  · exact Function.update_of_ne hji ..
  · simp only [SpawnState.setPc_use, SpawnState.setUse_use, Function.update_self]
    cases huse : s.use i with
    | unused | taken => rw [huse] at hok; exact hok
    | claimed | created => simp [huse, ThreadUse.caller] at hcaller
  · rcases (hi.home k i hk).2 with htaken' | ⟨v, hcreated⟩
    · exact .inl (htaken k i htaken')
    · simp [hcreated, ThreadUse.caller] at hcaller

/-- A call on `_threads[i]` gives it back, or leaves it to the thread that it has created. -/
private theorem release_step (hi : SpawnInv n osId s) (hlive : (s.pc u).live = true)
    (hsettled : s.Settled u) {t : ThreadObject} (hid : t.id = (s.thread i).id)
    (hcallback : t.callback = (s.thread i).callback) (hdata : t.userdata = (s.thread i).userdata)
    (hhandle : t.handle = (s.thread i).handle)
    (huse : s.use i = .claimed u ∨ ∃ k, s.use i = .created u k ∧ (s.thread i).id = osId k ∧
      (s.thread i).handle = some (.thread k))
    (hself : ∀ s' : SpawnState, s'.Settled u → p.Ok n osId s' u) :
    SpawnInv n osId (((s.setThread i t).setUse i (s.use i).release).setPc u p) := by
  have hok := hi.use i
  have hcaller : (s.use i).caller = some u := by
    rcases huse with hu | ⟨k, hu, -⟩ <;> rw [hu] <;> rfl
  have htaken : ∀ k j, s.use j = .taken k →
      (((s.setThread i t).setUse i (s.use i).release).setPc u p).use j = .taken k := by
    intro k j hj
    by_cases hji : j = i
    · subst hji
      simp [hj, ThreadUse.release]
    · simpa [hji] using hj
  refine hi.of_local (i := i) hlive rfl rfl rfl rfl (fun j hji => ?_) (fun j hji => ?_)
    (fun k hku => .inl ?_) (fun k hk => htaken k i hk) (hself _ (hsettled.of_taken rfl (htaken u)))
    ?_ (fun k hk => ?_) fun k hk hid' => hi.own k i hk (hid.symm.trans (by simpa using hid'))
  · exact Function.update_of_ne hji ..
  · exact Function.update_of_ne hji ..
  · rw [hcaller]
    exact fun h => hku (Option.some.inj h).symm
  · simp only [SpawnState.setPc_use, SpawnState.setUse_use, Function.update_self]
    rcases huse with hu | ⟨k, hu, hk, hh⟩
    · rw [hu] at hok ⊢
      simpa [ThreadUse.release, ThreadUse.Ok] using hid.trans hok
    · -- the thread that has been created finds everything in place
      rw [hu] at hok ⊢
      obtain ⟨hhome, -, hgiven⟩ := hok
      refine ⟨hhome, by simpa using hid.trans hk, (hi.owner k (hi.live_of_created hu)).2,
        fun cb ud hg => ?_, fun _ => by simpa using hhandle.trans hh⟩
      obtain ⟨hcb, hud⟩ := hgiven cb ud hg
      exact ⟨by simpa using hcallback.trans hcb, by simpa using hdata.trans hud⟩
  · simp only [SpawnState.setPc_use, SpawnState.setUse_use, Function.update_self]
    rcases (hi.home k i hk).2 with htaken' | ⟨v, hcreated⟩
    · exact .inl (by simp [htaken', ThreadUse.release])
    · exact .inl (by simp [hcreated, ThreadUse.release])

/-- A thread that is to be created has no `Thread`. -/
private theorem blank_of_canCreate (hi : SpawnInv n osId s) {k : ℕ} (hk : s.CanCreate osId k) :
    s.home k = none ∧ s.given k = none := by
  have hhome : s.home k = none := by
    have hok := hi.pc k
    rwa [hk.1] at hok
  refine ⟨hhome, ?_⟩
  by_contra hg
  exact hi.given k hg hhome

/-- Its identifier is not stored anywhere. -/
private theorem not_stored (hi : SpawnInv n osId s) {k : ℕ} (hk : s.CanCreate osId k)
    (hfresh : ∀ i < n, (s.thread i).id ≠ osId k) (i : ℕ) : (s.thread i).id ≠ osId k := by
  intro hid
  by_cases hin : i < n
  · exact hfresh i hin hid
  · have hok := hi.use i
    cases huse : s.use i with
    | unused | claimed =>
      rw [huse] at hok
      exact hk.2.1 (hid.symm.trans hok)
    | created v k' | taken k' =>
      rw [huse] at hok
      exact hin (hi.home k' i hok.1).1

/-- The table of the threads after one has been created. -/
private theorem owner_create (hi : SpawnInv n osId s) {k : ℕ} (hk : s.CanCreate osId k)
    (howner : s'.owner = Function.update s.owner (osId k) (some k))
    (hlives : ∀ j, j ≠ k → (s'.pc j).live = true → (s.pc j).live = true) (j : ℕ)
    (hj : (s'.pc j).live = true) : s'.owner (osId j) = some j ∧ osId j ≠ noThreadId := by
  by_cases hjk : j = k
  · subst hjk
    exact ⟨by simp [howner], hk.2.1⟩
  · obtain ⟨hold, hne⟩ := hi.owner j (hlives j hjk hj)
    have hid : osId j ≠ osId k := by
      intro heq
      rw [heq, hk.2.2] at hold
      cases hold
    exact ⟨by simpa [howner, hid] using hold, hne⟩

/-- The code of a thread starts one that is none of the manager's. -/
private theorem startThread_step (hi : SpawnInv n osId s) {k : ℕ} (hk : s.CanCreate osId k)
    (hfresh : ∀ i < n, (s.thread i).id ≠ osId k) :
    SpawnInv n osId (s.create osId k .code none none) := by
  obtain ⟨hhome, hgiven⟩ := hi.blank_of_canCreate hk
  have hhomes : (s.create osId k .code none none).home = s.home :=
    Function.update_eq_self_iff.mpr hhome.symm
  have hgivens : (s.create osId k .code none none).given = s.given :=
    Function.update_eq_self_iff.mpr hgiven.symm
  have hlives : ∀ j, j ≠ k → ((s.create osId k .code none none).pc j).live = true →
      (s.pc j).live = true := fun j hjk hj => by simpa [hjk] using hj
  refine ⟨fun i => ?_, fun j => ?_, fun j i hj => ?_, hi.owner_create hk rfl hlives,
    fun j i hj hid => ?_, fun j hj => ?_⟩
  · exact (hi.use i).frame rfl (fun j hj => by rwa [hhomes]) fun j _ => by rw [hgivens]
  · by_cases hjk : j = k
    · subst hjk
      simp only [SpawnState.create_pc, Function.update_self]
      intro i hi'
      rw [hhomes, hhome] at hi'
      cases hi'
    · simp only [SpawnState.create_pc, Function.update_of_ne hjk]
      exact (hi.pc j).frame ⟨fun _ _ => ⟨rfl, rfl⟩, fun _ _ h => h, by rw [hhomes], by rw [hgivens]⟩
  · rw [hhomes] at hj
    exact hi.home j i hj
  · rw [hhomes]
    by_cases hjk : j = k
    · subst hjk
      exact absurd hid (hi.not_stored hk hfresh i)
    · exact hi.own j i (hlives j hjk hj) hid
  · rw [hgivens] at hj
    rw [hhomes]
    exact hi.given j hj

/-- `CreateThread` makes a thread for `_threads[i]`. -/
private theorem create_step (hi : SpawnInv n osId s) {callback : Option ℕ} {userdata k : ℕ}
    (hpc : s.pc u = .spawn i callback userdata .createThread) (hk : s.CanCreate osId k)
    (hfresh : ∀ j < n, (s.thread j).id ≠ osId k) :
    SpawnInv n osId (((s.create osId k (.launch i .getCallback) (some i)
      (some (callback, userdata))).setUse i (.created u k)).setPc u
        (.spawn i callback userdata (.storeId k))) := by
  obtain ⟨hhome, hgiven⟩ := hi.blank_of_canCreate hk
  obtain ⟨hsettled, hlt, huse, hcallback, hdata, hmutex⟩ :
      (OsPc.spawn i callback userdata .createThread).Ok n osId s u := hpc ▸ hi.pc u
  have hku : k ≠ u := by
    rintro rfl
    rw [hk.1] at hpc
    cases hpc
  set s' := ((s.create osId k (.launch i .getCallback) (some i)
    (some (callback, userdata))).setUse i (.created u k)).setPc u
      (.spawn i callback userdata (.storeId k)) with hs'
  have huse' : ∀ j, j ≠ i → s'.use j = s.use j := fun j hji => by simp [hs', hji]
  have htaken : ∀ j k', s.use j = .taken k' → s'.use j = .taken k' := by
    intro j k' hj
    have hji : j ≠ i := by
      rintro rfl
      rw [huse] at hj
      cases hj
    rwa [huse' j hji]
  have hhomes : ∀ j, j ≠ k → s'.home j = s.home j := fun j hjk => by simp [hs', hjk]
  have hgivens : ∀ j, j ≠ k → s'.given j = s.given j := fun j hjk => by simp [hs', hjk]
  have hlives : ∀ j, j ≠ k → (s'.pc j).live = true → (s.pc j).live = true := by
    intro j hjk hj
    by_cases hju : j = u
    · rw [hju, hpc]
      rfl
    · simpa [hs', hjk, hju] using hj
  refine ⟨fun j => ?_, fun j => ?_, fun j l hj => ?_, hi.owner_create hk rfl hlives,
    fun j l hj hid => ?_, fun j hj => ?_⟩
  -- what the `Thread`s are used for
  · by_cases hji : j = i
    · subst hji
      have hnew : s'.use j = .created u k := by simp [hs']
      rw [hnew]
      refine ⟨by simp [hs'], hmutex, fun cb ud hg => ?_⟩
      obtain ⟨rfl, rfl⟩ : callback = cb ∧ userdata = ud := by simpa [hs'] using hg
      exact ⟨hcallback, hdata⟩
    · rw [huse' j hji]
      refine (hi.use j).frame rfl (fun l hl => ?_) fun l hl => hgivens l ?_
      · rwa [hhomes l fun hlk => by rw [hlk, hhome] at hl; cases hl]
      · rintro rfl
        rw [hhome] at hl
        cases hl
  -- where the threads are: the caller, the new thread, and the others
  · by_cases hju : j = u
    · subst hju
      have hnew : s'.pc j = .spawn i callback userdata (.storeId k) := by simp [hs']
      rw [hnew]
      exact ⟨hsettled.of_taken (hhomes j hku.symm) fun l => htaken l j, hlt,
        by simp [hs', SpawnPc.Ok]⟩
    · by_cases hjk : j = k
      · subst hjk
        have hnew : s'.pc j = .launch i .getCallback := by simp [hs', hju]
        rw [hnew]
        exact ⟨by simp [hs'], _, by simp [hs']; rfl⟩
      · have hsame : s'.pc j = s.pc j := by simp [hs', hju, hjk]
        rw [hsame]
        refine (hi.pc j).frame ⟨fun l hl => ⟨huse' l ?_, rfl⟩, htaken, hhomes j hjk, hgivens j hjk⟩
        rintro rfl
        rw [huse] at hl
        exact hju (Option.some.inj hl).symm
  -- whose `Thread`s they are
  · by_cases hjk : j = k
    · subst hjk
      obtain rfl : i = l := by simpa [hs'] using hj
      exact ⟨hlt, .inr ⟨u, by simp [hs']⟩⟩
    · rw [hhomes j hjk] at hj
      refine ⟨(hi.home j l hj).1, ?_⟩
      have hli : l ≠ i := by
        rintro rfl
        rcases (hi.home j l hj).2 with h | ⟨v, h⟩ <;> rw [huse] at h <;> cases h
      rw [huse' l hli]
      exact (hi.home j l hj).2
  -- whose identifiers are stored
  · have hid' : (s.thread l).id = osId j := hid
    by_cases hjk : j = k
    · subst hjk
      exact absurd hid' (hi.not_stored hk hfresh l)
    · rw [hhomes j hjk]
      exact hi.own j l (hlives j hjk hj) hid'
  -- what `Spawn` has been given
  · by_cases hjk : j = k
    · subst hjk
      simp [hs']
    · rw [hgivens j hjk] at hj
      rw [hhomes j hjk]
      exact hi.given j hj

/-- `FromCurrentThread` stores the identifier of its thread. -/
private theorem setId_step (hi : SpawnInv n osId s) (hlive : (s.pc u).live = true) (hlt : i < n)
    (huse : s.use i = .claimed u) (hhome : s.home u = none) (checks : Bool) :
    SpawnInv n osId (s.setupStep osId u i checks .setId) := by
  have hgiven : s.given u = none := by
    by_contra hg
    exact hi.given u hg hhome
  set s' := s.setupStep osId u i checks .setId with hs'
  have hhomes : ∀ k, k ≠ u → s'.home k = s.home k := fun k hk => by
    simp [hs', SpawnState.setupStep, hk]
  have hself : s'.home u = some i := by simp [hs', SpawnState.setupStep]
  have huse' : ∀ j, j ≠ i → s'.use j = s.use j := fun j hj => by
    simp [hs', SpawnState.setupStep, hj]
  have hnew : s'.use i = .taken u := by simp [hs', SpawnState.setupStep]
  have hthread : ∀ j, j ≠ i → s'.thread j = s.thread j := fun j hj => by
    simp [hs', SpawnState.setupStep, hj]
  have hid : (s'.thread i).id = osId u := by simp [hs', SpawnState.setupStep]
  have hpcs : ∀ k, k ≠ u → s'.pc k = s.pc k := fun k hk => by
    simp [hs', SpawnState.setupStep, hk]
  have hlives : ∀ k, (s'.pc k).live = true → (s.pc k).live = true := by
    intro k hk
    by_cases hku : k = u
    · rwa [hku]
    · rwa [hpcs k hku] at hk
  have hne : ∀ k j, s.home k = some j → k ≠ u := by
    rintro k j hk rfl
    rw [hhome] at hk
    cases hk
  refine ⟨fun j => ?_, fun k => ?_, fun k j hk => ?_, fun k hk => hi.owner k (hlives k hk),
    fun k j hk hidk => ?_, fun k hk => ?_⟩
  -- what the `Thread`s are used for
  · by_cases hji : j = i
    · subst hji
      rw [hnew]
      refine ⟨hself, hid, (hi.owner u hlive).2, fun cb ud hg => ?_, fun hg => ?_⟩
      · have hg' : s.given u = some (cb, ud) := hg
        rw [hgiven] at hg'
        cases hg'
      · exact absurd hgiven hg
    · rw [huse' j hji]
      exact (hi.use j).frame (hthread j hji) (fun k hk => by rwa [hhomes k (hne k j hk)])
        fun _ _ => rfl
  -- where the threads are
  · by_cases hku : k = u
    · subst hku
      have hsettled : s'.Settled k := by
        intro j hj
        obtain rfl : i = j := Option.some.inj (hself.symm.trans hj)
        exact hnew
      cases checks with
      | false =>
        have hpc : s'.pc k = .code := by simp [hs', SpawnState.setupStep]
        rwa [hpc]
      | true =>
        have hpc : s'.pc k = .find (.setupAgain i) 0 := by simp [hs', SpawnState.setupStep]
        rw [hpc]
        exact ⟨hsettled, fun _ _ => Nat.zero_le _, hself⟩
    · rw [hpcs k hku]
      refine (hi.pc k).frame ⟨fun j hj => ?_, fun j k' hj => ?_, hhomes k hku, rfl⟩
      · have hji : j ≠ i := by
          rintro rfl
          rw [huse] at hj
          exact hku (Option.some.inj hj).symm
        exact ⟨huse' j hji, hthread j hji⟩
      · have hji : j ≠ i := by
          rintro rfl
          rw [huse] at hj
          cases hj
        rwa [huse' j hji]
  -- whose `Thread`s they are
  · by_cases hku : k = u
    · subst hku
      obtain rfl : i = j := Option.some.inj (hself.symm.trans hk)
      exact ⟨hlt, .inl hnew⟩
    · rw [hhomes k hku] at hk
      refine ⟨(hi.home k j hk).1, ?_⟩
      have hji : j ≠ i := by
        rintro rfl
        rcases (hi.home k j hk).2 with h | ⟨v, h⟩ <;> rw [huse] at h <;> cases h
      rw [huse' j hji]
      exact (hi.home k j hk).2
  -- whose identifiers are stored
  · by_cases hji : j = i
    · subst hji
      obtain rfl := hi.osId_inj hlive (hlives k hk) (hid.symm.trans hidk)
      exact hself
    · rw [hthread j hji] at hidk
      have hold := hi.own k j (hlives k hk) hidk
      rwa [hhomes k (hne k j hold)]
  -- what `Spawn` has been given
  · have hhome' := hi.given k hk
    by_cases hku : k = u
    · subst hku
      exact absurd hhome hhome'
    · rwa [hhomes k hku]

/-- A thread ends, and its identifier is free. -/
private theorem exit_step (hi : SpawnInv n osId s) (hpc : s.pc u = .code) :
    SpawnInv n osId
      ({ s with owner := Function.update s.owner (osId u) none }.setPc u .ended) := by
  have hlive : (s.pc u).live = true := by rw [hpc]; rfl
  set s' := { s with owner := Function.update s.owner (osId u) none }.setPc u .ended with hs'
  have hlives : ∀ k, (s'.pc k).live = true → k ≠ u ∧ (s.pc k).live = true := by
    intro k hk
    by_cases hku : k = u
    · subst hku
      simp [hs', OsPc.live] at hk
    · exact ⟨hku, by simpa [hs', hku] using hk⟩
  refine ⟨fun j => (hi.use j).frame rfl (fun _ h => h) fun _ _ => rfl, fun k => ?_,
    fun k j hk => hi.home k j hk, fun k hk => ?_, fun k j hk hid => hi.own k j (hlives k hk).2 hid,
    fun k hk => hi.given k hk⟩
  · by_cases hku : k = u
    · subst hku
      have hok := hi.pc k
      rw [hpc] at hok
      have hend : s'.pc k = .ended := by simp [hs']
      rw [hend]
      exact hok
    · have hsame : s'.pc k = s.pc k := by simp [hs', hku]
      rw [hsame]
      exact (hi.pc k).frame ⟨fun _ _ => ⟨rfl, rfl⟩, fun _ _ h => h, rfl, rfl⟩
  · obtain ⟨hku, hk'⟩ := hlives k hk
    obtain ⟨howner, hne⟩ := hi.owner k hk'
    have hid : osId k ≠ osId u := fun heq => hku (hi.osId_inj hk' hlive heq)
    exact ⟨by simpa [hs', hid] using howner, hne⟩

/-- Nobody waits for `_cvReceivedId`. -/
theorem notifyAll_eq (hi : SpawnInv n osId s) (i : ℕ) : s.notifyAll i = s := by
  have hpc : (s.notifyAll i).pc = s.pc := by
    funext k
    have hok := hi.pc k
    simp only [SpawnState.notifyAll]
    split
    · next j callback hk =>
      rw [hk] at hok
      exact hok.2.elim
    · rfl
  change { s with pc := (s.notifyAll i).pc } = s
  rw [hpc]

/-- Every step of `Spawn` keeps the invariant. -/
private theorem spawnStep_inv (hi : SpawnInv n osId s) {callback : Option ℕ} {userdata : ℕ}
    {pc : SpawnPc} {choice : SpawnChoice} (hpc : s.pc u = .spawn i callback userdata pc)
    (hfresh : ∀ k, choice = .created k → ∀ j < n, (s.thread j).id ≠ osId k)
    (hs : s.spawnStep osId u i callback userdata choice pc = some s') : SpawnInv n osId s' := by
  have hlive : (s.pc u).live = true := by rw [hpc]; rfl
  obtain ⟨hsettled, hlt, hok⟩ : (OsPc.spawn i callback userdata pc).Ok n osId s u := hpc ▸ hi.pc u
  have huse := hi.use i
  have hkept : ∀ (t : ThreadObject) (p : OsPc), ((s.setThread i t).setPc u p).Settled u :=
    fun t p => hsettled.of_taken rfl fun _ h => h
  cases pc with
  | setHandle =>
    cases hs
    rw [show s.use i = .claimed u from hok] at huse
    exact hi.claimed_step hlive hok huse ⟨hkept _ _, hlt, hok⟩
  | setId =>
    cases hs
    exact hi.claimed_step hlive hok rfl ⟨hkept _ _, hlt, hok⟩
  | setCallback =>
    cases hs
    rw [show s.use i = .claimed u from hok] at huse
    exact hi.claimed_step hlive hok huse ⟨hkept _ _, hlt, hok, by simp⟩
  | setUserdata =>
    cases hs
    rw [hok.1] at huse
    exact hi.claimed_step hlive hok.1 huse ⟨hkept _ _, hlt, hok.1, by simpa using hok.2, by simp⟩
  | lock =>
    simp only [SpawnState.spawnStep, Option.ite_none_right_eq_some, Option.some.injEq] at hs
    obtain ⟨-, rfl⟩ := hs
    rw [hok.1] at huse
    exact hi.claimed_step hlive hok.1 huse
      ⟨hkept _ _, hlt, hok.1, by simpa using hok.2.1, by simpa using hok.2.2, by simp⟩
  | createThread =>
    cases choice with
    | created k =>
      simp only [SpawnState.spawnStep, Option.ite_none_right_eq_some, Option.some.injEq] at hs
      obtain ⟨hk, rfl⟩ := hs
      exact hi.create_step hpc hk (hfresh k rfl)
    | failed =>
      cases hs
      exact hi.setPc hlive ⟨hsettled, hlt, hok.1⟩
    | _ => cases hs
  | storeId k =>
    cases hs
    exact hi.created_step hlive hok rfl rfl rfl (.inr rfl) ⟨hkept _ _, hlt, hok, by simp⟩
  | storeHandle k =>
    cases hs
    cases k with
    | none =>
      rw [show s.use i = .claimed u from hok] at huse
      exact hi.claimed_step hlive hok huse ⟨hkept _ _, hlt, .inl hok⟩
    | some k =>
      exact hi.created_step hlive hok.1 rfl rfl rfl (.inl rfl)
        ⟨hkept _ _, hlt, .inr ⟨k, hok.1, by simpa using hok.2, by simp⟩⟩
  | unlock =>
    cases hs
    exact hi.release_step hlive hsettled rfl rfl rfl rfl hok fun _ h => ⟨h, hlt, trivial⟩
  | notifyAll =>
    cases hs
    rw [hi.notifyAll_eq i]
    exact hi.setPc hlive ⟨hsettled, hlt, trivial⟩
  | hasSpawned =>
    cases hs
    exact hi.setPc hlive hsettled

/-- Every step of `LaunchThread` keeps the invariant. -/
private theorem launchStep_inv (hi : SpawnInv n osId s) {pc : LaunchPc} {choice : SpawnChoice}
    (hpc : s.pc u = .launch i pc) (hs : s.launchStep u i choice pc = some s') :
    SpawnInv n osId s' := by
  have hlive : (s.pc u).live = true := by rw [hpc]; rfl
  obtain ⟨hhome, hok⟩ : (OsPc.launch i pc).Ok n osId s u := hpc ▸ hi.pc u
  have huse := hi.use i
  cases pc with
  | getCallback =>
    obtain ⟨⟨callback, userdata⟩, hgiven⟩ := hok
    -- the callback of the `Thread` is the one that has been given to it
    have hcallback : (s.thread i).callback = callback := by
      rcases (hi.home u i hhome).2 with hu | ⟨v, hu⟩
      · rw [hu] at huse
        exact (huse.2.2.2.1 callback userdata hgiven).1
      · rw [hu] at huse
        exact (huse.2.2 callback userdata hgiven).1
    simp only [SpawnState.launchStep] at hs
    split at hs
    · next hnone =>
      cases hs
      rw [hcallback] at hnone
      exact hi.setPc hlive ⟨userdata, by rw [hgiven, hnone]⟩
    · next cb hsome =>
      cases hs
      rw [hcallback] at hsome
      exact hi.setPc hlive ⟨hhome, userdata, by rw [hgiven, hsome]⟩
  | lock callback =>
    simp only [SpawnState.launchStep, Option.ite_none_right_eq_some, Option.some.injEq] at hs
    obtain ⟨hfree, rfl⟩ := hs
    -- the mutex is free only after `Spawn` has stored the identifier
    have htaken : s.use i = .taken u := by
      rcases (hi.home u i hhome).2 with hu | ⟨v, hu⟩
      · exact hu
      · rw [hu] at huse
        rw [huse.2.1] at hfree
        cases hfree
    exact hi.taken_step hlive htaken ⟨hhome, htaken, hok⟩
  | readId callback =>
    cases hs
    refine hi.setPc hlive ⟨hhome, ?_, hok⟩
    rw [hok.1] at huse
    simpa [ThreadObject.hasSpawned, huse.2.1] using huse.2.2.1
  | unlock callback ready =>
    cases hs
    obtain ⟨rfl, htaken, hgiven⟩ := hok
    exact hi.taken_step hlive htaken ⟨hhome, htaken, hgiven⟩
  | beginWait callback | wait callback => exact hok.elim
  | call callback =>
    cases hs
    refine hi.setPc hlive fun j hj => ?_
    obtain rfl : i = j := Option.some.inj (hhome.symm.trans hj)
    exact hok.1

/-- Every step of `SetupThread` and `FromCurrentThread` keeps the invariant. -/
private theorem setupStep_inv (hi : SpawnInv n osId s) {checks : Bool} {pc : SetupPc}
    (hpc : s.pc u = .setup i checks pc) : SpawnInv n osId (s.setupStep osId u i checks pc) := by
  have hlive : (s.pc u).live = true := by rw [hpc]; rfl
  obtain ⟨hsettled, hlt, hok⟩ : (OsPc.setup i checks pc).Ok n osId s u := hpc ▸ hi.pc u
  have huse := hi.use i
  cases pc with
  | hasSpawned =>
    simp only [SpawnState.setupStep]
    split
    · exact hi.setPc hlive hsettled
    · next hspawned =>
      refine hi.setPc hlive ⟨hsettled, fun _ _ => Nat.zero_le _, hlt, hok.resolve_right ?_⟩
      rintro ⟨k, hu⟩
      rw [hu] at huse
      exact hspawned (by simpa [ThreadObject.hasSpawned, huse.2.1] using huse.2.2.1)
  | setHandle =>
    rw [hok.1] at huse
    exact hi.claimed_step hlive hok.1 huse ⟨hsettled.of_taken rfl fun _ h => h, hlt, hok⟩
  | setId => exact hi.setId_step hlive hlt hok.1 hok.2 checks

/-- `GetCurrentTLS` returns what belongs to its thread. -/
private theorem findReturns_inv (hi : SpawnInv n osId s) {caller : FindCaller} {j : ℕ}
    (hpc : s.pc u = .find caller j) {result : Option ℕ} (hresult : result = s.home u) :
    SpawnInv n osId (s.findReturns u result caller) := by
  have hlive : (s.pc u).live = true := by rw [hpc]; rfl
  obtain ⟨hsettled, -, hcaller⟩ : (OsPc.find caller j).Ok n osId s u := hpc ▸ hi.pc u
  cases caller with
  | code => exact hi.setPc hlive ⟨hsettled, hresult⟩
  | setup i =>
    obtain ⟨hlt, hu⟩ := hcaller
    cases result with
    | none => exact hi.setPc hlive ⟨hsettled, hlt, hu, hresult.symm⟩
    | some k =>
      have hsame : s.setThread i (s.thread i) = s := by
        simp [SpawnState.setThread]
      have hstep := hi.release_step (p := .code) hlive hsettled (t := s.thread i) rfl rfl rfl rfl
        (.inl hu) fun _ h => h
      rwa [hsame] at hstep
  | setupAgain i =>
    have hsome : s.home u = some i := hcaller
    simp only [SpawnState.findReturns, hresult, hsome, if_true]
    exact hi.setPc hlive hsettled

/-- Every call that the code makes keeps the invariant. -/
private theorem codeStep_inv (hi : SpawnInv n osId s) {h : History SpawnState SpawnAction}
    {choice : SpawnChoice} (hpc : s.pc u = .code) (hok : OwnThreads n osId h s ⟨u, choice⟩)
    (hs : s.codeStep n osId u choice = some s') : SpawnInv n osId s' := by
  have hlive : (s.pc u).live = true := by rw [hpc]; rfl
  have hsettled : s.Settled u := by
    have hcode := hi.pc u
    rwa [hpc] at hcode
  cases choice with
  | spawn i callback userdata =>
    have hunused : s.use i = .unused := hok
    simp only [SpawnState.codeStep, Option.ite_none_right_eq_some, Option.some.injEq] at hs
    obtain ⟨hlt, rfl⟩ := hs
    refine hi.claim_step hpc (by rw [hunused]; rfl) fun s' _ hsettled' huse => ⟨hsettled', hlt, ?_⟩
    rw [hunused] at huse
    exact huse
  | setupThread i =>
    have hcaller : (s.use i).caller = none := hok
    simp only [SpawnState.codeStep, Option.ite_none_right_eq_some, Option.some.injEq] at hs
    obtain ⟨hlt, rfl⟩ := hs
    refine hi.claim_step hpc hcaller fun s' _ hsettled' huse => ⟨hsettled', hlt, ?_⟩
    cases hu : s.use i with
    | unused => exact .inl (by rw [huse, hu]; rfl)
    | taken k => exact .inr ⟨k, by rw [huse, hu]; rfl⟩
    | claimed | created => simp [hu, ThreadUse.caller] at hcaller
  | fromCurrentThread i =>
    obtain ⟨hunused, hhome⟩ : s.use i = .unused ∧ s.home u = none := hok
    simp only [SpawnState.codeStep, Option.ite_none_right_eq_some, Option.some.injEq] at hs
    obtain ⟨hlt, rfl⟩ := hs
    refine hi.claim_step hpc (by rw [hunused]; rfl) fun s' hhome' hsettled' huse =>
      ⟨hsettled', hlt, ?_, by rw [hhome']; exact hhome⟩
    rw [hunused] at huse
    exact huse
  | getCurrentTls =>
    cases hs
    exact hi.setPc hlive ⟨hsettled, fun _ _ => Nat.zero_le _, trivial⟩
  | startThread k =>
    simp only [SpawnState.codeStep, Option.ite_none_right_eq_some, Option.some.injEq] at hs
    obtain ⟨hk, rfl⟩ := hs
    exact hi.startThread_step hk hok
  | exit =>
    cases hs
    exact hi.exit_step hpc
  | step | created | failed | spurious => cases hs

/-- Every step keeps the invariant. -/
theorem step (hi : SpawnInv n osId s) {h : History SpawnState SpawnAction} {a : SpawnAction}
    (hok : OwnThreads n osId h s a) (hs : (spawnSystem n osId).step s a = some s') :
    SpawnInv n osId s' := by
  obtain ⟨u, choice⟩ := a
  change s.osStep n osId u choice (s.pc u) = some s' at hs
  have hpcs := hi.pc u
  cases hpc : s.pc u with
  | code =>
    rw [hpc] at hs
    exact hi.codeStep_inv hpc hok hs
  | find caller j =>
    rw [hpc] at hs hpcs
    obtain ⟨hsettled, hpast, hcaller⟩ := hpcs
    have hlive : (s.pc u).live = true := by rw [hpc]; rfl
    simp only [SpawnState.osStep] at hs
    split at hs
    · next hlt =>
      split at hs
      · next hid =>
        cases hs
        exact hi.findReturns_inv hpc (hi.own u j hlive hid).symm
      · next hid =>
        cases hs
        refine hi.setPc hlive ⟨hsettled, fun i hhome => ?_, hcaller⟩
        -- the `Thread` of `u` is not the one that it has looked at
        have hne : j ≠ i := by
          rintro rfl
          have huse := hi.use j
          rw [hsettled j hhome] at huse
          exact hid huse.2.1
        have hle := hpast i hhome
        omega
    · next hlt =>
      cases hs
      refine hi.findReturns_inv hpc ?_
      cases hhome : s.home u with
      | none => rfl
      | some i =>
        have hle := hpast i hhome
        have hin := (hi.home u i hhome).1
        omega
  | found i =>
    rw [hpc] at hs hpcs
    cases hs
    exact hi.setPc (by rw [hpc]; rfl) hpcs.1
  | spawn i callback userdata pc =>
    rw [hpc] at hs
    refine hi.spawnStep_inv hpc (fun k hk j hj => ?_) hs
    subst hk
    exact hok j hj
  | launch i pc =>
    rw [hpc] at hs
    exact hi.launchStep_inv hpc hs
  | setup i checks pc =>
    rw [hpc] at hs
    cases hs
    exact hi.setupStep_inv hpc
  | absent | threw | failed | ended =>
    rw [hpc] at hs
    cases hs

/-- Before `Run`, the main thread is there, and no `Thread` has been used. -/
theorem start (hne : osId 0 ≠ noThreadId) : SpawnInv n osId (.start osId) where
  use _ := rfl
  pc k := by
    by_cases hk : k = 0
    · subst hk
      exact fun i hi => by cases hi
    · simp [SpawnState.start, hk, OsPc.Ok]
  home k i hk := by cases hk
  owner k hk := by
    have hk0 : k = 0 := by
      by_contra hk0
      simp [SpawnState.start, hk0, OsPc.live] at hk
    subst hk0
    exact ⟨by simp [SpawnState.start], hne⟩
  own k i hk hid := by
    have hk0 : k = 0 := by
      by_contra hk0
      simp [SpawnState.start, hk0, OsPc.live] at hk
    subst hk0
    exact absurd hid.symm hne
  given k hk := absurd rfl hk

end SpawnInv

theorem spawnInv_of_run {n : ℕ} {osId : ℕ → ThreadId} {h : History SpawnState SpawnAction}
    {s : SpawnState} (hr : (spawnSystem n osId).Run (OwnThreads n osId) h s) :
    SpawnInv n osId s := by
  refine hr.invariant (P := fun _ s => SpawnInv n osId s) (fun s hs => ?_)
    fun h s a s' _ hi hok hs => hi.step hok hs
  obtain ⟨hne, rfl⟩ := hs
  exact .start hne

end NomadTasks
