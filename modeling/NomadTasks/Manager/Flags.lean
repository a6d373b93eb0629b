import NomadTasks.Manager.Places
import NomadTasks.Counter.Delivered

/-!
# Who may use a `fiberStored` flag

`WaitForCounter` allocates a flag for its wait, registers it with the counter and leaves it in the
hand-off; the entry that a scan puts into a ready list has the flag, and `GetNextJob` deletes it
with the entry. `FlagInv` says that a flag lives as long as anyone refers to it: the waiting fiber,
the pending hand-off, the registration or the ready list.

* `FlagUse`, `FlagStep`: what a fiber does with the flag of its wait.
* `EntryInv`: the entries of the ready lists, and the registrations that are still to be delivered.
* `FlagInv.fiber_step`, `FlagInv.thread_step`: every step keeps `FlagInv`, and `OwnInv` with it.
-/

namespace NomadTasks

open Transition Ownership

/-! ## The flag of a wait -/

/-- What a fiber does with the flag `fiberStored` of its wait for the value `targetValue` of the
counter `ctr`. -/
inductive FlagUse
  | none
  /-- It has allocated the flag. -/
  | begun (fiberStored : FlagPtr) (targetValue : CounterUnit) (ctr : CtrId)
  /-- It is in the call `x` of `AddWaitingFiber`. -/
  | called (fiberStored : FlagPtr) (targetValue : CounterUnit) (ctr : CtrId) (x : ℕ)
  /-- `AddWaitingFiber` has returned `true`: it is about to delete the flag. -/
  | resolved (fiberStored : FlagPtr) (targetValue : CounterUnit) (ctr : CtrId)
  /-- `AddWaitingFiber` has returned `false`: it is about to switch to another fiber. -/
  | held (fiberStored : FlagPtr) (targetValue : CounterUnit) (ctr : CtrId)
  deriving DecidableEq

/-- What a fiber does with a flag at each program point. -/
def FiberPc.flagUse : FiberPc → FlagUse
  | .begin (.waitForCounter _ _ v p) c => .begun p v c
  | .call (.waitForCounter _ _ v p) c x => .called p v c x
  | .waitForCounter _ _ c v (.deleteStored p) => .resolved p v c
  | .waitForCounter _ _ c v (.setPrevious p) | .waitForCounter _ _ c v (.setDestination p)
  | .waitForCounter _ _ c v (.setStored p) | .waitForCounter _ _ c v (.findFree p _)
  | .waitForCounter _ _ c v (.setCurrent p _) | .waitForCounter _ _ c v (.switchTo p _) =>
      .held p v c
  | _ => .none

/-- What the flag and its registration are while fiber `f` uses it. -/
def FlagUse.Ok (s : ManagerState) (f : ℕ) : FlagUse → Prop
  | .none => True
  | .begun p _ _ => s.flags p = some false ∧ s.flagFiber p = f ∧ s.flagCall p = Option.none
  | .called p v c x =>
      s.flags p = some false ∧ s.flagFiber p = f ∧ s.flagCall p = some (c, x) ∧
        ((s.counters c).calls x).registration = some ⟨f, v, p⟩
  | .resolved p _ c =>
      s.flags p = some false ∧ s.flagFiber p = f ∧
        ∃ x, s.flagCall p = some (c, x) ∧ ((s.counters c).calls x).ownResolved = true
  | .held p v c =>
      s.flags p = some false ∧ s.flagFiber p = f ∧
        ∃ x, s.flagCall p = some (c, x) ∧
          (s.counters c).calls x = .addWaiting ⟨f, v, p⟩ (.returned false)

/-- The act leaves flags, counters and ready lists alone. -/
def Act.keepsFlags : Act → Bool
  | .storeStored _ | .newStored _ | .deleteStored _ | .erase .. | .counter .. => false
  | _ => true

/-- What a step does to the flag that the fiber uses; `τ` is the thread whose `TLS` it uses. -/
inductive FlagStep (s : ManagerState) (τ : ℕ) : FlagUse → Act → FlagUse → Prop
  | quiet {u act} (hact : act.keepsFlags = true) : FlagStep s τ u act u
  | erase {k} : FlagStep s τ .none (.erase τ k) .none
  | storeStored : FlagStep s τ .none (.storeStored τ) .none
  | beginModify {c x op} (hx : (s.counters c).calls x = .notStarted) :
      FlagStep s τ .none (.counter c (.beginModify x op)) .none
  | step {u c x} (hx : ((s.counters c).calls x).inProgress = true) :
      FlagStep s τ u (.counter c (.step x)) u
  | newStored {p v c} (hp : s.flags p = none) : FlagStep s τ .none (.newStored p) (.begun p v c)
  | begin {p v c x} (hx : (s.counters c).calls x = .notStarted) :
      FlagStep s τ (.begun p v c)
        (.counter c (.beginAddWaiting x ⟨(s.tls τ).currentFiberIndex, v, p⟩)) (.called p v c x)
  | reached {p v c x reg} (hx : (s.counters c).calls x = .addWaiting reg (.returned true)) :
      FlagStep s τ (.called p v c x) .none (.resolved p v c)
  | waits {p v c x reg} (hx : (s.counters c).calls x = .addWaiting reg (.returned false)) :
      FlagStep s τ (.called p v c x) .none (.held p v c)
  | threw {p v c x} : FlagStep s τ (.called p v c x) .none .none
  | deleteStored {p v c} : FlagStep s τ (.resolved p v c) (.deleteStored p) .none
  | switchTo {p v c g} : FlagStep s τ (.held p v c) (.switchTo τ g) .none

/-- Every step of a fiber is one of these. -/
theorem FiberStep.flagStep {opts : ManagerOptions} {s : ManagerState} {f τ : ℕ} {act : Act}
    {pc pc' : FiberPc} (h : FiberStep opts s f τ pc act pc') :
    FlagStep s τ pc.flagUse act pc'.flagUse := by
  cases h with
  | storeStored => exact .storeStored
  | erase => exact .erase
  | newStored h0 hp => exact .newStored hp
  | deleteStored => exact .deleteStored
  | addReached hx => exact .reached hx
  | addWaits hx => exact .waits hx
  | addThrew => exact .threw
  | waitSwitchTo => exact .switchTo
  | @begin use c x hx =>
    cases use with
    | waitForCounter => exact .begin hx
    | _ => exact .beginModify hx
  | call hx => exact .step hx
  | _ => exact .quiet rfl

/-- A fiber that uses a flag cannot be switched to. -/
theorem FiberPc.not_resumable_of_flagUse {pc : FiberPc} (h : pc.flagUse ≠ .none) :
    pc.resumable = false := by
  cases pc with
  | waitForCounter ctx caller c v pc =>
    cases pc <;> first | rfl | exact absurd rfl h
  | start | getNextJob _ => exact absurd rfl h
  | _ => rfl

/-! ## The ready lists -/

/-- What a thread's ready list holds. -/
def ManagerState.ready (s : ManagerState) (t : ℕ) : List ReadyFiber := (s.tls t).readyFibers

/-- Each entry of a ready list has a flag of its own, allocated by its fiber for a registration
that has been delivered. A registration that is still to be delivered has one, too. -/
structure EntryInv (s : ManagerState) : Prop where
  counters : ∀ c, CounterInv (s.counters c)
  entry : ∀ t g p, (g, p) ∈ s.ready t → s.flags p ≠ none ∧ s.flagFiber p = g ∧
    ∃ c a, s.flagCall p = some (c, a) ∧ (s.counters c).Delivered a
  nodup : ∀ t, ((s.ready t).map Prod.snd).Nodup
  apart : ∀ t u g h p, (g, p) ∈ s.ready t → (h, p) ∈ s.ready u → t = u
  call : ∀ c a reg, ((s.counters c).calls a).registration = some reg →
    ((s.counters c).calls a).ownResolved = false → ¬ (s.counters c).Delivered a →
    s.flags reg.fiberStored ≠ none ∧ s.flagFiber reg.fiberStored = reg.fiberIndex ∧
      s.flagCall reg.fiberStored = some (c, a)

namespace EntryInv

variable {s s' : ManagerState}

/-- The invariant depends on the flags of the entries that are left, and on those of the
registrations that are still to be delivered. -/
private theorem of_sublist (hi : EntryInv s) (hcounters : s'.counters = s.counters)
    (hready : ∀ t, (s'.ready t).Sublist (s.ready t))
    (hentry : ∀ t g p, (g, p) ∈ s'.ready t → s.flags p ≠ none →
      s'.flags p ≠ none ∧ s'.flagFiber p = s.flagFiber p ∧ s'.flagCall p = s.flagCall p)
    (hcall : ∀ p c a, s.flags p ≠ none → s.flagCall p = some (c, a) →
      ((s.counters c).calls a).ownResolved = false → ¬ (s.counters c).Delivered a →
      s'.flags p ≠ none ∧ s'.flagFiber p = s.flagFiber p ∧ s'.flagCall p = s.flagCall p) :
    EntryInv s' := by
  refine ⟨hcounters ▸ hi.counters, fun t g p hp => ?_,
    fun t => ((hready t).map _).nodup (hi.nodup t),
    fun t u g h p hp hq => hi.apart t u g h p ((hready t).mem hp) ((hready u).mem hq),
    fun c a reg hreg hown hdel => ?_⟩
  · obtain ⟨hne, hg, c, a, hca, hdel⟩ := hi.entry t g p ((hready t).mem hp)
    obtain ⟨hne', hff, hfc⟩ := hentry t g p hp hne
    exact ⟨hne', hff.trans hg, c, a, hfc.trans hca, hcounters ▸ hdel⟩
  · rw [hcounters] at hreg hown hdel
    obtain ⟨hne, hg, hca⟩ := hi.call c a reg hreg hown hdel
    obtain ⟨hne', hff, hfc⟩ := hcall _ c a hne hca hown hdel
    exact ⟨hne', hff.trans hg, hfc.trans hca⟩

/-- Nobody refers to a flag whose registration its own call has resolved. -/
private theorem of_flags (hi : EntryInv s) (hcounters : s'.counters = s.counters)
    (hready : ∀ t, s'.ready t = s.ready t)
    (hflags : ∀ p, s.flags p ≠ none →
      (∀ c a, s.flagCall p = some (c, a) → ((s.counters c).calls a).ownResolved = false) →
      s'.flags p ≠ none ∧ s'.flagFiber p = s.flagFiber p ∧ s'.flagCall p = s.flagCall p) :
    EntryInv s' := by
  refine hi.of_sublist hcounters (fun t => by rw [hready]) (fun t g p hp hne => ?_)
    fun p c a hne hca hown _ => ?_
  · rw [hready] at hp
    obtain ⟨-, -, c, a, hca, hdel⟩ := hi.entry t g p hp
    refine hflags p hne fun c' a' hca' => ?_
    obtain ⟨rfl, rfl⟩ : c = c' ∧ a = a' := by simpa using hca.symm.trans hca'
    exact (hi.counters c).not_ownResolved_of_delivered hdel
  · refine hflags p hne fun c' a' hca' => ?_
    obtain ⟨rfl, rfl⟩ : c = c' ∧ a = a' := by simpa using hca.symm.trans hca'
    exact hown

variable {t f : ℕ}

/-- The acts that leave flags, counters and ready lists alone. -/
theorem apply_keepsFlags {act : Act} (hact : act.keepsFlags = true) (s : ManagerState) (t f : ℕ) :
    (s.apply t f act).flags = s.flags ∧ (s.apply t f act).flagFiber = s.flagFiber ∧
      (s.apply t f act).flagCall = s.flagCall ∧ (s.apply t f act).counters = s.counters ∧
        ∀ u, (s.apply t f act).ready u = s.ready u := by
  cases act with
  | writeTls τ w =>
    refine ⟨rfl, rfl, rfl, rfl, fun u => ?_⟩
    by_cases hu : u = τ
    · subst hu
      cases w <;> simp [ManagerState.ready, ManagerState.apply, TLS.write]
    · simp [ManagerState.ready, ManagerState.apply, hu]
  | endWait caller | throwThrough caller =>
    cases caller <;> exact ⟨rfl, rfl, rfl, rfl, fun _ => rfl⟩
  | _ => first | exact ⟨rfl, rfl, rfl, rfl, fun _ => rfl⟩ | cases hact

/-- They keep the invariant. -/
theorem quiet (hi : EntryInv s) {act : Act} (hact : act.keepsFlags = true) (t f : ℕ) :
    EntryInv (s.apply t f act) := by
  obtain ⟨hflags, hff, hfc, hctr, hready⟩ := apply_keepsFlags hact s t f
  exact hi.of_flags hctr hready fun p hp _ => ⟨by rwa [hflags], by rw [hff], by rw [hfc]⟩

/-- Setting a flag deletes none. -/
theorem storeStored (hi : EntryInv s) (τ : ℕ) : EntryInv (s.apply t f (.storeStored τ)) := by
  refine hi.of_flags rfl (fun _ => rfl) fun p hp _ => ⟨?_, rfl, rfl⟩
  by_cases hpp : p = (s.tls τ).previousFiberStored
  · subst hpp
    simpa [ManagerState.apply] using hp
  · simpa [ManagerState.apply, hpp] using hp

/-- Nobody refers to a flag before it is allocated. -/
theorem newStored (hi : EntryInv s) {p : FlagPtr} (hp : s.flags p = none) :
    EntryInv (s.apply t f (.newStored p)) := by
  refine hi.of_flags rfl (fun _ => rfl) fun q hq _ => ?_
  have hqp : q ≠ p := by
    rintro rfl
    exact hq hp
  simpa [ManagerState.apply, hqp] using hq

/-- Nobody else refers to a flag whose registration its own call has resolved. -/
theorem deleteStored (hi : EntryInv s) {p : FlagPtr} {c : CtrId} {x : ℕ}
    (hcall : s.flagCall p = some (c, x)) (hown : ((s.counters c).calls x).ownResolved = true) :
    EntryInv (s.apply t f (.deleteStored p)) := by
  refine hi.of_flags rfl (fun _ => rfl) fun q hq hun => ?_
  have hqp : q ≠ p := by
    rintro rfl
    simp [hun c x hcall] at hown
  simpa [ManagerState.apply, hqp] using hq

/-- The flag of an entry that is erased belonged to no other entry. -/
theorem erase (hi : EntryInv s) {k g : ℕ} {p : FlagPtr} (hk : (s.ready t)[k]? = some (g, p)) :
    EntryInv (s.apply t f (.erase t k)) := by
  have hready : ∀ u, (s.apply t f (.erase t k)).ready u =
      if u = t then (s.ready t).eraseIdx k else s.ready u := by
    intro u
    by_cases hut : u = t
    · subst hut
      simp [ManagerState.ready, ManagerState.apply]
    · simp [ManagerState.ready, ManagerState.apply, hut]
  have hflags : (s.apply t f (.erase t k)).flags = Function.update s.flags p none := by
    rw [ManagerState.ready] at hk
    simp [ManagerState.apply, ManagerState.flagsAfterErase, hk]
  have hsub : ∀ u, ((s.apply t f (.erase t k)).ready u).Sublist (s.ready u) := by
    intro u
    rw [hready]
    split
    · next hut => exact hut ▸ List.eraseIdx_sublist ..
    · exact .refl _
  have hmem : (g, p) ∈ s.ready t := List.mem_of_getElem? hk
  have hsame : ∀ q, q ≠ p → s.flags q ≠ none →
      (s.apply t f (.erase t k)).flags q ≠ none ∧
        (s.apply t f (.erase t k)).flagFiber q = s.flagFiber q ∧
        (s.apply t f (.erase t k)).flagCall q = s.flagCall q := by
    intro q hqp hne
    refine ⟨?_, rfl, rfl⟩
    rwa [hflags, Function.update_of_ne hqp]
  -- only the flag of the erased entry is deleted with it
  refine hi.of_sublist rfl hsub (fun u h q hq => hsame q ?_) fun q c a hne hca _ hdel =>
    hsame q ?_ hne
  · -- the entries that are left have other flags
    rintro rfl
    obtain rfl : u = t := hi.apart u t h g q ((hsub u).mem hq) hmem
    rw [hready, if_pos rfl, List.mem_eraseIdx_iff_getElem?] at hq
    obtain ⟨j, hjk, hj⟩ := hq
    have hlt : j < ((s.ready u).map Prod.snd).length := by
      rw [List.length_map]
      exact (List.getElem?_eq_some_iff.mp hj).1
    exact hjk ((List.getElem?_inj hlt (hi.nodup u)).mp (by simp [hj, hk]))
  · rintro rfl
    obtain ⟨-, -, c', a', hca', hdel'⟩ := hi.entry t g q hmem
    obtain ⟨rfl, rfl⟩ : c = c' ∧ a = a' := by simpa using hca.symm.trans hca'
    exact hdel hdel'

/-- The invariant depends on the flags, and on what a step on a counter changes: it delivers at most
the registration that `new` names, whose entry it readies, and makes no other. -/
private theorem of_counter (hi : EntryInv s) {c : CtrId} {k' : CounterState ℕ}
    (hcounters : s'.counters = Function.update s.counters c k') (hk' : CounterInv k')
    (hflags : s'.flags = s.flags) (hff : s'.flagFiber = s.flagFiber) (new : Option ℕ)
    (hready : ∀ u, s'.ready u =
      s.ready u ++ if u = t then (new.map fun a => ((s.counters c).calls a).entry).toList else [])
    (hdel : ∀ b, k'.Delivered b ↔ (s.counters c).Delivered b ∨ new = some b)
    (hnew : ∀ a, new = some a → ((s.counters c).calls a).registered = true ∧
      ((s.counters c).calls a).ownResolved = false ∧ ¬ (s.counters c).Delivered a)
    (hkept : CallsKept (s.counters c) k')
    (hfc : ∀ p c' a, s.flagCall p = some (c', a) → s'.flagCall p = s.flagCall p)
    (hreg : ∀ a reg, (k'.calls a).registration = some reg →
      ((s.counters c).calls a).registration = some reg ∨
        (s.flags reg.fiberStored ≠ none ∧ s.flagFiber reg.fiberStored = reg.fiberIndex ∧
          s'.flagCall reg.fiberStored = some (c, a))) : EntryInv s' := by
  have hdeliv : ∀ c' b, (s.counters c').Delivered b → (s'.counters c').Delivered b := by
    intro c' b hb
    rw [hcounters]
    by_cases hc : c' = c
    · subst hc
      rw [Function.update_self]
      exact (hdel b).mpr (.inl hb)
    · rwa [Function.update_of_ne hc]
  -- what the new entry refers to
  have hentry : ∀ a, new = some a → ∀ g p, ((s.counters c).calls a).entry = (g, p) →
      s.flags p ≠ none ∧ s.flagFiber p = g ∧ s.flagCall p = some (c, a) := by
    intro a ha g p hgp
    obtain ⟨hregd, hown, hnot⟩ := hnew a ha
    cases hcall : (s.counters c).calls a with
    | addWaiting reg pc =>
      have hsome : ((s.counters c).calls a).registration = some reg := by rw [hcall]; rfl
      simp only [CounterCall.entry, hsome, Option.map_some, Option.getD_some, Registration.entry,
        Prod.mk.injEq] at hgp
      obtain ⟨rfl, rfl⟩ := hgp
      exact hi.call c a reg hsome hown hnot
    | _ => simp [hcall, CounterCall.registered] at hregd
  have hmem : ∀ u g p, (g, p) ∈ s'.ready u → (g, p) ∈ s.ready u ∨
      u = t ∧ ∃ a, new = some a ∧ ((s.counters c).calls a).entry = (g, p) := by
    intro u g p hp
    rw [hready, List.mem_append] at hp
    refine hp.imp_right fun hp => ?_
    split at hp
    · next hut =>
      simp only [Option.mem_toList, Option.map_eq_some_iff] at hp
      exact ⟨hut, hp⟩
    · cases hp
  -- an entry that is there has another flag than the new one
  have hfresh : ∀ a, new = some a → ∀ g p, ((s.counters c).calls a).entry = (g, p) →
      ∀ u h, (h, p) ∉ s.ready u := by
    intro a ha g p hgp u h hp
    obtain ⟨-, -, hca⟩ := hentry a ha g p hgp
    obtain ⟨-, -, c', a', hca', hdel'⟩ := hi.entry u h p hp
    obtain ⟨rfl, rfl⟩ : c = c' ∧ a = a' := by simpa using hca.symm.trans hca'
    exact (hnew a ha).2.2 hdel'
  refine ⟨fun c' => ?_, fun u g p hp => ?_, fun u => ?_, fun u v g h p hp hq => ?_,
    fun c' a reg hsome hown hnot => ?_⟩
  · rw [hcounters]
    by_cases hc : c' = c
    · subst hc
      rwa [Function.update_self]
    · rw [Function.update_of_ne hc]
      exact hi.counters c'
  · rw [hflags, hff]
    rcases hmem u g p hp with hold | ⟨-, a, ha, hgp⟩
    · obtain ⟨hne, hg, c', a, hca, hdel'⟩ := hi.entry u g p hold
      exact ⟨hne, hg, c', a, (hfc p c' a hca).trans hca, hdeliv c' a hdel'⟩
    · obtain ⟨hne, hg, hca⟩ := hentry a ha g p hgp
      refine ⟨hne, hg, c, a, (hfc p c a hca).trans hca, ?_⟩
      rw [hcounters, Function.update_self]
      exact (hdel a).mpr (.inr ha)
  · rw [hready]
    split
    · cases new with
      | none => simpa using hi.nodup u
      | some a =>
        cases hgp : ((s.counters c).calls a).entry with
        | mk g p =>
          simp only [Option.map_some, hgp, Option.toList_some, List.map_append, List.map_cons,
            List.map_nil]
          refine (hi.nodup u).append (List.nodup_singleton _) ?_
          simp only [List.disjoint_singleton, List.mem_map, Prod.exists, exists_eq_right,
            not_exists]
          exact hfresh a rfl g p hgp u
    · simpa using hi.nodup u
  · rcases hmem u g p hp with hp | ⟨rfl, a, ha, hgp⟩ <;>
      rcases hmem v h p hq with hq | ⟨rfl, b, hb, hhp⟩
    · exact hi.apart u v g h p hp hq
    · exact absurd hp (hfresh b hb h p hhp u g)
    · exact absurd hq (hfresh a ha g p hgp v h)
    · rfl
  · rw [hflags, hff]
    rw [hcounters] at hsome hown hnot
    by_cases hc : c' = c
    · subst hc
      rw [Function.update_self] at hsome hown hnot
      rcases hreg a reg hsome with hold | hbegun
      · have hown' : ((s.counters c').calls a).ownResolved = false := by
          by_contra hres
          simp [hkept.ownResolved a (by simpa using hres)] at hown
        obtain ⟨hne, hg, hca⟩ := hi.call c' a reg hold hown' fun hd => hnot ((hdel a).mpr (.inl hd))
        exact ⟨hne, hg, (hfc _ c' a hca).trans hca⟩
      · exact hbegun
    · rw [Function.update_of_ne hc] at hsome hown hnot
      obtain ⟨hne, hg, hca⟩ := hi.call c' a reg hsome hown hnot
      exact ⟨hne, hg, (hfc _ c' a hca).trans hca⟩

/-- The ready lists after a step on a counter. -/
theorem ready_counter (s : ManagerState) (t f : ℕ) (c : CtrId) (a : CounterAction ℕ) (u : ℕ) :
    (s.apply t f (.counter c a)).ready u =
      s.ready u ++ if u = t then (s.counters c).readied a else [] := by
  by_cases hu : u = t
  · subst hu
    simp [ManagerState.ready, ManagerState.apply]
  · simp [ManagerState.ready, ManagerState.apply, hu]

/-- A step that does not switch changes the ready list of its own thread only. -/
theorem ready_other {act : Act} (hlocal : act.localTo t = true) {u : ℕ} (hut : u ≠ t) :
    (s.apply t f act).ready u = s.ready u := by
  cases act with
  | writeTls τ w | erase τ k =>
    obtain rfl : τ = t := by simpa [Act.localTo] using hlocal
    simp [ManagerState.ready, ManagerState.apply, hut]
  | counter c a => rw [ready_counter, if_neg hut, List.append_nil]
  | endWait caller | throwThrough caller => cases caller <;> rfl
  | switchTo | switchBack | setCallback => cases hlocal
  | _ => rfl

/-- A modifier that begins refers to no flag. -/
theorem beginModify (hi : EntryInv s) {c : CtrId} {x : ℕ} {op : Modifier}
    (hx : (s.counters c).calls x = .notStarted) :
    EntryInv (s.apply t f (.counter c (.beginModify x op))) := by
  have hs : counterStep (s.counters c) (.beginModify x op) =
      some ((s.counters c).setCall x (.modify op .fetch)) := by simp [counterStep, hx,
        CounterAction.begun]
  refine hi.of_counter (by simp [ManagerState.apply, hs])
    ((hi.counters c).step rfl hs) rfl rfl none (ready_counter s t f c _) (fun b => ?_) (by simp)
    (callsKept_step hs) (fun _ _ _ _ => rfl) fun a reg hreg => ?_
  · simp [CounterState.Delivered, CounterState.setCall]
  · exact .inl ((registration_step hs hreg).resolve_right (by simp))

/-- An `AddWaitingFiber` begins with a flag that no other call has registered. -/
theorem beginAdd (hi : EntryInv s) {c : CtrId} {x : ℕ} {reg : Registration}
    (hx : (s.counters c).calls x = .notStarted) (hflag : s.flags reg.fiberStored ≠ none)
    (hff : s.flagFiber reg.fiberStored = reg.fiberIndex)
    (hnone : s.flagCall reg.fiberStored = none) :
    EntryInv (s.apply t f (.counter c (.beginAddWaiting x reg))) := by
  have hs : counterStep (s.counters c) (.beginAddWaiting x reg) =
      some ((s.counters c).setCall x (.addWaiting reg (.casFree 0))) := by simp [counterStep, hx,
        CounterAction.begun]
  refine hi.of_counter (by simp [ManagerState.apply, hs])
    ((hi.counters c).step rfl hs) rfl rfl none (ready_counter s t f c _) (fun b => ?_) (by simp)
    (callsKept_step hs) (fun p c' a hca => ?_) fun a reg' hreg => ?_
  · simp [CounterState.Delivered, CounterState.setCall]
  · have hp : p ≠ reg.fiberStored := by
      rintro rfl
      rw [hnone] at hca
      cases hca
    simp [ManagerState.apply, ManagerState.flagCallAfter, hp]
  · rcases registration_step hs hreg with hold | hbegun
    · exact .inl hold
    · cases hbegun
      exact .inr ⟨hflag, hff, by simp [ManagerState.apply, ManagerState.flagCallAfter]⟩

/-- A call on a counter steps. -/
theorem step (hi : EntryInv s) {c : CtrId} {x : ℕ}
    (hx : ((s.counters c).calls x).inProgress = true)
    (hfresh : staleClaim (s.counters c) (.step x) = false) :
    EntryInv (s.apply t f (.counter c (.step x))) := by
  obtain ⟨eff, call, hn⟩ := CounterCall.exists_next (b := (s.counters c).ctr) hx
  have hk := hi.counters c
  have hs : counterStep (s.counters c) (.step x) = some ((s.counters c).perform x eff call) := by
    simp [counterStep, hn]
  have hreadied : (s.counters c).readied (.step x) = eff.pushes := by
    simp [CounterState.readied, hn]
  have hcounters : (s.apply t f (.counter c (.step x))).counters =
      Function.update s.counters c ((s.counters c).perform x eff call) := by
    simp [ManagerState.apply, hs]
  have hreg : ∀ a reg, ((((s.counters c).perform x eff call).calls a).registration = some reg) →
      ((s.counters c).calls a).registration = some reg := fun a reg h =>
    (registration_step hs h).resolve_right (by simp)
  rcases hk.delivered_perform hn with ⟨hnone, hsame⟩ | ⟨a, hpush, hmem, hmod, hnot, hdel⟩
  · refine hi.of_counter (t := t) hcounters (hk.step hfresh hs) rfl rfl none (fun u => ?_)
      (fun b => by simp [hsame b]) (by simp) (callsKept_step hs) (fun _ _ _ _ => rfl)
      fun a reg h => .inl (hreg a reg h)
    rw [ready_counter, hreadied, hnone]
    rfl
  · refine hi.of_counter (t := t) hcounters (hk.step hfresh hs) rfl rfl (some a) (fun u => ?_)
      (fun b => by rw [hdel b, Option.some.injEq, eq_comm]) (fun b hb => ?_) (callsKept_step hs)
      (fun _ _ _ _ => rfl) fun a reg h => .inl (hreg a reg h)
    · rw [ready_counter, hreadied, hpush]
      rfl
    · obtain rfl : a = b := Option.some.inj hb
      exact ⟨hk.claims.registered a x hmem, hk.not_ownResolved_of_claimed hmod hmem, hnot⟩

end EntryInv

/-! ## The invariant -/

/-- A flag lives as long as its fiber, the hand-off of the fiber, its registration or its entry
refers to it. -/
structure FlagInv (s : ManagerState) : Prop where
  entries : EntryInv s
  uses : ∀ f, (s.fibers f).pc.flagUse.Ok s f
  handoff : ∀ t f, s.running t = some f → (s.stage f).pending = true →
    (s.tls t).previousFiberDestination = .waiting →
      s.flags (s.tls t).previousFiberStored = some false ∧
        s.flagFiber (s.tls t).previousFiberStored = (s.tls t).previousFiberIndex
  erase : ∀ t f k g, s.running t = some f → (s.fibers f).pc = .getNextJob (.erase k g) →
    ∃ p, (s.ready t)[k]? = some (g, p) ∧ s.flags p = some true

/-- What a fiber has of a flag depends on that flag, and on what calls keep. -/
theorem FlagUse.Ok.frame {s s' : ManagerState} {f : ℕ} {u : FlagUse} (hu : u.Ok s f)
    (hflags : ∀ p, s.flags p = some false → s.flagFiber p = f →
      s'.flags p = s.flags p ∧ s'.flagFiber p = s.flagFiber p ∧ s'.flagCall p = s.flagCall p)
    (hctr : ∀ c, CallsKept (s.counters c) (s'.counters c)) : u.Ok s' f := by
  cases u with
  | none => trivial
  | begun p v c =>
    obtain ⟨hp, hpf, hcall⟩ := hu
    obtain ⟨h₁, h₂, h₃⟩ := hflags p hp hpf
    exact ⟨h₁.trans hp, h₂.trans hpf, h₃.trans hcall⟩
  | called p v c x =>
    obtain ⟨hp, hpf, hcall, hreg⟩ := hu
    obtain ⟨h₁, h₂, h₃⟩ := hflags p hp hpf
    exact ⟨h₁.trans hp, h₂.trans hpf, h₃.trans hcall, (hctr c).registration x _ hreg⟩
  | resolved p v c =>
    obtain ⟨hp, hpf, x, hcall, hown⟩ := hu
    obtain ⟨h₁, h₂, h₃⟩ := hflags p hp hpf
    exact ⟨h₁.trans hp, h₂.trans hpf, x, h₃.trans hcall, (hctr c).ownResolved x hown⟩
  | held p v c =>
    obtain ⟨hp, hpf, x, hcall, hret⟩ := hu
    obtain ⟨h₁, h₂, h₃⟩ := hflags p hp hpf
    exact ⟨h₁.trans hp, h₂.trans hpf, x, h₃.trans hcall, (hctr c).returned x _ _ hret⟩

/-- No act takes anything back from a call. -/
theorem callsKept_apply (s : ManagerState) (t f : ℕ) (act : Act) (c : CtrId) :
    CallsKept (s.counters c) ((s.apply t f act).counters c) := by
  cases act with
  | counter c' a =>
    by_cases hc : c = c'
    · subst hc
      simp only [ManagerState.apply, Function.update_self]
      cases hs : counterStep (s.counters c) a with
      | none => exact .refl _
      | some k' => exact callsKept_step hs
    · simp only [ManagerState.apply, Function.update_of_ne hc]
      exact .refl _
  | endWait caller | throwThrough caller => cases caller <;> exact .refl _
  | _ => exact .refl _

/-- A fiber that uses a flag is the current fiber of its thread. -/
theorem OwnInv.clear_of_flagUse {s : ManagerState} {t f : ℕ} (hi : OwnInv s)
    (hrun : s.running t = some f) (h : (s.fibers f).pc.flagUse ≠ .none)
    (hheld : ∀ p v c, (s.fibers f).pc.flagUse ≠ .held p v c) :
    (s.tls t).currentFiberIndex = f := by
  have hat := hi.atStage t f hrun
  rw [ManagerState.stage] at hat
  generalize (s.fibers f).pc = pc at h hat hheld
  cases pc with
  | waitForCounter ctx caller c v pc =>
    cases pc <;> first | exact hat.1 | exact absurd rfl h | exact absurd rfl (hheld _ _ _)
  | «begin» use c => exact hat.1
  | call use c x => exact hat.1
  | _ => exact absurd rfl h

/-- The act is not a stale claim on a counter. -/
def Act.NotStale (s : ManagerState) (act : Act) : Prop :=
  ∀ c x, act = .counter c (.step x) → staleClaim (s.counters c) (.step x) = false

namespace FlagInv

variable {opts : ManagerOptions} {s : ManagerState} {t f : ℕ} {act : Act} {pc' : FiberPc}

/-- The flag that `CleanupPreviousFiber` sets is that of the fiber that is handed off. -/
theorem stored (hf : FlagInv s) (hrun : s.running t = some f)
    (h : FiberStep opts s f t (s.fibers f).pc act pc') (hi : OwnInv s)
    (hact : act = .storeStored t) :
    s.flagFiber (s.tls t).previousFiberStored = (s.tls t).previousFiberIndex ∧
      s.holds (.handoff t) = some (s.tls t).previousFiberIndex := by
  subst hact
  have hstage : s.stage f = .receivedWaiting := by
    rw [ManagerState.stage]
    generalize (s.fibers f).pc = pc at h
    cases h
    rfl
  have hat := hi.atStage t f hrun
  rw [hstage] at hat
  refine ⟨(hf.handoff t f hrun (by rw [hstage]; rfl) hat.2).2, ?_⟩
  simp [ManagerState.holds, ManagerState.handedOff, hrun, hstage, Stage.pending, TLS.previous,
    hat.2]

/-- The entry that `GetNextJob` erases is that of a stored fiber. -/
theorem erased (hf : FlagInv s) (hrun : s.running t = some f)
    (h : FiberStep opts s f t (s.fibers f).pc act pc') {k : ℕ} (hact : act = .erase t k) :
    ∃ g p, (s.ready t)[k]? = some (g, p) ∧ pc'.reserved = some g ∧ s.flags p = some true ∧
      s.flagFiber p = g := by
  subst hact
  obtain ⟨g, hpc, rfl⟩ : ∃ g, (s.fibers f).pc = .getNextJob (.erase k g) ∧
      pc' = .getNextJob (.setPrevious g) := by
    generalize (s.fibers f).pc = pc at h
    cases h
    exact ⟨_, rfl, rfl⟩
  obtain ⟨p, hk, hp⟩ := hf.erase t f k g hrun hpc
  exact ⟨g, p, hk, rfl, hp, (hf.entries.entry t g p (List.mem_of_getElem? hk)).2.1⟩

/-- A step changes no flag that is not set yet and that another fiber has allocated, unless it
performs the hand-off of that fiber. -/
theorem flag_frame (hf : FlagInv s) (hi : OwnInv s) (hrun : s.running t = some f)
    (h : FiberStep opts s f t (s.fibers f).pc act pc') {p : FlagPtr} (hp : s.flags p = some false)
    (hne : s.flagFiber p ≠ f) (hhand : s.holds (.handoff t) ≠ some (s.flagFiber p)) :
    (s.apply t f act).flags p = s.flags p ∧ (s.apply t f act).flagFiber p = s.flagFiber p ∧
      (s.apply t f act).flagCall p = s.flagCall p := by
  have hu := hf.uses f
  have hstored := hf.stored hrun h hi
  have herased := fun k => hf.erased hrun h (k := k)
  have hflag := h.flagStep
  generalize (s.fibers f).pc.flagUse = u at hu hflag
  generalize pc'.flagUse = u' at hflag
  cases hflag with
  | quiet hact =>
    obtain ⟨h₁, h₂, h₃, -, -⟩ := EntryInv.apply_keepsFlags hact s t f
    exact ⟨by rw [h₁], by rw [h₂], by rw [h₃]⟩
  | @erase k =>
    obtain ⟨g, q, hk, -, hq, -⟩ := herased k rfl
    have hpq : p ≠ q := by
      rintro rfl
      simp [hp] at hq
    rw [ManagerState.ready] at hk
    simp [ManagerState.apply, ManagerState.flagsAfterErase, hk, hpq]
  | storeStored =>
    obtain ⟨hff, hplace⟩ := hstored rfl
    have hpq : p ≠ (s.tls t).previousFiberStored := by
      rintro rfl
      exact hhand (hff ▸ hplace)
    simp [ManagerState.apply, hpq]
  | @newStored q _ _ hq =>
    have hpq : p ≠ q := by
      rintro rfl
      simp [hp] at hq
    simp [ManagerState.apply, hpq]
  | @deleteStored q =>
    have hpq : p ≠ q := by
      rintro rfl
      exact hne hu.2.1
    simp [ManagerState.apply, hpq]
  | @begin q =>
    have hpq : p ≠ q := by
      rintro rfl
      exact hne hu.2.1
    simp [ManagerState.apply, ManagerState.flagCallAfter, hpq]
  | beginModify | step | reached | waits | threw | switchTo => exact ⟨rfl, rfl, rfl⟩

/-- The flag of an entry stays set until the thread of the entry erases it. -/
theorem set_frame (hf : FlagInv s) (hrun : s.running t = some f)
    (h : FiberStep opts s f t (s.fibers f).pc act pc') {u g : ℕ} {p : FlagPtr}
    (hp : s.flags p = some true) (hmem : (g, p) ∈ s.ready u) (hut : u ≠ t) :
    (s.apply t f act).flags p = some true := by
  have hu := hf.uses f
  have herased := fun k => hf.erased hrun h (k := k)
  have hflag := h.flagStep
  generalize (s.fibers f).pc.flagUse = use at hu hflag
  generalize pc'.flagUse = use' at hflag
  -- only the thread of the entry erases it and deletes its flag
  cases hflag with
  | quiet hact =>
    obtain ⟨hflags, -⟩ := EntryInv.apply_keepsFlags hact s t f
    rwa [hflags]
  | @erase k =>
    obtain ⟨g', q, hk, -⟩ := herased k rfl
    have hpq : p ≠ q := by
      rintro rfl
      exact hut (hf.entries.apart u t g g' p hmem (List.mem_of_getElem? hk))
    rw [ManagerState.ready] at hk
    simpa [ManagerState.apply, ManagerState.flagsAfterErase, hk, hpq] using hp
  | storeStored =>
    by_cases hpq : p = (s.tls t).previousFiberStored
    · subst hpq
      simp [ManagerState.apply, hp]
    · simpa [ManagerState.apply, hpq] using hp
  | @newStored q _ _ hq =>
    have hpq : p ≠ q := by
      rintro rfl
      simp [hp] at hq
    simpa [ManagerState.apply, hpq] using hp
  | @deleteStored q =>
    have hpq : p ≠ q := by
      rintro rfl
      simp [hu.1] at hp
    simpa [ManagerState.apply, hpq] using hp
  | begin | beginModify | step | reached | waits | threw | switchTo => exact hp

/-- A step of a fiber keeps the ready lists in line. -/
theorem entries_step (hf : FlagInv s) (hi : OwnInv s) (hrun : s.running t = some f)
    (h : FiberStep opts s f t (s.fibers f).pc act pc') (hfresh : act.NotStale s) :
    EntryInv (s.apply t f act) := by
  have hu := hf.uses f
  have hcur := hi.clear_of_flagUse hrun
  have herased := fun k => hf.erased hrun h (k := k)
  have hflag := h.flagStep
  generalize (s.fibers f).pc.flagUse = u at hu hflag hcur
  generalize pc'.flagUse = u' at hflag
  -- by what the step does to the flags, one lemma each
  cases hflag with
  | quiet hact => exact hf.entries.quiet hact t f
  | @erase k =>
    obtain ⟨g, p, hk, -⟩ := herased k rfl
    exact hf.entries.erase hk
  | storeStored => exact hf.entries.storeStored t
  | newStored hp => exact hf.entries.newStored hp
  | deleteStored =>
    obtain ⟨-, -, x, hcall, hown⟩ := hu
    exact hf.entries.deleteStored hcall hown
  | begin hx =>
    obtain ⟨hp, hpf, hnone⟩ := hu
    exact hf.entries.beginAdd hx (by simp [hp]) (hpf.trans (hcur (by simp) (by simp)).symm) hnone
  | beginModify hx => exact hf.entries.beginModify hx
  | step hx => exact hf.entries.step hx (hfresh _ _ rfl)
  | reached | waits | threw => exact hf.entries
  | switchTo => exact hf.entries.quiet rfl t f

/-- A fiber keeps its own flag in line. -/
theorem uses_self (hf : FlagInv s) (hi : OwnInv s) (hrun : s.running t = some f)
    (h : FiberStep opts s f t (s.fibers f).pc act pc') :
    pc'.flagUse.Ok (s.apply t f act) f := by
  have hu := hf.uses f
  have hcur := hi.clear_of_flagUse hrun
  have hflag := h.flagStep
  generalize (s.fibers f).pc.flagUse = u at hu hflag hcur
  generalize pc'.flagUse = u' at hflag
  cases hflag with
  | quiet hact =>
    obtain ⟨h₁, h₂, h₃, -, -⟩ := EntryInv.apply_keepsFlags hact s t f
    exact hu.frame (fun p _ _ => ⟨by rw [h₁], by rw [h₂], by rw [h₃]⟩) (callsKept_apply s t f act)
  | erase | storeStored | beginModify | threw | deleteStored | switchTo => trivial
  | newStored => simp [FlagUse.Ok, ManagerState.apply]
  | @begin p v c x hx =>
    obtain ⟨hp, hpf, -⟩ := hu
    refine ⟨hp, hpf, by simp [ManagerState.apply, ManagerState.flagCallAfter], ?_⟩
    simp [ManagerState.apply, counterStep, hx, CounterAction.begun, CounterCall.registration,
      hcur (by simp) (by simp)]
  | step => exact hu.frame (fun _ _ _ => ⟨rfl, rfl, rfl⟩) (callsKept_apply s t f _)
  | @reached p v c x reg hx =>
    obtain ⟨hp, hpf, hcall, -⟩ := hu
    exact ⟨hp, hpf, x, hcall, by
      change ((s.counters c).calls x).ownResolved = true
      rw [hx]
      rfl⟩
  -- the registration that waits is the one that the call has made
  | @waits p v c x reg hx =>
    obtain ⟨hp, hpf, hcall, hreg⟩ := hu
    rw [hx, CounterCall.registration, Option.some.injEq] at hreg
    exact ⟨hp, hpf, x, hcall, hreg ▸ hx⟩

/-- A fiber that uses a flag is not handed off. -/
theorem uses_other (hf : FlagInv s) (hi : OwnInv s) (hrun : s.running t = some f)
    (h : FiberStep opts s f t (s.fibers f).pc act pc') {g : ℕ} (hgf : g ≠ f) :
    (s.fibers g).pc.flagUse.Ok (s.apply t f act) g := by
  by_cases hnone : (s.fibers g).pc.flagUse = .none
  · rw [hnone]
    trivial
  · refine (hf.uses g).frame (fun p hp hpg => hf.flag_frame hi hrun h hp (hpg ▸ hgf) ?_)
      (callsKept_apply s t f act)
    intro hplace
    have hres := hi.resumable _ _ rfl hplace
    rw [hpg, FiberPc.not_resumable_of_flagUse hnone] at hres
    cases hres

/-- Steps of a fiber that does not switch keep the flags in line. -/
theorem local_step (hf : FlagInv s) (hi : OwnInv s) (hrun : s.running t = some f)
    (h : FiberStep opts s f t (s.fibers f).pc act pc') (hlocal : act.localTo t = true)
    (hfresh : act.NotStale s) : FlagInv ((s.apply t f act).setFiber f ⟨t, pc'⟩) := by
  have hl : LocalStep s t f pc' ((s.apply t f act).setFiber f ⟨t, pc'⟩) := .of_apply pc' hlocal
  have hentries := hf.entries_step hi hrun h hfresh
  have hne : ∀ u g, u ≠ t → s.running u = some g → g ≠ f :=
    fun u g hu hg hgf => hu (hi.run_unique (hgf ▸ hg) hrun)
  refine ⟨⟨hentries.counters, hentries.entry, hentries.nodup, hentries.apart, hentries.call⟩,
    fun g => ?_, fun u g hu hpend hwait => ?_, fun u g k h' hu hpc => ?_⟩
  · by_cases hgf : g = f
    · subst hgf
      rw [hl.fibers, Function.update_self]
      exact hf.uses_self hi hrun h
    · rw [hl.fibers, Function.update_of_ne hgf]
      exact hf.uses_other hi hrun h hgf
  · have hu' : s.running u = some g := hl.running ▸ hu
    by_cases hut : u = t
    · subst hut
      obtain rfl : f = g := Option.some.inj (hrun.symm.trans hu')
      have hstep := h.stageStep (hi.not_gone hrun)
      rw [ManagerState.stage, hl.fibers, Function.update_self, hl.mainCallback] at hpend
      obtain ⟨rfl, hpend⟩ := hstep.of_pending hpend fun k hk => by rw [hk] at hlocal; cases hlocal
      exact hf.handoff u f hrun hpend hwait
    · obtain ⟨hindex, hdest, hstored⟩ := hl.previous_other hut
      rw [hdest] at hwait
      rw [hl.stage_other (hne u g hut hu')] at hpend
      rw [hstored, hindex]
      obtain ⟨hp, hpf⟩ := hf.handoff u g hu' hpend hwait
      have hplace : s.holds (.handoff u) = some (s.tls u).previousFiberIndex := by
        simp [ManagerState.holds, ManagerState.handedOff, hu', hpend, TLS.previous, hwait]
      -- the flag in the hand-off of another thread is neither deleted nor stored by this step
      obtain ⟨h₁, h₂, -⟩ := hf.flag_frame hi hrun h hp
        (fun heq => hi.not_running (t := t) rfl hplace (by rw [hrun, ← heq, hpf]))
        (fun hother => by
          cases hi.exclusive _ _ _ (hpf ▸ hother) hplace
          exact hut rfl)
      exact ⟨h₁.trans hp, h₂.trans hpf⟩
  · have hu' : s.running u = some g := hl.running ▸ hu
    by_cases hut : u = t
    · subst hut
      obtain rfl : f = g := Option.some.inj (hrun.symm.trans hu')
      rw [hl.fibers, Function.update_self] at hpc
      obtain rfl : pc' = .getNextJob (.erase k h') := hpc
      obtain ⟨rfl, p, hk, hp⟩ : act = .none ∧ ∃ p, (s.ready u)[k]? = some (h', p) ∧
          s.flags p ≠ some false := by
        generalize (s.fibers f).pc = pc at h
        cases h with
        | readyTake hk hp => exact ⟨rfl, _, hk, hp⟩
      obtain ⟨hlive, -⟩ := hf.entries.entry u h' p (List.mem_of_getElem? hk)
      refine ⟨p, hk, ?_⟩
      change s.flags p = some true
      cases hflag : s.flags p with
      | none => exact absurd hflag hlive
      | some stored => cases stored <;> simp_all
    · rw [hl.fibers, Function.update_of_ne (hne u g hut hu')] at hpc
      obtain ⟨p, hk, hp⟩ := hf.erase u g k h' hu' hpc
      refine ⟨p, ?_, hf.set_frame hrun h hp (List.mem_of_getElem? hk) hut⟩
      change ((s.apply t f act).ready u)[k]? = _
      rwa [EntryInv.ready_other hlocal hut]

/-- Steps that leave flags, counters and ready lists alone keep them in line when every thread goes
on with what it has executed, or switches to a fiber whose predecessor has left its flag. -/
private theorem of_switch (hf : FlagInv s) {s' : ManagerState} (hflags : s'.flags = s.flags)
    (hff : s'.flagFiber = s.flagFiber) (hfc : s'.flagCall = s.flagCall)
    (hctr : s'.counters = s.counters) (hready : ∀ u, s'.ready u = s.ready u)
    (huse : ∀ g, (s'.fibers g).pc.flagUse = .none ∨ s'.fibers g = s.fibers g)
    (hrun : ∀ u g, s'.running u = some g →
      (s.running u = some g ∧ s'.fibers g = s.fibers g ∧ s'.stage g = s.stage g ∧
        s'.tls u = s.tls u) ∨
      ((s'.fibers g).pc.resumable = true ∧
        ((s'.tls u).previousFiberDestination = .waiting →
          s.flags (s'.tls u).previousFiberStored = some false ∧
            s.flagFiber (s'.tls u).previousFiberStored = (s'.tls u).previousFiberIndex))) :
    FlagInv s' := by
  -- flags, counters and ready lists stay: only who runs where has changed
  refine ⟨?_, fun g => ?_, fun u g hu hpend hwait => ?_, fun u g k h hu hpc => ?_⟩
  · exact hf.entries.of_flags hctr hready fun p hp _ => ⟨by rwa [hflags], by rw [hff], by rw [hfc]⟩
  · rcases huse g with hnone | hsame
    · rw [hnone]
      trivial
    · rw [hsame]
      exact (hf.uses g).frame (fun p _ _ => ⟨by rw [hflags], by rw [hff], by rw [hfc]⟩)
        fun c => hctr ▸ .refl _
  · rw [hflags, hff]
    rcases hrun u g hu with ⟨hu', -, hstage, htls⟩ | ⟨-, hnew⟩
    · rw [htls] at hwait ⊢
      exact hf.handoff u g hu' (hstage ▸ hpend) hwait
    · exact hnew hwait
  · rcases hrun u g hu with ⟨hu', hfib, -⟩ | ⟨hres, -⟩
    · rw [hready, hflags]
      exact hf.erase u g k h hu' (hfib ▸ hpc)
    · rw [hpc] at hres
      cases hres

/-- A fiber that switches leaves its flag in the hand-off. -/
theorem switch_step (hf : FlagInv s) (hi : OwnInv s) (hrun : s.running t = some f) {g : ℕ}
    (h : FiberStep opts s f t (s.fibers f).pc (.switchTo t g) pc') :
    FlagInv ((s.apply t f (.switchTo t g)).setFiber f ⟨t, pc'⟩) := by
  have hu := hf.uses f
  have hat := hi.atStage t f hrun
  obtain ⟨hres, hnone, hleft⟩ : (s.fibers f).pc.reserved = some g ∧ pc'.flagUse = .none ∧
      ((s.tls t).previousFiberDestination = .waiting →
        s.flags (s.tls t).previousFiberStored = some false ∧
          s.flagFiber (s.tls t).previousFiberStored = (s.tls t).previousFiberIndex) := by
    rw [ManagerState.stage] at hat
    generalize (s.fibers f).pc = pc at h hu hat
    cases h with
    -- only `WaitForCounter` leaves a fiber behind to be stored
    | nextSwitchTo =>
      refine ⟨rfl, rfl, fun hwait => ?_⟩
      have hpool := hat.2
      simp [TLS.handoff, hwait] at hpool
    | mainSwitchTo =>
      refine ⟨rfl, rfl, fun hwait => ?_⟩
      simp [hat.2] at hwait
    | waitSwitchTo =>
      refine ⟨rfl, rfl, fun hwait => ?_⟩
      have hstored := hat.2
      simp only [TLS.handoff, hwait, Option.some.injEq, Handoff.waiting.injEq] at hstored
      rw [hstored.1, hstored.2]
      exact ⟨hu.1, hu.2.1⟩
  have hplace : s.holds (.fiber f) = some g := hres
  refine hf.of_switch rfl rfl rfl rfl (fun _ => rfl) (fun k => ?_) fun u k hk => ?_
  · by_cases hkf : k = f
    · subst hkf
      exact .inl (by simpa using hnone)
    · exact .inr (by simp [hkf])
  · by_cases hut : u = t
    · subst hut
      obtain rfl : g = k := by simpa [ManagerState.apply] using hk
      have hgf : g ≠ f := by
        rintro rfl
        exact hi.not_running (l := .fiber g) rfl hplace hrun
      refine .inr ⟨?_, hleft⟩
      rw [ManagerState.setFiber_fibers, Function.update_of_ne hgf]
      exact hi.resumable (.fiber f) g rfl hplace
    · have hk' : s.running u = some k := by simpa [ManagerState.apply, hut] using hk
      have hkf : k ≠ f := by
        rintro rfl
        exact hut (hi.run_unique hk' hrun)
      have hfib : ((s.apply t f (.switchTo t g)).setFiber f ⟨t, pc'⟩).fibers k = s.fibers k := by
        simp [hkf]
      exact .inl ⟨hk', hfib, by rw [ManagerState.stage, hfib]; rfl, rfl⟩

/-- A fiber that switches back to its thread uses no flag. -/
theorem switchBack_step (hf : FlagInv s) (hi : OwnInv s) (hrun : s.running t = some f) :
    FlagInv ((s.apply t f .switchBack).setFiber f ⟨t, .ended⟩) := by
  refine hf.of_switch rfl rfl rfl rfl (fun _ => rfl) (fun k => ?_) fun u k hk => ?_
  · by_cases hkf : k = f
    · subst hkf
      exact .inl (by simp [FiberPc.flagUse])
    · exact .inr (by simp [hkf])
  · have hut : u ≠ t := by
      rintro rfl
      simp [ManagerState.apply] at hk
    have hk' : s.running u = some k := by simpa [ManagerState.apply, hut] using hk
    have hkf : k ≠ f := by
      rintro rfl
      exact hut (hi.run_unique hk' hrun)
    have hfib : ((s.apply t f .switchBack).setFiber f ⟨t, .ended⟩).fibers k = s.fibers k := by
      simp [hkf]
    exact .inl ⟨hk', hfib, by rw [ManagerState.stage, hfib]; rfl, rfl⟩

/-- A step of the own code of a thread keeps the flags in line. -/
theorem thread_step (hf : FlagInv s) (hi : OwnInv s) (hrun : s.running t = none) {pc : ThreadPc}
    (h : ThreadStep s t (s.threads t) act pc) :
    FlagInv ((s.apply t noFiber act).setThread t pc) := by
  have hkeeps : act.keepsFlags = true := by
    generalize s.threads t = pc₀ at h
    cases h <;> rfl
  obtain ⟨hflags, hff, hfc, hctr, hready⟩ := EntryInv.apply_keepsFlags hkeeps s t noFiber
  have hut : ∀ u k, s.running u = some k → u ≠ t := by
    rintro u k hu rfl
    rw [hrun] at hu
    cases hu
  refine hf.of_switch hflags hff hfc hctr hready (fun k => .inr (by simp)) fun u k hk => ?_
  generalize hpc : s.threads t = pc₀ at h
  cases h with
  | search | found => exact .inl ⟨hk, rfl, rfl, rfl⟩
  | setCurrentMain | setCurrentWorker =>
    exact .inl ⟨hk, rfl, rfl, by simp [ManagerState.apply, hut u k hk]⟩
  | @setCallback g =>
    have hplace : s.holds (.thread t) = some g := by simp [ManagerState.holds, hpc,
      ThreadPc.reserved]
    have hkg : k ≠ g := by
      rintro rfl
      exact hi.not_running (l := .thread t) rfl hplace hk
    exact .inl ⟨hk, rfl, by simp [ManagerState.stage, ManagerState.apply, hkg], rfl⟩
  -- the own code of a thread leaves no hand-off
  | @switchTo g =>
    by_cases hut : u = t
    · subst hut
      obtain rfl : g = k := by simpa [ManagerState.apply] using hk
      have hplace : s.holds (.thread u) = some g := by simp [ManagerState.holds, hpc,
        ThreadPc.reserved]
      have hok := hi.ownCode u hrun
      rw [hpc] at hok
      refine .inr ⟨hi.resumable _ g rfl hplace, fun hwait => ?_⟩
      change (s.tls u).previousFiberDestination = .waiting at hwait
      simp [hok.2] at hwait
    · exact .inl ⟨by simpa [ManagerState.apply, hut] using hk, rfl, rfl, rfl⟩

end FlagInv

end NomadTasks
