import NomadTasks.Counter.Occupant

/-!
# Every registration is resolved once, and for its own fiber

A registration is pending in its slot, or its own `AddWaitingFiber` has claimed it, or exactly one
`CheckWaitingFibers` has, which then pushes its entry. That holds in every run without a *stale
claim*: the last exchange of `AddWaitingFiber` does not check that the slot still holds the call's
own registration, so when a scan has resolved and freed the slot and another call has registered
in it since, the exchange takes the other's registration, and its fiber is never woken.

* `ClaimInv`: what the slots say about claimed and unclaimed registrations.
* `registration_resolved_once`: every run without a stale claim resolves registrations once.
* `registration_lost`: a stale claim loses one.
-/

namespace NomadTasks

open Transition Ownership

variable {ι : Type}

/-- The entry that wakes the fiber of a slot. -/
def WaitingFibers.entry (slot : WaitingFibers) : ReadyFiber := (slot.fiberIndex, slot.fiberStored)

/-- A slot that matches a registration has its entry. -/
theorem Registration.Matches.entry_eq {reg : Registration} {slot : WaitingFibers}
    (h : reg.Matches slot) : slot.entry = reg.entry := by
  rw [WaitingFibers.entry, Registration.entry, h.1, h.2.1]

namespace CounterCall

/-- The call is an `Increment` or a `Decrement`. -/
def isModify : CounterCall → Bool
  | .modify _ _ => true
  | _ => false

/-- The entry that wakes the fiber of the call's registration. -/
def entry (c : CounterCall) : ReadyFiber :=
  (c.registration.map Registration.entry).getD (noFiber, 0)

/-- The entry that a scan has claimed and not yet pushed. -/
def inHand (b : BaseCounter) : CounterCall → List ReadyFiber
  | .modify _ (.check _ _ (.loadFiberIndex i)) => [(b.waitingFibers i).entry]
  | .modify _ (.check _ _ (.push i fiberIndex)) => [(fiberIndex, (b.waitingFibers i).fiberStored)]
  | _ => []

/-- A call keeps its kind and its registration. -/
theorem registration_next {b : BaseCounter} {c c' : CounterCall} {eff : Effect}
    (hn : c.next b = some (eff, c')) :
    c'.registration = c.registration ∧ c'.isModify = c.isModify := by
  rcases c with _ | ⟨reg, pc⟩ | ⟨op, pc⟩
  · cases hn
  all_goals
    simp only [next, Option.map_eq_some_iff, Prod.exists, Prod.mk.injEq] at hn
    obtain ⟨eff', pc', -, -, rfl⟩ := hn
    exact ⟨rfl, rfl⟩

/-- A call registers by publishing only. -/
theorem registered_next {b : BaseCounter} {c c' : CounterCall} {eff : Effect}
    (hn : c.next b = some (eff, c')) (hpub : ∀ i, eff ≠ .publish i) :
    c'.registered = c.registered := by
  rcases c with _ | ⟨reg, pc⟩ | ⟨op, pc⟩
  · cases hn
  · revert hn
    simp only [next]
    fun_cases AddPc.next b reg pc <;> rintro ⟨⟩ <;> simp_all [registered, AddPc.registered]
  · simp only [next, Option.map_eq_some_iff, Prod.exists, Prod.mk.injEq] at hn
    obtain ⟨eff', pc', -, -, rfl⟩ := hn
    rfl

/-- An `AddWaitingFiber` resolves a registration itself by a claim only. -/
theorem ownResolved_next {b : BaseCounter} {c c' : CounterCall} {eff : Effect}
    (hn : c.next b = some (eff, c')) (hclaim : ∀ i, eff ≠ .claim i) :
    c'.ownResolved = c.ownResolved := by
  rcases c with _ | ⟨reg, pc⟩ | ⟨op, pc⟩
  · cases hn
  · revert hn
    simp only [next]
    fun_cases AddPc.next b reg pc <;> rintro ⟨⟩ <;> simp_all [ownResolved]
  · simp only [next, Option.map_eq_some_iff, Prod.exists, Prod.mk.injEq] at hn
    obtain ⟨eff', pc', -, -, rfl⟩ := hn
    rfl

end CounterCall

/-- The entry that an effect puts into a ready list. -/
def Effect.pushes : Effect → List ReadyFiber
  | .push entry => [entry]
  | _ => []

/-- The entry that a scan takes from a slot by an effect. -/
def Effect.takes (b : BaseCounter) : Effect → List ReadyFiber
  | .claim i => [(b.waitingFibers i).entry]
  | _ => []

/-- A scan pushes the entries it takes, in order. -/
theorem CounterCall.inHand_next {b : BaseCounter} {c c' : CounterCall} {eff : Effect}
    (hn : c.next b = some (eff, c')) :
    eff.pushes ++ c'.inHand (b.apply eff) =
      c.inHand b ++ if c.isModify then eff.takes b else [] := by
  rcases c with _ | ⟨reg, pc⟩ | ⟨op, _ | ⟨prev, value, pc⟩ | prev⟩
  · cases hn
  · revert hn
    simp only [next]
    fun_cases AddPc.next b reg pc <;> rintro ⟨⟩ <;> rfl
  · cases hn
    rfl
  · revert hn
    simp only [next, ModifyPc.next]
    fun_cases ScanPc.next b value pc <;> rintro ⟨⟩ <;>
      simp [Effect.pushes, Effect.takes, inHand, isModify, WaitingFibers.entry, BaseCounter.apply,
        BaseCounter.setSlot]
  · cases hn

/-! ## The invariant -/

/-- What the slots say about claims. The slots whose `_inUse` is false hold exactly the
registrations that nobody has claimed; no registration is claimed twice; an `AddWaitingFiber`
claims no registration but its own. -/
structure ClaimInv (s : CounterState ι) : Prop where
  published : ∀ i, (s.ctr.waitingFibers i).inUse = false → ∃ a, s.occupant i = some a ∧
    (s.calls a).registered = true ∧ ∀ x, a ∉ s.claims x
  pending : ∀ a, (s.calls a).registered = true → (∀ x, a ∉ s.claims x) →
    ∃ i, s.occupant i = some a ∧ (s.ctr.waitingFibers i).inUse = false
  unique : ∀ a x y, a ∈ s.claims x → a ∈ s.claims y → x = y
  nodup : ∀ x, (s.claims x).Nodup
  registered : ∀ a x, a ∈ s.claims x → (s.calls a).registered = true
  claimer : ∀ a x, a ∈ s.claims x → (s.calls x).isModify = true ∨ a = x
  own : ∀ x, x ∈ s.claims x ↔ (s.calls x).ownResolved = true

/-- The ready lists hold the entries of the registrations that scans have claimed, apart from the
one that a scan has claimed and not yet pushed. -/
def PushInv (s : CounterState ι) : Prop :=
  ∀ x, s.pushed x ++ (s.calls x).inHand s.ctr =
    if (s.calls x).isModify then (s.claims x).map fun a => (s.calls a).entry else []

/-- The step is the last exchange of an `AddWaitingFiber`, and takes a registration that is not
its own. -/
def staleClaim [DecidableEq ι] (s : CounterState ι) : CounterAction ι → Bool
  | .step x =>
      match s.calls x with
      | .addWaiting _ (.casInUse i) =>
          !(s.ctr.waitingFibers i).inUse && decide (s.occupant i ≠ some x)
      | _ => false
  | _ => false

namespace ClaimInv

variable {s : CounterState ι}

/-- A call that has registered nothing is in no claims. -/
theorem not_mem (h : ClaimInv s) {a : ι} (ha : (s.calls a).registered = false) (x : ι) :
    a ∉ s.claims x := fun hx => by simp [h.registered a x hx] at ha

/-- The invariant depends on the claims, the flags and the occupants of the slots not in use, and
on what kind of calls there are and which of them have registered and resolved themselves. -/
theorem frame (h : ClaimInv s) {s' : CounterState ι} (hclaims : s'.claims = s.claims)
    (huse : ∀ i, (s'.ctr.waitingFibers i).inUse = (s.ctr.waitingFibers i).inUse)
    (hocc : ∀ i, (s.ctr.waitingFibers i).inUse = false → s'.occupant i = s.occupant i)
    (hreg : ∀ y, (s'.calls y).registered = (s.calls y).registered)
    (hkind : ∀ y, (s.calls y).isModify = true → (s'.calls y).isModify = true)
    (hown : ∀ y, (s'.calls y).ownResolved = (s.calls y).ownResolved) : ClaimInv s' where
  published i hi := by
    rw [huse] at hi
    simpa only [hclaims, hocc i hi, hreg] using h.published i hi
  pending a ha hun := by
    obtain ⟨i, hi, hin⟩ := h.pending a (hreg a ▸ ha) (hclaims ▸ hun)
    exact ⟨i, (hocc i hin).trans hi, (huse i).trans hin⟩
  unique := by simpa only [hclaims] using h.unique
  nodup := by simpa only [hclaims] using h.nodup
  registered := by simpa only [hclaims, hreg] using h.registered
  claimer a x hx := (h.claimer a x (hclaims ▸ hx)).imp_left (hkind x)
  own := by simpa only [hclaims, hown] using h.own

variable [DecidableEq ι] {x : ι} {c : CounterCall}

/-- A call that begins claims nothing. -/
theorem setCall (h : ClaimInv s) (hx : s.calls x = .notStarted) (hreg : c.registered = false)
    (hown : c.ownResolved = false) : ClaimInv (s.setCall x c) :=
  h.frame rfl (fun _ => rfl) (fun _ _ => rfl) (s.update_congr _ (by rw [hreg, hx]; rfl))
    (fun y hy => by
      have hyx : y ≠ x := by
        rintro rfl
        simp [hx, CounterCall.isModify] at hy
      rwa [CounterState.setCall_calls, Function.update_of_ne hyx])
    (s.update_congr _ (by rw [hown, hx]; rfl))

/-- A step that neither publishes nor claims a registration changes none. -/
private theorem perform_other (h : ClaimInv s) (hslots : SlotInv s) {eff : Effect}
    (hn : (s.calls x).next s.ctr = some (eff, c)) (hpub : ∀ i, eff ≠ .publish i)
    (hclaim : ∀ i, eff ≠ .claim i) : ClaimInv (s.perform x eff c) := by
  -- no claim and no publication: at most the fields of one slot change
  have hkind := (CounterCall.registration_next hn).2
  have hreg := CounterCall.registered_next hn hpub
  have hown := CounterCall.ownResolved_next hn hclaim
  have hok := CounterCall.holdsOk hn
  refine h.frame ?_ (fun i => ?_) (fun i hi => ?_) (s.update_congr _ hreg)
    (fun y hy => (s.update_congr _ hkind y).trans hy) (s.update_congr _ hown)
  · cases eff <;> first | rfl | exact absurd rfl (hclaim _)
  · cases eff with
    | write j slot =>
      by_cases hij : i = j
      · subst hij
        simpa [BaseCounter.apply, BaseCounter.setSlot] using hok.2.2
      · simp [BaseCounter.apply, BaseCounter.setSlot, hij]
    | publish j => exact absurd rfl (hpub j)
    | claim j => exact absurd rfl (hclaim j)
    | _ => rfl
  · cases eff with
    | acquire j =>
      -- the slot that is acquired was free, so that no registration is in it
      have hij : i ≠ j := by
        rintro rfl
        simp [hslots.free_inUse i hok.1] at hi
      exact Function.update_of_ne hij _ _
    | _ => rfl

/-- Publishing makes a new registration, which nobody has claimed yet. -/
private theorem perform_publish (h : ClaimInv s) (hslots : SlotInv s) (hocc : OccupantInv s)
    {i : ℕ} (hn : (s.calls x).next s.ctr = some (.publish i, c)) :
    ClaimInv (s.perform x (.publish i) c) := by
  obtain ⟨reg, hx, rfl⟩ := CounterCall.next_publish hn
  have hocci : s.occupant i = some x := hocc.setup x i (by rw [hx]; rfl)
  have huse : (s.ctr.waitingFibers i).inUse = true := (hslots.held x i (by
    rw [CounterState.holds, hx]; rfl)).2
  -- nobody has claimed a registration that was not published
  have hnew : ∀ y, x ∉ s.claims y := h.not_mem (by rw [hx]; rfl)
  have hcalls : ∀ y, y ≠ x → (s.perform x (.publish i) (.addWaiting reg (.loadCounter i))).calls y =
      s.calls y := fun y hy => Function.update_of_ne hy _ _
  have hself : (s.perform x (.publish i) (.addWaiting reg (.loadCounter i))).calls x =
      .addWaiting reg (.loadCounter i) := Function.update_self ..
  have hslot : ∀ j, j ≠ i → ((s.perform x (.publish i)
      (.addWaiting reg (.loadCounter i))).ctr.waitingFibers j) = s.ctr.waitingFibers j :=
    fun j hj => Function.update_of_ne hj _ _
  -- the new registration is in slot `i`; the others are where they were
  refine ⟨fun j hj => ?_, fun a ha hun => ?_, h.unique, h.nodup, fun a y hay => ?_,
    fun a y hay => ?_, fun y => ?_⟩
  · by_cases hji : j = i
    · subst hji
      exact ⟨x, hocci, by rw [hself]; rfl, hnew⟩
    · rw [hslot j hji] at hj
      obtain ⟨a, ha, hreg, hun⟩ := h.published j hj
      refine ⟨a, ha, ?_, hun⟩
      have hax : a ≠ x := by
        rintro rfl
        simp [hx, CounterCall.registered, AddPc.registered] at hreg
      rwa [hcalls a hax]
  · by_cases hax : a = x
    · subst hax
      exact ⟨i, hocci, by simp [BaseCounter.apply, BaseCounter.setSlot]⟩
    · rw [hcalls a hax] at ha
      obtain ⟨j, hj, hin⟩ := h.pending a ha hun
      have hji : j ≠ i := by
        rintro rfl
        simp [huse] at hin
      exact ⟨j, hj, by rwa [hslot j hji]⟩
  · have hax : a ≠ x := by
      rintro rfl
      exact hnew y hay
    rw [hcalls a hax]
    exact h.registered a y hay
  · by_cases hyx : y = x
    · subst hyx
      have := h.claimer a y hay
      rw [hx] at this
      exact .inr (this.resolve_left (by simp [CounterCall.isModify]))
    · rw [hcalls y hyx]
      exact h.claimer a y hay
  · by_cases hyx : y = x
    · subst hyx
      rw [hself]
      exact iff_of_false (hnew y) (by simp [CounterCall.ownResolved])
    · rw [hcalls y hyx]
      exact h.own y

/-- Claiming takes the registration of the slot's occupant, which nobody else has claimed. -/
private theorem perform_claim (h : ClaimInv s) (hocc : OccupantInv s) {i : ℕ}
    (hn : (s.calls x).next s.ctr = some (.claim i, c)) (hfresh : staleClaim s (.step x) = false) :
    ClaimInv (s.perform x (.claim i) c) := by
  obtain ⟨huse, hcas⟩ := CounterCall.next_claim hn
  obtain ⟨a, ha, hareg, haun⟩ := h.published i huse
  have hclaims : (s.perform x (.claim i) c).claims =
      Function.update s.claims x (s.claims x ++ [a]) := by
    simp [CounterState.perform, CounterState.claimsAfter, ha]
  have hmem : ∀ b y, b ∈ (s.perform x (.claim i) c).claims y ↔
      b ∈ s.claims y ∨ (b = a ∧ y = x) := by
    intro b y
    rw [hclaims]
    by_cases hyx : y = x
    · subst hyx
      simp
    · simp [hyx]
  have hreg := s.update_congr (x := x) (c := c) CounterCall.registered
    (CounterCall.registered_next hn (by simp))
  have hkind := s.update_congr (x := x) (c := c) CounterCall.isModify
    (CounterCall.registration_next hn).2
  have hslot : ∀ j, j ≠ i → (s.perform x (.claim i) c).ctr.waitingFibers j =
      s.ctr.waitingFibers j := fun j hj => Function.update_of_ne hj _ _
  -- an `AddWaitingFiber` that is not stale takes its own registration
  have hown : (s.calls x).isModify = true ∨ a = x := by
    rcases hcas with ⟨reg, hx, -⟩ | ⟨op, prev, value, hx, -⟩
    · have hsame : s.occupant i = some x := by
        simpa [staleClaim, hx, huse] using hfresh
      exact .inr (Option.some.inj (ha.symm.trans hsame))
    · exact .inl (by rw [hx]; rfl)
  -- the claimed slot holds `a`, which goes to the claims of `x`
  refine ⟨fun j hj => ?_, fun b hb hun => ?_, fun b y z hy hz => ?_, fun y => ?_,
    fun b y hby => ?_, fun b y hby => ?_, fun y => ?_⟩
  · have hji : j ≠ i := by
      rintro rfl
      simp [BaseCounter.apply, BaseCounter.setSlot] at hj
    rw [hslot j hji] at hj
    obtain ⟨b, hb, hbreg, hbun⟩ := h.published j hj
    refine ⟨b, hb, (hreg b).trans hbreg, fun y hby => ?_⟩
    rcases (hmem b y).mp hby with hold | ⟨rfl, -⟩
    · exact hbun y hold
    · exact hji (hocc.exclusive j i b hb ha)
  · obtain ⟨j, hj, hin⟩ := h.pending b ((hreg b).symm.trans hb) fun y hby =>
      hun y ((hmem b y).mpr (.inl hby))
    have hji : j ≠ i := by
      rintro rfl
      rw [ha, Option.some.injEq] at hj
      exact hun x ((hmem b x).mpr (.inr ⟨hj.symm, rfl⟩))
    exact ⟨j, hj, by rwa [hslot j hji]⟩
  · rcases (hmem b y).mp hy with hy | ⟨hba, hyx⟩ <;>
      rcases (hmem b z).mp hz with hz | ⟨hba', hzx⟩
    · exact h.unique b y z hy hz
    · exact absurd hy (hba' ▸ haun y)
    · exact absurd hz (hba ▸ haun z)
    · rw [hyx, hzx]
  · rw [hclaims]
    by_cases hyx : y = x
    · subst hyx
      rw [Function.update_self, List.nodup_append_comm]
      exact List.nodup_cons.mpr ⟨haun y, h.nodup y⟩
    · rw [Function.update_of_ne hyx]
      exact h.nodup y
  · rcases (hmem b y).mp hby with hold | ⟨rfl, -⟩
    · exact (hreg b).trans (h.registered b y hold)
    · exact (hreg b).trans hareg
  · rcases (hmem b y).mp hby with hold | ⟨rfl, rfl⟩
    · exact (h.claimer b y hold).imp_left (hkind y).trans
    · exact hown.imp_left (hkind y).trans
  · rw [hmem]
    by_cases hyx : y = x
    · subst hyx
      rw [CounterState.perform_calls, Function.update_self, h.own]
      -- an `AddWaitingFiber` becomes resolved by its own claim; a modifier never is
      rcases hcas with ⟨reg, hx, rfl⟩ | ⟨op, prev, value, hx, rfl⟩
      · have hay : a = y := hown.resolve_left (by simp [hx, CounterCall.isModify])
        simp [hay, CounterCall.ownResolved]
      · have hay : y ≠ a := by
          rintro rfl
          simp [hx, CounterCall.registered] at hareg
        simp [hx, hay, CounterCall.ownResolved]
    · rw [CounterState.perform_calls, Function.update_of_ne hyx, h.own]
      simp [hyx]

/-- Every step of a call that is not a stale claim keeps the claims in line. -/
theorem perform (h : ClaimInv s) (hslots : SlotInv s) (hocc : OccupantInv s) {eff : Effect}
    (hn : (s.calls x).next s.ctr = some (eff, c)) (hfresh : staleClaim s (.step x) = false) :
    ClaimInv (s.perform x eff c) := by
  by_cases hpub : ∃ i, eff = .publish i
  · obtain ⟨i, rfl⟩ := hpub
    exact h.perform_publish hslots hocc hn
  · by_cases hclaim : ∃ i, eff = .claim i
    · obtain ⟨i, rfl⟩ := hclaim
      exact h.perform_claim hocc hn hfresh
    · exact h.perform_other hslots hn (fun i heq => hpub ⟨i, heq⟩) fun i heq => hclaim ⟨i, heq⟩

omit [DecidableEq ι] in
/-- Nothing is registered before the first call. -/
theorem idle (n : ℕ) : ClaimInv (.idle (.construct n) : CounterState ι) where
  published _ hi := by cases hi
  pending _ ha _ := by cases ha
  unique _ _ _ ha := by cases ha
  nodup _ := .nil
  registered _ _ ha := by cases ha
  claimer _ _ ha := by cases ha
  own _ := iff_of_false List.not_mem_nil Bool.false_ne_true

end ClaimInv

/-- What a scan has in hand is in a slot that it holds. -/
theorem CounterCall.inHand_congr {b b' : BaseCounter} {c : CounterCall}
    (h : ∀ i, c.holds = some i →
      (b'.waitingFibers i).fiberIndex = (b.waitingFibers i).fiberIndex ∧
        (b'.waitingFibers i).fiberStored = (b.waitingFibers i).fiberStored) :
    c.inHand b' = c.inHand b := by
  rcases c with _ | ⟨reg, pc⟩ | ⟨op, _ | ⟨prev, value, pc⟩ | prev⟩
  · rfl
  · rfl
  · rfl
  · cases pc with
    | loadFiberIndex i => simp [inHand, WaitingFibers.entry, h i rfl]
    | push i fiberIndex => simp [inHand, h i rfl]
    | _ => rfl
  · rfl

/-- Claims are never given up. -/
theorem CounterState.mem_claims_perform [DecidableEq ι] {s : CounterState ι} {a x y : ι}
    (h : a ∈ s.claims y) (eff : Effect) (c : CounterCall) : a ∈ (s.perform x eff c).claims y := by
  cases eff with
  | claim i =>
    by_cases hyx : y = x
    · subst hyx
      simp [CounterState.perform, CounterState.claimsAfter, h]
    · simpa [CounterState.perform, CounterState.claimsAfter, hyx] using h
  | _ => exact h

namespace PushInv

variable [DecidableEq ι] {s : CounterState ι} {x : ι} {c : CounterCall}

/-- The entries of the calls stay what they are when a call steps. -/
private theorem entry_perform {eff : Effect} (hn : (s.calls x).next s.ctr = some (eff, c)) (a : ι) :
    ((s.perform x eff c).calls a).entry = (s.calls a).entry :=
  s.update_congr CounterCall.entry
    (by rw [CounterCall.entry, (CounterCall.registration_next hn).1]; rfl) a

/-- What a step adds to the claims of the call that takes it are the registrations whose entries
it takes from the slots. -/
private theorem claims_perform (hclaims : ClaimInv s) (hocc : OccupantInv s) {eff : Effect}
    (hn : (s.calls x).next s.ctr = some (eff, c)) :
    ((s.perform x eff c).claims x).map (fun a => (s.calls a).entry) =
      (s.claims x).map (fun a => (s.calls a).entry) ++ eff.takes s.ctr := by
  cases eff with
  | claim i =>
    obtain ⟨huse, -⟩ := CounterCall.next_claim hn
    obtain ⟨a, ha, hreg, -⟩ := hclaims.published i huse
    obtain ⟨reg, hsome, hmatch⟩ := (hocc.occupant_ok i a ha).2.matches hreg
    simp [CounterState.perform, CounterState.claimsAfter, ha, Effect.takes, hmatch.entry_eq,
      CounterCall.entry, hsome]
  | _ => simp [CounterState.perform, CounterState.claimsAfter, Effect.takes]

/-- Every step of a call pushes what its scan has claimed. -/
theorem perform (h : PushInv s) (hclaims : ClaimInv s) (hslots : SlotInv s) (hocc : OccupantInv s)
    {eff : Effect} (hn : (s.calls x).next s.ctr = some (eff, c)) :
    PushInv (s.perform x eff c) := by
  intro y
  simp only [entry_perform hn]
  by_cases hyx : y = x
  · subst hyx
    have hpushed : (s.perform y eff c).pushed y = s.pushed y ++ eff.pushes := by
      cases eff <;> simp [CounterState.perform, CounterState.pushedAfter, Effect.pushes]
    rw [hpushed, CounterState.perform_ctr, CounterState.perform_calls, Function.update_self,
      List.append_assoc, CounterCall.inHand_next hn, ← List.append_assoc, h y,
      (CounterCall.registration_next hn).2]
    cases (s.calls y).isModify with
    | false => rfl
    | true => exact (claims_perform hclaims hocc hn).symm
  · have hpushed : (s.perform x eff c).pushed y = s.pushed y := by
      cases eff <;> simp [CounterState.perform, CounterState.pushedAfter, hyx]
    have hsame : (s.perform x eff c).claims y = s.claims y := by
      cases eff <;> simp [CounterState.perform, CounterState.claimsAfter, hyx]
    rw [hpushed, hsame, CounterState.perform_ctr, CounterState.perform_calls,
      Function.update_of_ne hyx, ← h y]
    -- a slot that another call holds is not written by this one
    refine congrArg _ (CounterCall.inHand_congr fun i hi => ?_)
    have hfields := s.ctr.apply_fields eff i fun slot heq => hyx (by
      subst heq
      exact hslots.exclusive y x i hi (CounterCall.holds_of_setupSlot (CounterCall.next_write hn)))
    exact ⟨hfields.1, hfields.2.1⟩

/-- A call that begins has pushed nothing. -/
theorem setCall (h : PushInv s) (hclaims : ClaimInv s) (hx : s.calls x = .notStarted)
    (hhand : c.inHand s.ctr = []) : PushInv (s.setCall x c) := by
  have hreg : (s.calls x).registered = false := by rw [hx]; rfl
  -- a call that has not started has claimed nothing
  have hnone : s.claims x = [] := List.eq_nil_iff_forall_not_mem.mpr fun a ha => by
    rcases hclaims.claimer a x ha with hmod | rfl
    · simp [hx, CounterCall.isModify] at hmod
    · exact hclaims.not_mem hreg a ha
  intro y
  by_cases hyx : y = x
  · subst hyx
    have hpushed := h y
    rw [hx] at hpushed
    simp only [CounterCall.inHand, List.append_nil, CounterCall.isModify, Bool.false_eq_true,
      if_false] at hpushed
    change s.pushed y ++ (Function.update s.calls y c y).inHand s.ctr = _
    rw [Function.update_self, hhand, hpushed]
    simp [CounterState.setCall, hnone]
  · have hentry : ∀ a ∈ s.claims y, ((s.setCall x c).calls a).entry = (s.calls a).entry := by
      intro a ha
      have hax : a ≠ x := by
        rintro rfl
        exact hclaims.not_mem hreg y ha
      rw [CounterState.setCall_calls, Function.update_of_ne hax]
    change s.pushed y ++ ((s.setCall x c).calls y).inHand s.ctr =
      if ((s.setCall x c).calls y).isModify then
        (s.claims y).map fun a => ((s.setCall x c).calls a).entry else []
    rw [List.map_congr_left hentry, CounterState.setCall_calls, Function.update_of_ne hyx]
    exact h y

omit [DecidableEq ι] in
/-- Nothing has been pushed before the first call. -/
theorem idle (ctr : BaseCounter) : PushInv (.idle ctr : CounterState ι) := fun _ => rfl

end PushInv

/-- What holds of a counter and the calls on it in every run without a stale claim. -/
structure CounterInv (s : CounterState ι) : Prop where
  slots : SlotInv s
  occupants : OccupantInv s
  claims : ClaimInv s
  pushes : PushInv s

theorem CounterInv.idle (n : ℕ) : CounterInv (.idle (.construct n) : CounterState ι) where
  slots := SlotsOk.construct n
  occupants := .idle _
  claims := .idle n
  pushes := .idle _

section Run

variable [DecidableEq ι] {s : CounterState ι}

/-- Every step but a stale claim preserves the invariant. -/
theorem CounterInv.step (h : CounterInv s) {a : CounterAction ι} {s' : CounterState ι}
    (hfresh : staleClaim s a = false) (hs : counterStep s a = some s') : CounterInv s' := by
  refine ⟨h.slots.step hs, h.occupants.step h.slots hs, ?_, ?_⟩ <;>
    rcases counterStep_cases hs with ⟨x, c, hx, ⟨reg, rfl⟩, rfl⟩ | ⟨x, c, hx, ⟨op, rfl⟩, rfl⟩ |
      ⟨x, eff, c, rfl, hn, rfl⟩
  · exact h.claims.setCall hx rfl rfl
  · exact h.claims.setCall hx rfl rfl
  · exact h.claims.perform h.slots h.occupants hn hfresh
  · exact h.pushes.setCall h.claims hx rfl
  · exact h.pushes.setCall h.claims hx rfl
  · exact h.pushes.perform h.claims h.slots h.occupants hn

/-- The condition of a run: no step is a stale claim. -/
def NoStaleClaim (_ : History (CounterState ι) (CounterAction ι)) (s : CounterState ι)
    (a : CounterAction ι) : Prop := staleClaim s a = false

instance (h : History (CounterState ι) (CounterAction ι)) (s : CounterState ι)
    (a : CounterAction ι) : Decidable (NoStaleClaim h s a) :=
  inferInstanceAs (Decidable (_ = false))

theorem counterInv_of_run {n : ℕ} {h : History (CounterState ι) (CounterAction ι)}
    (hr : (counterSystem n ι).Run NoStaleClaim h s) : CounterInv s :=
  hr.invariant (P := fun _ s => CounterInv s) (fun _ hs => hs ▸ .idle n)
    fun _ _ _ _ _ hinv hok hs => hinv.step hok hs

end Run

/-! ## The resolution of registrations -/

/-- The registration of call `a` is in its slot, and nobody has claimed it. -/
def Pending (s : CounterState ι) (a : ι) (reg : Registration) : Prop :=
  ∃ i < s.ctr.numWaitingFibers, s.occupant i = some a ∧ s.ctr.freeWaitingSlots i = false ∧
    s.ctr.waitingFibers i = { fiberIndex := reg.fiberIndex, fiberStored := reg.fiberStored,
                              targetValue := reg.targetValue, inUse := false }

/-- The registration of call `a` has been claimed by the scan of call `x`. -/
def ResolvedBy (s : CounterState ι) (a x : ι) : Prop :=
  (s.calls x).isModify = true ∧ a ∈ s.claims x

/-- Each registration is pending, or resolved by its own call, which then returns `true`, or
resolved once, by one scan, and its own call does not return `true`. No `AddWaitingFiber` resolves
another's registration. The ready lists hold the entries of the registrations that scans have
resolved, in order and once each, except that a scan may have the last of them in hand, and nothing
else: an `AddWaitingFiber` puts nothing into a ready list. -/
def ResolvedOnce (s : CounterState ι) : Prop :=
  (∀ a reg pc, s.calls a = .addWaiting reg pc → pc.registered = true →
    (Pending s a reg ∧ (s.calls a).ownResolved = false ∧ ∀ x, ¬ ResolvedBy s a x) ∨
    (¬ Pending s a reg ∧ (s.calls a).ownResolved = true ∧ ∀ x, ¬ ResolvedBy s a x) ∨
    (¬ Pending s a reg ∧ (s.calls a).ownResolved = false ∧ ∃! x, ResolvedBy s a x)) ∧
  (∀ a x, a ∈ s.claims x → (s.calls x).isModify = true ∨ a = x) ∧
  (∀ x, (s.claims x).Nodup) ∧
  (∀ x, (s.calls x).isModify = true →
    s.pushed x ++ (s.calls x).inHand s.ctr = (s.claims x).map fun a => (s.calls a).entry) ∧
  ∀ x, (s.calls x).isModify = false → s.pushed x = []

namespace CounterInv

variable {s : CounterState ι} {a : ι} {reg : Registration} {pc : AddPc}

/-- A registration that nobody has claimed is pending. -/
theorem pending_of_unclaimed (h : CounterInv s) (ha : s.calls a = .addWaiting reg pc)
    (hreg : pc.registered = true) (hun : ∀ x, a ∉ s.claims x) : Pending s a reg := by
  have hregistered : (s.calls a).registered = true := by rw [ha]; exact hreg
  obtain ⟨i, hi, huse⟩ := h.claims.pending a hregistered hun
  obtain ⟨hlt, hok⟩ := h.occupants.occupant_ok i a hi
  obtain ⟨reg', hsome, hindex, hstored, htarget⟩ := hok.matches hregistered
  obtain rfl : reg = reg' := by simpa [ha, CounterCall.registration] using hsome
  refine ⟨i, hlt, hi, h.slots.not_free huse, ?_⟩
  cases hslot : s.ctr.waitingFibers i
  simp_all

/-- A claimed registration is not pending. -/
theorem not_pending_of_claimed (h : CounterInv s) {x : ι} (hx : a ∈ s.claims x) :
    ¬ Pending s a reg := by
  rintro ⟨i, -, hi, -, hslot⟩
  obtain ⟨a', ha', -, hun⟩ := h.claims.published i (by rw [hslot])
  obtain rfl : a' = a := Option.some.inj (ha'.symm.trans hi)
  exact hun x hx

/-- The entries of the ready lists are those of registrations that scans have claimed. -/
theorem claimed_of_pushed (h : CounterInv s) {x : ι} {entry : ReadyFiber}
    (hx : entry ∈ s.pushed x) :
    ∃ a ∈ s.claims x, ∃ reg, (s.calls a).registration = some reg ∧ reg.entry = entry := by
  have hmem : entry ∈ s.pushed x ++ (s.calls x).inHand s.ctr := List.mem_append_left _ hx
  rw [h.pushes x] at hmem
  split at hmem
  · obtain ⟨a, ha, hentry⟩ := List.mem_map.mp hmem
    have hreg := h.claims.registered a x ha
    cases hcall : s.calls a with
    | addWaiting reg pc =>
      refine ⟨a, ha, reg, by simp [hcall, CounterCall.registration], ?_⟩
      simpa [hcall, CounterCall.entry, CounterCall.registration] using hentry
    | _ => simp [hcall, CounterCall.registered] at hreg
  · cases hmem

/-- Only scans put entries into a ready list. -/
theorem pushed_of_not_isModify (h : CounterInv s) {x : ι} (hx : (s.calls x).isModify = false) :
    s.pushed x = [] := by
  have hpush := h.pushes x
  rw [hx, if_neg Bool.false_ne_true, List.append_eq_nil_iff] at hpush
  exact hpush.1

/-- The invariant resolves every registration once. -/
theorem resolvedOnce (h : CounterInv s) : ResolvedOnce s := by
  refine ⟨fun a reg pc ha hreg => ?_, h.claims.claimer, h.claims.nodup, fun x hx => ?_,
    fun x => h.pushed_of_not_isModify⟩
  · by_cases hun : ∀ x, a ∉ s.claims x
    · have hown : (s.calls a).ownResolved = false := by
        simpa using mt (h.claims.own a).mpr (hun a)
      exact .inl ⟨h.pending_of_unclaimed ha hreg hun, hown, fun x hx => hun x hx.2⟩
    · obtain ⟨x, hx⟩ := not_forall_not.mp hun
      have hself : (s.calls a).isModify = false := by rw [ha]; rfl
      have hpend : ¬ Pending s a reg := h.not_pending_of_claimed hx
      rcases h.claims.claimer a x hx with hmod | rfl
      · have hown : (s.calls a).ownResolved = false := by
          by_contra hown
          have hmem := (h.claims.own a).mpr (by simpa using hown)
          rw [h.claims.unique a x a hx hmem, hself] at hmod
          cases hmod
        exact .inr (.inr ⟨hpend, hown, x, ⟨hmod, hx⟩, fun y hy => h.claims.unique a y x hy.2 hx⟩)
      · refine .inr (.inl ⟨hpend, (h.claims.own a).mp hx, fun y hy => ?_⟩)
        rw [ResolvedBy, h.claims.unique a y a hy.2 hx, hself] at hy
        cases hy.1
  · rw [h.pushes x, if_pos hx]

end CounterInv

section Run

variable [DecidableEq ι]

/-- In every run without a stale claim, each registration is resolved at most once, by its own call
or by one scan, and the ready lists hold exactly the entries of those that scans resolved. -/
theorem registration_resolved_once {n : ℕ} {h : History (CounterState ι) (CounterAction ι)}
    {s : CounterState ι} (hr : (counterSystem n ι).Run NoStaleClaim h s) : ResolvedOnce s :=
  (counterInv_of_run hr).resolvedOnce

end Run

/-- Fiber 10 starts to wait for zero on a counter of one. -/
def waitForZero (ι : Type) [OfNat ι 0] [OfNat ι 3] : List (CounterAction ι) :=
  [.beginModify 3 (.increment 1)] ++ List.replicate 7 (.step 3) ++
    [.beginAddWaiting 0 { fiberIndex := 10, targetValue := 0, fiberStored := 100 }] ++
    List.replicate 5 (.step 0)

/-- A decrement to zero resolves the wait while `AddWaitingFiber` is before its last exchange. -/
def resolveWait (ι : Type) [OfNat ι 0] [OfNat ι 1] : List (CounterAction ι) :=
  [.beginModify 1 (.decrement 1), .step 1] ++ List.replicate 3 (.step 0) ++
    List.replicate 7 (.step 1)

/-- Fiber 20 waits for three in the slot that has become free. -/
def waitForThree (ι : Type) [OfNat ι 2] : List (CounterAction ι) :=
  [.beginAddWaiting 2 { fiberIndex := 20, targetValue := 3, fiberStored := 200 }] ++
    List.replicate 8 (.step 2)

/-- The first `AddWaitingFiber` ends before the second begins: fiber 10 is in a ready list, and
fiber 20 is left pending. -/
theorem registration_resolved_once_reused :
    ∃ (h : History (CounterState (Fin 4)) (CounterAction (Fin 4))) (s : CounterState (Fin 4)),
      (counterSystem BaseCounter.maxWaiting (Fin 4)).Run NoStaleClaim h s ∧ ResolvedOnce s ∧
        s.pushed 1 = [(10, 100)] ∧ s.calls 0 = .addWaiting ⟨10, 0, 100⟩ (.returned false) ∧
        s.occupant 0 = some 2 := by
  have hrun : ∃ (h : History (CounterState (Fin 4)) (CounterAction (Fin 4)))
      (s : CounterState (Fin 4)),
      (counterSystem BaseCounter.maxWaiting (Fin 4)).Run NoStaleClaim h s ∧
        s.pushed 1 = [(10, 100)] ∧ s.calls 0 = .addWaiting ⟨10, 0, 100⟩ (.returned false) ∧
        s.occupant 0 = some 2 :=
    System.exists_run_of_trace rfl
      (waitForZero (Fin 4) ++ resolveWait (Fin 4) ++ [.step 0] ++ waitForThree (Fin 4)) (by decide)
  obtain ⟨h, s, hr, hfacts⟩ := hrun
  exact ⟨h, s, hr, registration_resolved_once hr, hfacts⟩

/-- With a stale claim, fiber 10 is in a ready list although its call returned `true`, and fiber 20,
whose call returned `false`, is neither in a slot nor in a ready list. -/
theorem registration_lost :
    ∃ s : CounterState (Fin 4), (counterSystem BaseCounter.maxWaiting (Fin 4)).Reachable s ∧
      ¬ ResolvedOnce s ∧ s.calls 0 = .addWaiting ⟨10, 0, 100⟩ (.returned true) ∧
        s.pushed 1 = [(10, 100)] ∧ s.calls 2 = .addWaiting ⟨20, 3, 200⟩ (.returned false) ∧
        (∀ i < BaseCounter.maxWaiting, s.ctr.freeWaitingSlots i = true) ∧
        ∀ x, (20, 200) ∉ s.pushed x := by
  have hrun : ∃ (h : History (CounterState (Fin 4)) (CounterAction (Fin 4)))
      (s : CounterState (Fin 4)),
      (counterSystem BaseCounter.maxWaiting (Fin 4)).Run (fun _ _ _ => True) h s ∧
        (0 ∈ s.claims 1 ∧ (s.calls 1).isModify = true) ∧
        s.calls 0 = .addWaiting ⟨10, 0, 100⟩ (.returned true) ∧
        s.pushed 1 = [(10, 100)] ∧ s.calls 2 = .addWaiting ⟨20, 3, 200⟩ (.returned false) ∧
        (∀ i < BaseCounter.maxWaiting, s.ctr.freeWaitingSlots i = true) ∧
        ∀ x, (20, 200) ∉ s.pushed x :=
    System.exists_run_of_trace rfl
      (waitForZero (Fin 4) ++ resolveWait (Fin 4) ++ waitForThree (Fin 4) ++ [.step 0, .step 0])
      (by decide)
  obtain ⟨h, s, hr, hscan, hfacts⟩ := hrun
  refine ⟨s, hr.reachable, fun honce => ?_, hfacts⟩
  -- the call that returned `true` was also resolved by a scan
  rcases honce.1 0 _ _ hfacts.1 rfl with ⟨-, hown, -⟩ | ⟨-, -, hno⟩ | ⟨-, hown, -⟩
  · simp [hfacts.1, CounterCall.ownResolved] at hown
  · exact hno 1 hscan.symm
  · simp [hfacts.1, CounterCall.ownResolved] at hown

end NomadTasks
