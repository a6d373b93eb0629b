import NomadTasks.Counter.Wait

/-!
# `WaitForCounter` does not return early

A wait returns because it saw the value at its target, or because a call claimed its registration
for the target. In a run whose claims are in order, the value was at the target at some moment
between the call and the return: the registering call compares with a value that it has loaded,
and a scan announces a value that it has set itself, after the wait had begun.

* `WaitInv`: how the waits and their registrations correspond, and what each claim has seen.
-/

namespace NomadTasks

open Transition

variable {ι : Type}

/-- The wait is in progress, and the counter has the value. -/
def At (x : ι) (value : CounterUnit) (s : WaitState ι) : Prop :=
  (s.waits x).inProgress = true ∧ s.counter.ctr.counter = value

instance (x : ι) (value : CounterUnit) : DecidablePred (At x value) :=
  fun _ => inferInstanceAs (Decidable (_ ∧ _))

/-- The value has been reached during the wait, now or before. -/
def Seen (h : History (WaitState ι) (WaitAction ι)) (s : WaitState ι) (x : ι)
    (value : CounterUnit) : Prop := h.Once (At x value) ∨ At x value s

/-- What has been seen will have been seen after the next step. -/
theorem Seen.once {h : History (WaitState ι) (WaitAction ι)} {s : WaitState ι} {x : ι}
    {value : CounterUnit} (hs : Seen h s x value) (a : WaitAction ι) :
    History.Once (At x value) ((s, a) :: h) :=
  hs.elim (fun ho => ho.cons s a) fun hn => .now hn a h

/-- How a wait and the call of the same name on the counter correspond. -/
def WaitCall.Agrees (c : CounterCall) : WaitCall → Prop
  | .notStarted => c.registration = none
  | .getValue _ _ => c = .notStarted
  | .adding reg => c.registration = some reg
  | .sleeping reg => c = .addWaiting reg (.returned false)
  | .returned target => c = .notStarted ∨
      ∃ reg b, c = .addWaiting reg (.returned b) ∧ reg.targetValue = target

/-- What a call has seen of the value that it compares with. -/
def CounterCall.LoadedOk (h : History (WaitState ι) (WaitAction ι)) (occupant : ℕ → Option ι)
    (x : ι) : CounterCall → Prop
  | .addWaiting _ (.loadInUse _ counter) | .addWaiting _ (.compareTarget _ counter) =>
      h.Once (At x counter)
  | .addWaiting reg (.casInUse i) => occupant i = some x → h.Once (At x reg.targetValue)
  | _ => True

/-- The waits agree with the calls on the counter, flags are fresh, and a wait that was resumed had
been claimed. -/
structure WaitsOk (s : WaitState ι) : Prop where
  agrees : ∀ x, (s.waits x).Agrees (s.counter.calls x)
  flag_lt : ∀ x reg, (s.counter.calls x).registration = some reg → reg.fiberStored < s.nextFlag
  flag_unique : ∀ x y reg reg', (s.counter.calls x).registration = some reg →
    (s.counter.calls y).registration = some reg' → reg.fiberStored = reg'.fiberStored → x = y
  resumed : ∀ x target, s.waits x = .returned target →
    (s.counter.calls x).registered = true → ∃ y, x ∈ s.counter.claims y

/-- What has been seen on behalf of each wait. -/
structure SeenInv (h : History (WaitState ι) (WaitAction ι)) (s : WaitState ι) : Prop where
  begun : ∀ x, h.Once (fun s => s.waits x ≠ .notStarted) → s.waits x ≠ .notStarted
  loaded : ∀ x, (s.counter.calls x).LoadedOk h s.counter.occupant x
  announced : ∀ x op prev value pc, s.counter.calls x = .modify op (.check prev value pc) →
    ∀ a, (s.waits a).inProgress = true → h.Once (BeganBefore a x) → Seen h s a value
  claimed : ∀ a y reg, a ∈ s.counter.claims y → (s.counter.calls a).registration = some reg →
    h.Once (At a reg.targetValue)
  returned : ∀ x target, s.waits x = .returned target → h.Once (At x target)

section Step

variable [DecidableEq ι] {s s' : WaitState ι} {h : History (WaitState ι) (WaitAction ι)}

omit [DecidableEq ι] in
/-- A registration that nobody has claimed belongs to a wait in progress. -/
theorem WaitsOk.inProgress_of_unclaimed (hw : WaitsOk s) {a : ι}
    (hreg : (s.counter.calls a).registered = true) (hun : ∀ y, a ∉ s.counter.claims y) :
    (s.waits a).inProgress = true := by
  have hagree := hw.agrees a
  cases hwait : s.waits a with
  | notStarted =>
    rw [hwait] at hagree
    cases hcall : s.counter.calls a <;>
      simp_all [WaitCall.Agrees, CounterCall.registration, CounterCall.registered]
  | getValue fiberIndex target =>
    rw [hwait] at hagree
    simp_all [WaitCall.Agrees, CounterCall.registered]
  | adding reg => rfl
  | sleeping reg => rfl
  | returned target =>
    obtain ⟨y, hy⟩ := hw.resumed a target hwait hreg
    exact absurd hy (hun y)

omit [DecidableEq ι] in
/-- Call `x` is replaced on the counter by one with the same registration, and nothing else changes
that the waits depend on. -/
theorem WaitsOk.counter (hw : WaitsOk s) {counter : CounterState ι}
    (hagree : ∀ x, (s.waits x).Agrees (counter.calls x))
    (hreg : ∀ x, (counter.calls x).registration = (s.counter.calls x).registration)
    (hres : ∀ x target, s.waits x = .returned target → (counter.calls x).registered = true →
      ∃ y, x ∈ counter.claims y) : WaitsOk { s with counter } where
  agrees := hagree
  flag_lt x reg hx := hw.flag_lt x reg (hreg x ▸ hx)
  flag_unique x y reg reg' hx hy := hw.flag_unique x y reg reg' (hreg x ▸ hx) (hreg y ▸ hy)
  resumed := hres

/-- Wait `x` moves on by itself. -/
theorem WaitsOk.setWait (hw : WaitsOk s) {x : ι} {w : WaitCall}
    (hagree : w.Agrees (s.counter.calls x))
    (hres : ∀ target, w = .returned target → (s.counter.calls x).registered = true →
      ∃ y, x ∈ s.counter.claims y) : WaitsOk (s.setWait x w) where
  agrees y := by
    by_cases hyx : y = x
    · subst hyx
      simpa [WaitState.setWait] using hagree
    · simpa [WaitState.setWait, hyx] using hw.agrees y
  flag_lt := hw.flag_lt
  flag_unique := hw.flag_unique
  resumed y target hy hreg := by
    by_cases hyx : y = x
    · subst hyx
      exact hres target (by simpa [WaitState.setWait] using hy) hreg
    · exact hw.resumed y target (by simpa [WaitState.setWait, hyx] using hy) hreg

omit [DecidableEq ι] in
/-- A call that takes a step on the counter belongs to the wait it belonged to, which is inside
`AddWaitingFiber`, or to none. -/
private theorem agrees_next {b : BaseCounter} {c c' : CounterCall} {eff : Effect} {w : WaitCall}
    (hagree : w.Agrees c) (hn : c.next b = some (eff, c')) :
    w.Agrees c' ∧ ((w = .notStarted ∧ c.registration = none) ∨ ∃ reg, w = .adding reg) := by
  have hreg := (CounterCall.registration_next hn).1
  cases w with
  | notStarted => exact ⟨hreg.trans hagree, .inl ⟨rfl, hagree⟩⟩
  | getValue fiberIndex target =>
    obtain rfl : c = .notStarted := hagree
    cases hn
  | adding reg => exact ⟨hreg.trans hagree, .inr ⟨reg, rfl⟩⟩
  | sleeping reg =>
    obtain rfl : c = .addWaiting reg (.returned false) := hagree
    cases hn
  | returned target =>
    rcases hagree with rfl | ⟨reg, b, rfl, -⟩ <;> cases hn

/-- Every step keeps the waits and the calls in line. -/
theorem WaitsOk.step (hw : WaitsOk s) (hc : CounterInv s.counter) {a : WaitAction ι}
    (hs : WaitStep s a s') : WaitsOk s' := by
  cases hs with
  | @beginWait x _ _ hwait hcall =>
    exact hw.setWait hcall (by rintro _ ⟨⟩)
  | @already x _ _ hwait hv =>
    have hcall : s.counter.calls x = .notStarted := by
      simpa [hwait, WaitCall.Agrees] using hw.agrees x
    exact hw.setWait (.inl hcall) fun _ _ hreg => by simp [hcall, CounterCall.registered] at hreg
  | @register x _ target reg hwait hv hreg hcall =>
    have hother : ∀ y, y ≠ x → (s.counter.setCall x (.addWaiting reg (.casFree 0))).calls y =
        s.counter.calls y := fun y hy => Function.update_of_ne hy _ _
    have hself : (s.counter.setCall x (.addWaiting reg (.casFree 0))).calls x =
        .addWaiting reg (.casFree 0) := Function.update_self ..
    -- the flag is new, so that no other registration has it
    have hnew : ∀ y reg', y ≠ x → (s.counter.calls y).registration = some reg' →
        reg'.fiberStored < reg.fiberStored := fun y reg' _ hy => by
      rw [hreg]
      exact hw.flag_lt y reg' hy
    refine ⟨fun y => ?_, fun y reg' hy => ?_, fun y z reg' reg'' hy hz hflag => ?_,
      fun y target' hy hr => ?_⟩
    · by_cases hyx : y = x
      · subst hyx
        simp [WaitState.setWait, hself, WaitCall.Agrees, CounterCall.registration]
      · simpa [WaitState.setWait, hyx, hother y hyx] using hw.agrees y
    · by_cases hyx : y = x
      · subst hyx
        obtain rfl : reg = reg' := by simpa [hself, CounterCall.registration] using hy
        rw [hreg]
        exact Nat.lt_succ_self _
      · exact Nat.lt_succ_of_lt (hw.flag_lt y reg' (hother y hyx ▸ hy))
    · by_cases hyx : y = x <;> by_cases hzx : z = x
      · rw [hyx, hzx]
      · subst hyx
        obtain rfl : reg = reg' := by simpa [hself, CounterCall.registration] using hy
        exact absurd hflag (hnew z reg'' hzx (hother z hzx ▸ hz)).ne'
      · subst hzx
        obtain rfl : reg = reg'' := by simpa [hself, CounterCall.registration] using hz
        exact absurd hflag (hnew y reg' hyx (hother y hyx ▸ hy)).ne
      · exact hw.flag_unique y z reg' reg'' (hother y hyx ▸ hy) (hother z hzx ▸ hz) hflag
    · by_cases hyx : y = x
      · subst hyx
        simp [WaitState.setWait] at hy
      · exact hw.resumed y target' (by simpa [WaitState.setWait, hyx] using hy)
          (hother y hyx ▸ hr)
  | @beginModify x op hwait hcall =>
    refine hw.counter (fun y => ?_) (s.counter.update_congr _ (by rw [hcall]; rfl))
      fun y target hy hr => ?_
    · by_cases hyx : y = x
      · subst hyx
        simp [hwait, WaitCall.Agrees, CounterCall.registration]
      · simpa [hyx] using hw.agrees y
    · have hyx : y ≠ x := by
        rintro rfl
        simp [hwait] at hy
      exact hw.resumed y target hy (by simpa [hyx] using hr)
  | @step x eff c hn =>
    -- a wait that has returned makes no call: the call that steps is another one
    have hnext := agrees_next (hw.agrees x) hn
    refine hw.counter (fun y => ?_)
      (s.counter.update_congr _ (CounterCall.registration_next hn).1) fun y target hy hr => ?_
    · by_cases hyx : y = x
      · subst hyx
        simpa using hnext.1
      · simpa [hyx] using hw.agrees y
    · have hyx : y ≠ x := by
        rintro rfl
        rcases hnext.2 with ⟨hwait, -⟩ | ⟨reg, hwait⟩ <;> simp [hwait] at hy
      obtain ⟨z, hz⟩ := hw.resumed y target hy (by simpa [hyx] using hr)
      exact ⟨z, CounterState.mem_claims_perform hz eff c⟩
  | @resolved x reg reg' hwait hcall =>
    have hagree : reg' = reg := by
      simpa [hwait, hcall, WaitCall.Agrees, CounterCall.registration] using hw.agrees x
    -- `AddWaitingFiber` has claimed its own slot
    refine hw.setWait (.inr ⟨reg', true, hcall, by rw [hagree]⟩) fun _ _ _ => ⟨x, ?_⟩
    exact (hc.claims.own x).mpr (by rw [hcall]; rfl)
  | @sleep x reg reg' hwait hcall =>
    have hagree : reg' = reg := by
      simpa [hwait, hcall, WaitCall.Agrees, CounterCall.registration] using hw.agrees x
    exact hw.setWait (hagree ▸ hcall) (by rintro _ ⟨⟩)
  | @resume x y reg hwait hp =>
    have hcall : s.counter.calls x = .addWaiting reg (.returned false) := by
      have hagree := hw.agrees x
      rwa [hwait] at hagree
    refine hw.setWait (.inr ⟨reg, false, hcall, rfl⟩) fun _ _ _ => ⟨y, ?_⟩
    -- the entry is that of this wait, since its flag is
    obtain ⟨b, hb, reg', hreg', hentry⟩ := hc.claimed_of_pushed hp
    have hflag : reg'.fiberStored = reg.fiberStored := congrArg Prod.snd hentry
    obtain rfl := hw.flag_unique b x reg' reg hreg' (by rw [hcall]; rfl) hflag
    exact hb

/-! ### What has been seen -/

omit [DecidableEq ι] in
/-- What a call has seen, it has seen after the next step, as long as it occupies no new slot. -/
private theorem loadedOk_mono {c : CounterCall} {occ occ' : ℕ → Option ι} {x : ι}
    (hl : c.LoadedOk h occ x) (hocc : ∀ i, occ' i = some x → occ i = some x) (a : WaitAction ι) :
    c.LoadedOk ((s, a) :: h) occ' x := by
  rcases c with _ | ⟨reg, pc⟩ | ⟨op, pc⟩
  · trivial
  · cases pc with
    | loadInUse i counter => exact hl.cons s a
    | compareTarget i counter => exact hl.cons s a
    | casInUse i => exact fun hi => (hl (hocc i hi)).cons s a
    | _ => trivial
  · trivial

omit [DecidableEq ι] in
/-- A registering call loads the value, and compares it with the target it has registered. -/
private theorem loadedOk_next {x : ι} {eff : Effect} {c : CounterCall}
    (hl : (s.counter.calls x).LoadedOk h s.counter.occupant x)
    (hocc : OccupantInv s.counter) (hagree : (s.waits x).Agrees (s.counter.calls x))
    (hn : (s.counter.calls x).next s.counter.ctr = some (eff, c)) (a : WaitAction ι) :
    c.LoadedOk ((s, a) :: h) (s.counter.occupantAfter x eff) x := by
  have hwait := (agrees_next hagree hn).2
  cases hcall : s.counter.calls x with
  | notStarted => rw [hcall] at hn; cases hn
  | modify op pc =>
    have hkind := (CounterCall.registration_next hn).2
    rw [hcall] at hkind
    cases c <;> trivial
  | addWaiting reg pc =>
    have hin : (s.waits x).inProgress = true := by
      rcases hwait with ⟨-, hnone⟩ | ⟨reg', hwait⟩
      · simp [hcall, CounterCall.registration] at hnone
      · rw [hwait]; rfl
    rw [hcall] at hn hl
    simp only [CounterCall.next, Option.map_eq_some_iff, Prod.exists, Prod.mk.injEq] at hn
    obtain ⟨eff', pc', hpc, rfl, rfl⟩ := hn
    cases pc with
    -- the load sees the value that the counter has now
    | loadCounter i =>
      cases hpc
      exact .now ⟨hin, rfl⟩ a h
    | loadInUse i counter =>
      simp only [AddPc.next] at hpc
      split at hpc <;> cases hpc
      · trivial
      · exact hl.cons s a
    | compareTarget i counter =>
      simp only [AddPc.next] at hpc
      split at hpc <;> cases hpc
      · trivial
      · next heq =>
        -- the slot has the call's own target, as long as the call occupies it
        intro hi
        have hok := (hocc.occupant_ok i x hi).2
        rw [hcall] at hok
        have htarget : reg.targetValue = counter := by
          rw [← hok.2.2.2]
          simpa using heq
        rw [htarget]
        exact hl.cons s a
    | casFree i =>
      simp only [AddPc.next] at hpc
      split at hpc
      · split at hpc <;> cases hpc <;> trivial
      · cases hpc
        trivial
    | casInUse i =>
      simp only [AddPc.next] at hpc
      split at hpc <;> cases hpc <;> trivial
    | _ => cases hpc <;> trivial

/-- A wait that has begun stays begun, and was in progress if it is. -/
theorem waits_step {a : WaitAction ι} (hs : WaitStep s a s') {x : ι}
    (hx : s.waits x ≠ .notStarted) :
    s'.waits x ≠ .notStarted ∧
      ((s'.waits x).inProgress = true → (s.waits x).inProgress = true) := by
  have hupdate : ∀ {y : ι} {w : WaitCall}, w ≠ .notStarted →
      (y = x → (s.waits x).inProgress = true) →
      (Function.update s.waits y w x ≠ .notStarted ∧
        ((Function.update s.waits y w x).inProgress = true → (s.waits x).inProgress = true)) := by
    intro y w hw hin
    by_cases hyx : x = y
    · subst hyx
      rw [Function.update_self]
      exact ⟨hw, fun _ => hin rfl⟩
    · rw [Function.update_of_ne hyx]
      exact ⟨hx, id⟩
  -- a wait starts only once, and never goes back from its end
  cases hs with
  | beginWait hw _ => exact hupdate (fun h => nomatch h) fun heq => absurd (heq ▸ hw) hx
  | already hw _ => exact hupdate (fun h => nomatch h) fun heq => by rw [← heq, hw]; rfl
  | register hw _ _ _ => exact hupdate (fun h => nomatch h) fun heq => by rw [← heq, hw]; rfl
  | beginModify _ _ => exact ⟨hx, id⟩
  | step _ => exact ⟨hx, id⟩
  | resolved hw _ => exact hupdate (fun h => nomatch h) fun heq => by rw [← heq, hw]; rfl
  | sleep hw _ => exact hupdate (fun h => nomatch h) fun heq => by rw [← heq, hw]; rfl
  | resume hw _ => exact hupdate (fun h => nomatch h) fun heq => by rw [← heq, hw]; rfl

/-- A scan that a step leaves in progress was so before, with the same announcement, or the step
has just set the announced value. -/
private theorem announced_step {a : WaitAction ι} (hs : WaitStep s a s') {x : ι} {op : Modifier}
    {prev value : CounterUnit} {pc : ScanPc}
    (hx : s'.counter.calls x = .modify op (.check prev value pc)) :
    (∃ pc', s.counter.calls x = .modify op (.check prev value pc')) ∨
      s'.counter.ctr.counter = value ∧ s'.waits = s.waits := by
  cases hs with
  | @register y _ _ reg _ _ _ _ =>
    by_cases hyx : x = y
    · subst hyx
      simp at hx
    · exact .inl ⟨pc, by simpa [hyx] using hx⟩
  | @beginModify y op' _ _ =>
    by_cases hyx : x = y
    · subst hyx
      simp at hx
    · exact .inl ⟨pc, by simpa [hyx] using hx⟩
  | @step y eff c hn =>
    by_cases hyx : x = y
    · subst hyx
      obtain rfl : c = .modify op (.check prev value pc) := by simpa using hx
      -- either this step is the read-modify-write, or the call was announcing before
      rcases CounterCall.next_check hn with ⟨-, rfl⟩ | hcheck
      · exact .inr ⟨rfl, rfl⟩
      · exact .inl hcheck
    · exact .inl ⟨pc, by simpa [hyx] using hx⟩
  | _ => exact .inl ⟨pc, hx⟩

/-- What a claim takes has been seen: the registering call has compared its target with a value it
loaded, and a scan that is not misdirected announces what the wait is for. -/
private theorem claim_seen (hI : SeenInv h s) (hw : WaitsOk s) (hc : CounterInv s.counter) {x a : ι}
    {i : ℕ} {c : CounterCall} {reg : Registration}
    (hn : (s.counter.calls x).next s.counter.ctr = some (.claim i, c))
    (hok : ClaimsInOrder h s (.step x)) (ha : s.counter.occupant i = some a)
    (hreg : (s.counter.calls a).registration = some reg) :
    History.Once (At a reg.targetValue) ((s, .step x) :: h) := by
  obtain ⟨hstale, hdirected⟩ := hok
  obtain ⟨huse, hcas⟩ := CounterCall.next_claim hn
  -- the slot is claimed by its own `AddWaitingFiber`, or by the scan of a modifier
  rcases hcas with ⟨reg', hx, -⟩ | ⟨op, prev, value, hx, -⟩
  · have hown : s.counter.occupant i = some x := by
      simpa [WaitAction.onCounter, staleClaim, hx, huse] using hstale
    obtain rfl : a = x := Option.some.inj (ha.symm.trans hown)
    obtain rfl : reg' = reg := by simpa [hx, CounterCall.registration] using hreg
    have hloaded := hI.loaded a
    rw [hx] at hloaded
    exact (hloaded hown).cons _ _
  · obtain ⟨a', ha', hregistered, hun⟩ := hc.claims.published i huse
    obtain rfl : a' = a := Option.some.inj (ha'.symm.trans ha)
    have hin := hw.inProgress_of_unclaimed hregistered hun
    obtain ⟨reg', hsome, hmatch⟩ := (hc.occupants.occupant_ok i a' ha).2.matches hregistered
    obtain rfl : reg' = reg := Option.some.inj (hsome.symm.trans hreg)
    rw [← hmatch.2.2]
    simp only [misdirectedClaim, hx, huse, Bool.not_false, Bool.true_and, ha,
      Bool.and_eq_false_iff, decide_eq_false_iff_not, not_not, Bool.or_eq_false_iff] at hdirected
    -- the value announced is current, or the wait had begun when it was
    rcases hdirected with hvalue | ⟨hvalue, hbegan⟩
    · exact .now ⟨hin, hvalue.symm⟩ _ h
    · rw [hvalue]
      exact (hI.announced x op prev value _ hx a' hin hbegan).once _

/-- Every claim that has been made has seen the target of what it claimed. -/
private theorem claimed_step (hI : SeenInv h s) (hw : WaitsOk s) (hc : CounterInv s.counter)
    {a : WaitAction ι} (hok : ClaimsInOrder h s a) (hs : WaitStep s a s') {x y : ι}
    {reg : Registration} (hx : x ∈ s'.counter.claims y)
    (hreg : (s'.counter.calls x).registration = some reg) :
    History.Once (At x reg.targetValue) ((s, a) :: h) := by
  -- a call that begins has been claimed by nobody
  have hbegin : ∀ {z : ι} {c : CounterCall}, s.counter.calls z = .notStarted →
      x ∈ s.counter.claims y → ((s.counter.setCall z c).calls x).registration = some reg →
        History.Once (At x reg.targetValue) ((s, a) :: h) := by
    intro z c hz hx hreg
    have hxz : x ≠ z := by
      rintro rfl
      exact hc.claims.not_mem (by rw [hz]; rfl) y hx
    exact (hI.claimed x y reg hx (by simpa [hxz] using hreg)).cons s a
  cases hs with
  | register _ _ _ hz => exact hbegin hz hx hreg
  | beginModify _ hz => exact hbegin hz hx hreg
  | @step z eff c hn =>
    have hreg' : (s.counter.calls x).registration = some reg := by
      rw [← s.counter.update_congr _ (CounterCall.registration_next hn).1]
      exact hreg
    -- a wait that is claimed in this step is the occupant of the claimed slot
    by_cases hold : x ∈ s.counter.claims y
    · exact (hI.claimed x y reg hold hreg').cons s _
    · cases eff with
      | claim i =>
        have hocc : s.counter.occupant i = some x := by
          by_cases hyz : y = z
          · subst hyz
            simpa [CounterState.perform, CounterState.claimsAfter, hold] using hx
          · simp [CounterState.perform, CounterState.claimsAfter, hyz, hold] at hx
        exact claim_seen hI hw hc hn hok hocc hreg'
      | _ => exact absurd hx hold
  | _ => exact (hI.claimed x y reg hx hreg).cons s _

/-- A wait that returns has seen its target. -/
private theorem returned_step (hI : SeenInv h s) (hw : WaitsOk s) (hc : CounterInv s.counter)
    {a : WaitAction ι} (hs : WaitStep s a s') {x : ι} {target : CounterUnit}
    (hx : s'.waits x = .returned target) : History.Once (At x target) ((s, a) :: h) := by
  -- the wait that moves is `x` itself, or `x` had returned before
  have hmove : ∀ {y : ι} {w : WaitCall}, Function.update s.waits y w x = .returned target →
      (y = x → w = .returned target → History.Once (At x target) ((s, a) :: h)) →
        History.Once (At x target) ((s, a) :: h) := by
    intro y w hx hself
    by_cases hyx : x = y
    · subst hyx
      exact hself rfl (by simpa using hx)
    · exact (hI.returned x target (by simpa [hyx] using hx)).cons s a
  cases hs with
  | beginWait _ _ => exact hmove hx (by rintro _ ⟨⟩)
  | @already y _ _ hwait hv =>
    refine hmove hx fun hyx heq => .now ⟨?_, ?_⟩ _ h
    · rw [← hyx, hwait]; rfl
    · rwa [WaitCall.returned.inj heq] at hv
  | register _ _ _ _ => exact hmove hx (by rintro _ ⟨⟩)
  | beginModify _ _ => exact (hI.returned x target hx).cons s _
  | step _ => exact (hI.returned x target hx).cons s _
  | @resolved y reg reg' hwait hcall =>
    refine hmove hx fun hyx heq => ?_
    subst hyx
    -- its own claim has resolved it
    have hagree : reg' = reg := by
      simpa [hwait, hcall, WaitCall.Agrees, CounterCall.registration] using hw.agrees y
    rw [← WaitCall.returned.inj heq, ← hagree]
    exact (hI.claimed y y reg' ((hc.claims.own y).mpr (by rw [hcall]; rfl))
      (by rw [hcall]; rfl)).cons s _
  | sleep _ _ => exact hmove hx (by rintro _ ⟨⟩)
  | @resume y z reg hwait hp =>
    refine hmove hx fun hyx heq => ?_
    subst hyx
    have hcall : s.counter.calls y = .addWaiting reg (.returned false) := by
      have hagree := hw.agrees y
      rwa [hwait] at hagree
    -- the entry carries the flag of this wait, so that it was this wait that was claimed
    obtain ⟨b, hb, reg', hreg', hentry⟩ := hc.claimed_of_pushed hp
    have hflag : reg'.fiberStored = reg.fiberStored := congrArg Prod.snd hentry
    obtain rfl := hw.flag_unique b y reg' reg hreg' (by rw [hcall]; rfl) hflag
    rw [← WaitCall.returned.inj heq]
    exact (hI.claimed b z reg hb (by rw [hcall]; rfl)).cons s _

/-- What the calls have seen, however a step changes them. -/
private theorem loaded_step (hI : SeenInv h s) (hw : WaitsOk s) (hc : CounterInv s.counter)
    {a : WaitAction ι} (hs : WaitStep s a s') (x : ι) :
    (s'.counter.calls x).LoadedOk ((s, a) :: h) s'.counter.occupant x := by
  -- a call that begins has loaded nothing yet
  have hbegin : ∀ {y : ι} {c : CounterCall}, c.LoadedOk ((s, a) :: h) s.counter.occupant x →
      ((s.counter.setCall y c).calls x).LoadedOk ((s, a) :: h) s.counter.occupant x := by
    intro y c hcok
    by_cases hxy : x = y
    · subst hxy
      simpa using hcok
    · simpa [hxy] using loadedOk_mono (hI.loaded x) (fun _ => id) a
  cases hs with
  | register _ _ _ _ => exact hbegin trivial
  | beginModify _ _ => exact hbegin trivial
  | @step y eff c hn =>
    change (Function.update s.counter.calls y c x).LoadedOk _ (s.counter.occupantAfter y eff) x
    by_cases hxy : x = y
    · subst hxy
      rw [Function.update_self]
      exact loadedOk_next (hI.loaded x) hc.occupants (hw.agrees x) hn _
    · rw [Function.update_of_ne hxy]
      exact loadedOk_mono (hI.loaded x) (fun i => CounterState.occupantAfter_of_ne hxy) _
  | _ => exact loadedOk_mono (hI.loaded x) (fun _ => id) _

/-- Every step whose claim is in order keeps track of what has been seen. -/
theorem SeenInv.step (hI : SeenInv h s) (hw : WaitsOk s) (hc : CounterInv s.counter)
    {a : WaitAction ι} (hok : ClaimsInOrder h s a) (hs : WaitStep s a s') :
    SeenInv ((s, a) :: h) s' where
  begun x hx := by
    rcases History.once_cons.mp hx with hnow | hbefore
    · exact (waits_step hs hnow).1
    · exact (waits_step hs (hI.begun x hbefore)).1
  loaded x := loaded_step hI hw hc hs x
  announced x op prev value pc hx b hin hbegan := by
    rcases announced_step hs hx with ⟨pc', hbefore⟩ | ⟨hvalue, hwaits⟩
    · have hearlier : h.Once (BeganBefore b x) := by
        rcases History.once_cons.mp hbegan with hnow | hearlier
        · simp [BeganBefore, hbefore, CounterCall.fetched] at hnow
        · exact hearlier
      have hbegun := hI.begun b (hearlier.mono fun _ hb => hb.1)
      exact .inl ((hI.announced x op prev value pc' hbefore b ((waits_step hs hbegun).2 hin)
        hearlier).once a)
    · exact .inr ⟨hin, hvalue⟩
  claimed b y reg hb hreg := claimed_step hI hw hc hok hs hb hreg
  returned x target hx := returned_step hI hw hc hs hx

/-- What holds in every run whose claims are in order. -/
structure WaitInv (h : History (WaitState ι) (WaitAction ι)) (s : WaitState ι) : Prop where
  counter : CounterInv s.counter
  waits : WaitsOk s
  seen : SeenInv h s

/-- Every run whose claims are in order has the invariant. -/
theorem waitInv_of_run {n : ℕ} (hr : (waitSystem n ι).Run ClaimsInOrder h s) : WaitInv h s := by
  refine hr.invariant (P := WaitInv) ?_ ?_
  · rintro s rfl
    exact
      { counter := .idle n
        waits :=
          { agrees := fun _ => rfl
            flag_lt := fun _ _ hx => nomatch hx
            flag_unique := fun _ _ _ _ hx => nomatch hx
            resumed := fun _ _ hx => nomatch hx }
        seen :=
          { begun := fun _ hx => absurd hx History.not_once_nil
            loaded := fun _ => trivial
            announced := fun _ _ _ _ _ hx => nomatch hx
            claimed := fun _ _ _ hx => nomatch hx
            returned := fun _ _ hx => nomatch hx } }
  · rintro h s a s' - ⟨hc, hw, hI⟩ hok hs
    have hstep := WaitStep.of_waitStep hs
    refine ⟨?_, hw.step hc hstep, hI.step hw hc hok hstep⟩
    rcases waitStep_counter hs with ⟨c, hon, hcs⟩ | hsame
    · exact hc.step (hok.1 c hon) hcs
    · rwa [hsame]

end Step

end NomadTasks
