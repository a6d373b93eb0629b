import NomadTasks.Counter.Registration

/-!
# Which registrations have reached a ready list

A scan claims a registration first and pushes its entry two steps later. A registration is
delivered when its entry has been pushed.

* `CounterInv.delivered_perform`: a step delivers the registration whose entry it pushes, which
  was claimed and not delivered before, and no other.
-/

namespace NomadTasks

variable {ι : Type}

/-- The entry of the registration of call `a` has been pushed. -/
def CounterState.Delivered (s : CounterState ι) (a : ι) : Prop :=
  ∃ x, a ∈ (s.claims x).take (s.pushed x).length

namespace CounterInv

variable {s : CounterState ι} {a : ι}

/-- A call has pushed at most what it has claimed. -/
theorem pushed_length_le (h : CounterInv s) (x : ι) :
    (s.pushed x).length ≤ (s.claims x).length := by
  have hlen := congrArg List.length (h.pushes x)
  cases hmod : (s.calls x).isModify with
  | true =>
    simp only [hmod, if_true, List.length_append, List.length_map] at hlen
    omega
  | false =>
    simp only [hmod, Bool.false_eq_true, if_false, List.length_append, List.length_nil] at hlen
    omega

/-- What is delivered has been claimed by a scan. -/
theorem claimed_of_delivered (h : CounterInv s) (ha : s.Delivered a) :
    ∃ x, (s.calls x).isModify = true ∧ a ∈ s.claims x := by
  obtain ⟨x, hx⟩ := ha
  refine ⟨x, ?_, List.mem_of_mem_take hx⟩
  by_contra hmod
  simp [h.pushed_of_not_isModify (by simpa using hmod)] at hx

/-- What a scan has claimed, its own call has not resolved. -/
theorem not_ownResolved_of_claimed (h : CounterInv s) {x : ι} (hmod : (s.calls x).isModify = true)
    (hx : a ∈ s.claims x) : (s.calls a).ownResolved = false := by
  by_contra hown
  obtain rfl : x = a := h.claims.unique a x a hx ((h.claims.own a).mpr (by simpa using hown))
  cases hcall : s.calls x <;>
    simp [hcall, CounterCall.isModify, CounterCall.ownResolved] at hmod hown

/-- The call of a delivered registration has not resolved it itself. -/
theorem not_ownResolved_of_delivered (h : CounterInv s) (ha : s.Delivered a) :
    (s.calls a).ownResolved = false := by
  obtain ⟨x, hmod, hx⟩ := h.claimed_of_delivered ha
  exact h.not_ownResolved_of_claimed hmod hx

variable [DecidableEq ι] {x : ι} {eff : Effect} {c : CounterCall}

/-- What a step without a push delivers: nothing. -/
private theorem delivered_quiet (h : CounterInv s) (hpush : eff.pushes = []) (b : ι) :
    (s.perform x eff c).Delivered b ↔ s.Delivered b := by
  have hpushed : (s.perform x eff c).pushed = s.pushed := by
    cases eff <;> first | rfl | simp [Effect.pushes] at hpush
  have htake : ∀ y, ((s.perform x eff c).claims y).take (s.pushed y).length =
      (s.claims y).take (s.pushed y).length := by
    intro y
    cases eff with
    | claim i =>
      by_cases hyx : y = x
      · subst hyx
        simp [CounterState.perform, CounterState.claimsAfter,
          List.take_append_of_le_length (h.pushed_length_le y)]
      · simp [CounterState.perform, CounterState.claimsAfter, hyx]
    | _ => rfl
  simp only [CounterState.Delivered, hpushed, htake]

/-- A push delivers the last registration that its call has claimed. -/
private theorem delivered_push (h : CounterInv s) {entry : ReadyFiber}
    (hn : (s.calls x).next s.ctr = some (.push entry, c)) :
    ∃ a, entry = (s.calls a).entry ∧ a ∈ s.claims x ∧ (s.calls x).isModify = true ∧
      ¬ s.Delivered a ∧
        ∀ b, (s.perform x (.push entry) c).Delivered b ↔ s.Delivered b ∨ b = a := by
  have hhand := CounterCall.inHand_next hn
  simp only [Effect.pushes, Effect.takes, ite_self, List.append_nil] at hhand
  have hclaims := h.pushes x
  rw [← hhand] at hclaims
  cases hmod : (s.calls x).isModify with
  | false => simp [hmod] at hclaims
  | true =>
  rw [hmod, if_pos rfl] at hclaims
  -- the entry that is pushed is the first one not pushed yet, and no other is in hand
  have hafter : c.inHand s.ctr = [] := by
    have hlen := congrArg List.length hhand
    simp only [BaseCounter.apply_push, List.length_append, List.length_cons,
      List.length_nil] at hlen
    have hone : ((s.calls x).inHand s.ctr).length ≤ 1 := by
      fun_cases CounterCall.inHand s.ctr (s.calls x) <;> simp
    exact List.length_eq_zero_iff.mp (by omega)
  simp only [BaseCounter.apply_push, hafter, List.append_nil] at hclaims
  obtain ⟨front, last, hsplit, hfront, hlast⟩ := List.map_eq_append_iff.mp hclaims.symm
  obtain ⟨a, hlist, rfl⟩ : ∃ a, last = [a] ∧ entry = (s.calls a).entry := by
    cases last with
    | nil => cases hlast
    | cons a rest =>
      simp only [List.map_cons, List.cons.injEq, List.map_eq_nil_iff] at hlast
      exact ⟨a, by rw [hlast.2], hlast.1.symm⟩
  subst hlist
  have hlength : (s.pushed x).length = front.length := by rw [← hfront, List.length_map]
  have hnodup := h.claims.nodup x
  rw [hsplit, List.nodup_append] at hnodup
  have hmem : a ∈ s.claims x := by simp [hsplit]
  -- the claims have no duplicates, so the last one pushed was not among the delivered ones
  refine ⟨a, rfl, hmem, rfl, ?_, fun b => ?_⟩
  · rintro ⟨y, hy⟩
    obtain rfl : y = x := h.claims.unique a y x (List.mem_of_mem_take hy) hmem
    rw [hsplit, hlength, List.take_left] at hy
    exact hnodup.2.2 a hy a (by simp) rfl
  · have hself : (((s.perform x (.push (s.calls a).entry) c).claims x).take
        ((s.perform x (.push (s.calls a).entry) c).pushed x).length) = front ++ [a] := by
      simp only [CounterState.perform, CounterState.pushedAfter, CounterState.claimsAfter,
        Function.update_self, List.length_append, List.length_cons, List.length_nil, hlength,
        hsplit]
      exact List.take_of_length_le (by simp)
    have hother : ∀ y, y ≠ x → ((s.perform x (.push (s.calls a).entry) c).claims y).take
        ((s.perform x (.push (s.calls a).entry) c).pushed y).length =
          (s.claims y).take (s.pushed y).length := by
      intro y hyx
      simp [CounterState.perform, CounterState.pushedAfter, CounterState.claimsAfter, hyx]
    constructor
    · rintro ⟨y, hy⟩
      by_cases hyx : y = x
      · subst hyx
        rw [hself, List.mem_append, List.mem_singleton] at hy
        refine hy.imp_left fun hb => ⟨y, ?_⟩
        rwa [hsplit, hlength, List.take_left]
      · rw [hother y hyx] at hy
        exact .inl ⟨y, hy⟩
    · rintro (⟨y, hy⟩ | rfl)
      · by_cases hyx : y = x
        · subst hyx
          refine ⟨y, ?_⟩
          rw [hsplit, hlength, List.take_left] at hy
          rw [hself]
          exact List.mem_append_left _ hy
        · exact ⟨y, by rwa [hother y hyx]⟩
      · exact ⟨x, by rw [hself]; simp⟩

/-- A step of a call delivers nothing, or the one registration whose entry it pushes: a scan has
claimed it, and it was not delivered before. -/
theorem delivered_perform (h : CounterInv s) (hn : (s.calls x).next s.ctr = some (eff, c)) :
    (eff.pushes = [] ∧ ∀ b, (s.perform x eff c).Delivered b ↔ s.Delivered b) ∨
      ∃ a, eff.pushes = [(s.calls a).entry] ∧ a ∈ s.claims x ∧ (s.calls x).isModify = true ∧
        ¬ s.Delivered a ∧ ∀ b, (s.perform x eff c).Delivered b ↔ s.Delivered b ∨ b = a := by
  by_cases hpush : ∃ entry, eff = .push entry
  · obtain ⟨entry, rfl⟩ := hpush
    obtain ⟨a, rfl, hrest⟩ := h.delivered_push hn
    exact .inr ⟨a, rfl, hrest⟩
  · have hnone : eff.pushes = [] := by
      cases eff <;> first | rfl | exact absurd ⟨_, rfl⟩ hpush
    exact .inl ⟨hnone, h.delivered_quiet hnone⟩

end CounterInv

/-! ## What calls keep -/

/-- From `s` to `s'`, the calls keep their registrations, and those that have resolved theirs or
have returned stay so. -/
structure CallsKept (s s' : CounterState ι) : Prop where
  registration : ∀ x reg, (s.calls x).registration = some reg →
    (s'.calls x).registration = some reg
  ownResolved : ∀ x, (s.calls x).ownResolved = true → (s'.calls x).ownResolved = true
  returned : ∀ x reg r, s.calls x = .addWaiting reg (.returned r) →
    s'.calls x = .addWaiting reg (.returned r)

theorem CallsKept.refl (s : CounterState ι) : CallsKept s s :=
  ⟨fun _ _ h => h, fun _ h => h, fun _ _ _ h => h⟩

section Step

variable [DecidableEq ι] {s s' : CounterState ι}

/-- A call that is replaced keeps what there is to keep. -/
private theorem CallsKept.of_calls {x : ι} {c : CounterCall}
    (hcalls : s'.calls = Function.update s.calls x c)
    (hreg : ∀ reg, (s.calls x).registration = some reg → c.registration = some reg)
    (hown : (s.calls x).ownResolved = true → c.ownResolved = true)
    (hret : ∀ reg r, s.calls x ≠ .addWaiting reg (.returned r)) : CallsKept s s' := by
  refine ⟨fun y reg hy => ?_, fun y hy => ?_, fun y reg r hy => ?_⟩ <;> rw [hcalls]
  all_goals
    by_cases hyx : y = x
    · subst hyx
      rw [Function.update_self]
      first | exact hreg reg hy | exact hown hy | exact absurd hy (hret reg r)
    · rwa [Function.update_of_ne hyx]

/-- Every step keeps it. -/
theorem callsKept_step {a : CounterAction ι} (hs : counterStep s a = some s') : CallsKept s s' := by
  rcases counterStep_cases hs with ⟨x, c, hx, -, rfl⟩ | ⟨x, c, hx, -, rfl⟩ |
    ⟨x, eff, c, rfl, hn, rfl⟩
  · exact .of_calls rfl (by simp [hx, CounterCall.registration])
      (by simp [hx, CounterCall.ownResolved]) (by simp [hx])
  · exact .of_calls rfl (by simp [hx, CounterCall.registration])
      (by simp [hx, CounterCall.ownResolved]) (by simp [hx])
  · refine .of_calls rfl (fun reg hreg => ((CounterCall.registration_next hn).1.trans hreg)) ?_
      fun reg r hx => ?_
    · revert hn
      rcases s.calls x with _ | ⟨reg, pc⟩ | ⟨op, pc⟩
      · rintro ⟨⟩
      · simp only [CounterCall.next]
        fun_cases AddPc.next s.ctr reg pc <;> rintro ⟨⟩ <;> simp [CounterCall.ownResolved]
      · simp [CounterCall.ownResolved]
    · rw [hx] at hn
      cases hn

/-- A registration is new only when its call begins. -/
theorem registration_step {a : CounterAction ι} (hs : counterStep s a = some s') {x : ι}
    {reg : Registration} (hx : (s'.calls x).registration = some reg) :
    (s.calls x).registration = some reg ∨ a = .beginAddWaiting x reg := by
  cases a with
  | beginAddWaiting y reg' | beginModify y op =>
    simp only [counterStep, Option.ite_none_right_eq_some, Option.some.injEq] at hs
    obtain ⟨-, rfl⟩ := hs
    by_cases hxy : x = y
    · subst hxy
      simp only [CounterState.setCall_calls, Function.update_self, CounterAction.begun,
        CounterCall.registration, Option.some.injEq, reduceCtorEq] at hx
      try exact .inr (by rw [hx])
    · simp only [CounterState.setCall_calls, Function.update_of_ne hxy] at hx
      exact .inl hx
  | step y =>
    simp only [counterStep, Option.map_eq_some_iff] at hs
    obtain ⟨⟨eff, c⟩, hn, rfl⟩ := hs
    refine .inl ((s.update_congr CounterCall.registration
      (CounterCall.registration_next hn).1 x).symm.trans hx)

end Step

end NomadTasks
