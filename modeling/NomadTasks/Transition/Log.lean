import Mathlib.Data.List.Nodup
import Mathlib.Data.Set.Basic
import NomadTasks.Transition.System

/-!
# What has happened in a run

A function of the steps, `f s a`, lists what the step `a` does in the state `s`. The log of a run is
what its steps have done, oldest first.

* `History.log`: the log of a run.
* `Keyed.under`: the entries of a keyed log under one key.
* `Run.flow`: where the entries that go into a store come out of it in the same order, the log of
  what went in is the log of what came out, followed by what the store holds.
* `Run.spent`: permits that are used once, from some state of a run on.
-/

namespace Transition

variable {σ α β κ : Type*}

/-- What the steps of a run have done, oldest first. -/
def History.log (f : σ → α → List β) (h : History σ α) : List β :=
  h.reverse.flatMap fun e => f e.1 e.2

section Log

variable {f : σ → α → List β} {h : History σ α} {s : σ} {a : α} {b : β}

@[simp] theorem History.log_nil : History.log f ([] : History σ α) = [] := rfl

@[simp] theorem History.log_cons : History.log f ((s, a) :: h) = h.log f ++ f s a := by
  simp [History.log]

/-- What is made of a log entry by entry is the log of what is made of the entries. -/
theorem History.map_log {γ : Type*} (g : List β → List γ) (hnil : g [] = [])
    (happend : ∀ l l', g (l ++ l') = g l ++ g l') :
    g (h.log f) = h.log fun s a => g (f s a) := by
  induction h with
  | nil => exact hnil
  | cons e h ih => rw [History.log_cons, happend, ih, History.log_cons]

theorem History.mem_log : b ∈ h.log f ↔ ∃ e ∈ h, b ∈ f e.1 e.2 := by
  simp [History.log]

end Log

/-! ## Keyed logs -/

section Keyed

variable [DecidableEq κ]

/-- The entries under the key `k`. -/
def Keyed.under (k : κ) (l : List (κ × β)) : List β :=
  l.filterMap fun p => if p.1 = k then some p.2 else none

@[simp] theorem Keyed.under_nil (k : κ) : Keyed.under k ([] : List (κ × β)) = [] := rfl

@[simp] theorem Keyed.under_append (k : κ) (l l' : List (κ × β)) :
    Keyed.under k (l ++ l') = Keyed.under k l ++ Keyed.under k l' :=
  List.filterMap_append

theorem Keyed.under_cons_self (k : κ) (b : β) (l : List (κ × β)) :
    Keyed.under k ((k, b) :: l) = b :: Keyed.under k l := by
  simp [Keyed.under]

theorem Keyed.under_cons_of_ne {k k' : κ} (hk : k' ≠ k) (b : β) (l : List (κ × β)) :
    Keyed.under k ((k', b) :: l) = Keyed.under k l := by
  simp [Keyed.under, hk]

theorem Keyed.count_under [DecidableEq β] (k : κ) (b : β) (l : List (κ × β)) :
    (Keyed.under k l).count b = l.count (k, b) := by
  induction l with
  | nil => rfl
  | cons p l ih =>
    obtain ⟨k', b'⟩ := p
    by_cases hk : k' = k
    · subst hk
      simp [Keyed.under_cons_self, List.count_cons, ih]
    · simp [Keyed.under_cons_of_ne hk, ih, hk]

theorem Keyed.under_map_snd {γ : Type*} (g : β → γ) (k : κ) (l : List (κ × β)) :
    Keyed.under k (l.map fun p => (p.1, g p.2)) = (Keyed.under k l).map g := by
  induction l with
  | nil => rfl
  | cons p l ih =>
    obtain ⟨k', b⟩ := p
    by_cases hk : k' = k
    · subst hk
      simp [Keyed.under_cons_self, ih]
    · simp [Keyed.under_cons_of_ne hk, ih]

/-- Every entry is replaced by several under its key. -/
theorem Keyed.under_flatMap {γ : Type*} (g : β → List γ) (k : κ) (l : List (κ × β)) :
    Keyed.under k (l.flatMap fun p => (g p.2).map fun c => (p.1, c)) =
      (Keyed.under k l).flatMap g := by
  have hself : ∀ cs : List γ, Keyed.under k (cs.map fun c => (k, c)) = cs := by
    intro cs
    simp [Keyed.under]
  have hother : ∀ (k' : κ) (cs : List γ), k' ≠ k →
      Keyed.under k (cs.map fun c => (k', c)) = [] := by
    intro k' cs hk
    simp [Keyed.under, hk]
  induction l with
  | nil => rfl
  | cons p l ih =>
    obtain ⟨k', b⟩ := p
    by_cases hk : k' = k
    · subst hk
      simp [Keyed.under_cons_self, hself, ih]
    · simp [Keyed.under_cons_of_ne hk, hother _ _ hk, ih]

/-- Keyed logs with the same entries under each key have the same entries. -/
theorem Keyed.perm_of_under [DecidableEq β] {l l' : List (κ × β)}
    (h : ∀ k, (Keyed.under k l).Perm (Keyed.under k l')) : l.Perm l' := by
  refine List.perm_iff_count.mpr fun p => ?_
  obtain ⟨k, b⟩ := p
  rw [← Keyed.count_under, ← Keyed.count_under]
  exact (h k).count_eq b

end Keyed

/-! ## Stores -/

namespace System

variable {L : System σ α} {ok : History σ α → σ → α → Prop} {h : History σ α} {s : σ}

/-- What goes into a store that starts empty has come out of it in the same order, or is still in
it. -/
theorem Run.flow (store : σ → List β) {into out : σ → α → List β}
    (hinit : ∀ s, L.init s → store s = [])
    (hstep : ∀ h s a s', L.Run ok h s → ok h s a → L.step s a = some s' →
      store s ++ into s a = out s a ++ store s')
    (hr : L.Run ok h s) : h.log into = h.log out ++ store s := by
  induction hr with
  | init hs => simp [hinit _ hs]
  | step hr hok hs ih =>
    rw [History.log_cons, History.log_cons, ih, List.append_assoc, hstep _ _ _ _ hr hok hs,
      List.append_assoc]

/-! ## From some state on -/

/-- Everybody who holds a permit may use it once: while nobody gets a new one, the log of those who
have used theirs, from the state `s₀` on, names each holder in `s₀` at most once, and nobody else.
-/
theorem Run.spent {C : σ → Prop} {holds : σ → Set κ} {f : σ → α → List κ}
    (hstep : ∀ h s a s', L.Run ok h s → L.step s a = some s' → C s →
      C s' ∧ holds s' ⊆ holds s ∧ (f s a).Nodup ∧ ∀ k ∈ f s a, k ∈ holds s ∧ k ∉ holds s')
    {after before : History σ α} {s₀ : σ} {a : α} (hC : C s₀)
    (hr : L.Run ok (after ++ (s₀, a) :: before) s) :
    C s ∧ holds s ⊆ holds s₀ ∧ ((after ++ [(s₀, a)]).log f).Nodup ∧
      ∀ k ∈ (after ++ [(s₀, a)]).log f, k ∈ holds s₀ ∧ k ∉ holds s := by
  induction after generalizing s with
  | nil =>
    cases hr with
    | step hr' hok hs => simpa using hstep _ _ _ _ hr' hs hC
  | cons e after ih =>
    cases hr with
    | @step _ s₁ _ b hr' hok hs =>
      obtain ⟨hC₁, hsub₁, hnodup, hspent⟩ := ih hr'
      obtain ⟨hC', hsub, hnodup', hspent'⟩ := hstep _ _ _ _ hr' hs hC₁
      simp only [List.cons_append, History.log_cons]
      refine ⟨hC', hsub.trans hsub₁, hnodup.append hnodup' fun k hk hk' => ?_, fun k hk => ?_⟩
      · exact (hspent k hk).2 (hspent' k hk').1
      · rcases List.mem_append.mp hk with hk | hk
        · exact ⟨(hspent k hk).1, fun hheld => (hspent k hk).2 (hsub hheld)⟩
        · exact ⟨hsub₁ (hspent' k hk).1, (hspent' k hk).2⟩

end System

end Transition
