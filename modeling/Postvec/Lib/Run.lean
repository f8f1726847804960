import Mathlib.Tactic.TypeStar

/-!
# Runs of a step function, under a condition on its steps

A machine is a partial step function `step : S → A → Option S`: an action is refused (`none`) where
it is blocked or makes no sense, and otherwise leads to one state. Nondeterminism is in the choice
of the action.

* `Reach step C s₀ s`: some run from `s₀` ends in `s`, and each of its steps met `C`;
* `Reach.invariant`: what holds at the start and is kept by every step that meets `C` holds in
  every state so reached;
* `runWhile`: the same runs, computed, for a condition that can be decided (`Reach.of_runWhile`).
-/

namespace Machine

section Runs

variable {S A : Type*} {step : S → A → Option S} {C : S → A → Prop} {s₀ s s' : S}

/-- The states reached from `s₀` by steps that all meet `C`. -/
inductive Reach (step : S → A → Option S) (C : S → A → Prop) (s₀ : S) : S → Prop where
  | start : Reach step C s₀ s₀
  | next {s s' : S} (a : A) : Reach step C s₀ s → C s a → step s a = some s' → Reach step C s₀ s'

/-- A guarded step that was taken. -/
theorem guarded {p : Prop} [Decidable p] (h : (if p then some s else none) = some s') :
    p ∧ s = s' :=
  (Option.ite_none_right_eq_some.mp h).imp_right Option.some.inj

/-- **Invariants over runs.** -/
theorem Reach.invariant {I : S → Prop} (h : Reach step C s₀ s) (start : I s₀)
    (keep : ∀ s a s', I s → C s a → step s a = some s' → I s') : I s := by
  induction h with
  | start => exact start
  | next a _ hC hs ih => exact keep _ a _ ih hC hs

/-- A run all of whose steps meet `C`, computed. -/
def runWhile (step : S → A → Option S) (C : S → A → Prop) [∀ s a, Decidable (C s a)] (s : S) :
    List A → Option S
  | [] => some s
  | a :: as =>
    if C s a then
      match step s a with
      | none => none
      | some s' => runWhile step C s' as
    else none

theorem Reach.trans (h : Reach step C s₀ s) (h' : Reach step C s s') : Reach step C s₀ s' := by
  induction h' with
  | start => exact h
  | next a _ hC hs ih => exact .next a ih hC hs

theorem Reach.of_runWhile [∀ s a, Decidable (C s a)] : ∀ {as : List A} {s₀ s : S},
    runWhile step C s₀ as = some s → Reach step C s₀ s
  | [], s₀, s, h => by
    cases h
    exact .start
  | a :: as, s₀, s, h => by
    unfold runWhile at h
    split at h
    · rename_i hC
      split at h
      · cases h
      · rename_i s' hs
        exact (Reach.next a .start hC hs).trans (of_runWhile h)
    · cases h

/-- A computed run to a state with the property `p`. -/
theorem Reach.exists_of_runWhile [∀ s a, Decidable (C s a)] {p : S → Bool} {as : List A}
    (h : (runWhile step C s₀ as).any p = true) : ∃ s, Reach step C s₀ s ∧ p s = true := by
  cases hr : runWhile step C s₀ as with
  | none => simp [hr] at h
  | some s =>
    rw [hr] at h
    exact ⟨s, .of_runWhile hr, h⟩

end Runs

end Machine
