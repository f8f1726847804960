import Mathlib.Data.List.Basic

/-!
# Checks in sequence

When a computation with errors succeeds: a sequence does if its parts do, and a change of the error
does not matter. With these a function that runs checks one after the other is read as a
conjunction.
-/

namespace Machine

variable {ε ε' α β : Type}

variable {x : Except ε α}

@[simp] theorem mapError_ok {f : ε → ε'} {a : α} :
    x.mapError f = .ok a ↔ x = .ok a := by
  cases x <;> simp [Except.mapError]

theorem bind_ok {f : α → Except ε β} {b : β} :
    (x >>= f) = .ok b ↔ ∃ a, x = .ok a ∧ f a = .ok b := by
  cases x with
  | error | ok => simp [bind, Except.bind]

/-- A check before the rest. -/
@[simp] theorem check_ok {x : Except ε Unit} {f : Unit → Except ε β} {b : β} :
    (x >>= f) = .ok b ↔ x = .ok () ∧ f () = .ok b := by
  rw [bind_ok]
  exact ⟨fun ⟨⟨⟩, h⟩ => h, fun h => ⟨(), h⟩⟩

@[simp] theorem ite_error_ok {p : Prop} [Decidable p] {e : ε} {a : α} :
    (if p then .error e else x) = .ok a ↔ ¬ p ∧ x = .ok a := by
  split
  · rename_i h
    simp [h]
  · rename_i h
    simp [h]

@[simp] theorem pure_ok {a b : α} : (pure a : Except ε α) = .ok b ↔ a = b := by
  simp [pure, Except.pure]

end Machine
