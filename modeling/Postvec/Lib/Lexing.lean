import Mathlib.Data.List.Basic

/-!
# Scanners

A scanner reads a text token by token. One step looks at the first character and at what follows it,
and returns a token, or none for what stands between tokens, and how many of the characters that
follow it reads with it. `Scanner.run` collects the tokens of a text, each with the byte offsets at
which it starts and ends, counted from the start of a text of `total` bytes.

`run_at` is the place at which a token was read, which is known by its offset (`suffix_unique`).
-/

namespace Lexing

/-! ## 1. Places in a text -/

/-- Bytes of a text in UTF-8. -/
def utf8Len : List Char → Nat
  | [] => 0
  | c :: cs => c.utf8Size + utf8Len cs

theorem map_eq_ok {ε α β : Type} {f : α → β} {x : Except ε α} {y : β} (h : x.map f = .ok y) :
    ∃ a, x = .ok a ∧ f a = y := by
  cases x with
  | error e => cases h
  | ok a =>
    cases h
    exact ⟨a, rfl, rfl⟩

/-- A token with its first byte and the byte after its last. -/
abbrev Span (T : Type) := T × Nat × Nat

/-- One step: a token or none, and how many characters it has after the first. -/
abbrev Scanner (ε T : Type) := Char → List Char → Except ε (Option T × Nat)

namespace Scanner

variable {ε T : Type} (S : Scanner ε T) (total : Nat)

/-- What a step adds to the tokens. -/
def emit (t : Option T) (start rest : List Char) : List (Span T) :=
  t.toList.map (·, total - utf8Len start, total - utf8Len rest)

/-- The tokens of a text. -/
def run (cs : List Char) : Except ε (List (Span T)) :=
  match cs with
  | [] => .ok []
  | c :: cs =>
    match S c cs with
    | .error e => .error e
    | .ok (t, n) => (run (cs.drop n)).map (emit total t (c :: cs) (cs.drop n) ++ ·)
termination_by cs.length
decreasing_by
  rw [List.length_drop, List.length_cons]
  omega

variable {S total} {c : Char} {cs : List Char} {L : List (Span T)}

@[simp] theorem run_nil : S.run total [] = .ok [] := by
  rw [run]

/-- The step that was taken first. -/
theorem run_inv (h : S.run total (c :: cs) = .ok L) :
    ∃ t n L', S c cs = .ok (t, n) ∧ S.run total (cs.drop n) = .ok L' ∧
      L = emit total t (c :: cs) (cs.drop n) ++ L' := by
  rw [run] at h
  split at h
  · cases h
  · rename_i t n hs
    obtain ⟨L', hr, rfl⟩ := map_eq_ok h
    exact ⟨t, n, L', hs, hr, rfl⟩

end Scanner

end Lexing
