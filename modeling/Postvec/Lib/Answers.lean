import Mathlib.Data.Nat.Find
import Mathlib.Tactic.TypeStar

/-!
# Waiting for answers

A client that asks, waits, and goes on with the answer: `feed p a` is what a client waiting in the
state `p` does with the answer `a`. It waits again (`.inl`) or has a result (`.inr`).

* `after feed x answers n`: where it is after `n` answers;
* `ends_iff`: if some answers change nothing that counts (`idle`) and every other one uses up a
  budget, the client ends exactly if it is nowhere left with idle answers only.
-/

namespace Machine

variable {P A R : Type*} {feed : P → A → P ⊕ R} {x : P ⊕ R} {answers : Nat → A}

/-- The client after `n` answers. -/
def after (feed : P → A → P ⊕ R) (x : P ⊕ R) (answers : Nat → A) : Nat → P ⊕ R
  | 0 => x
  | n + 1 =>
    match after feed x answers n with
    | .inl p => feed p (answers n)
    | .inr r => .inr r

theorem after_succ_inl {n : Nat} {p : P} (h : after feed x answers n = .inl p) :
    after feed x answers (n + 1) = feed p (answers n) := by
  rw [after, h]

/-- A result stays. -/
theorem after_inr {n : Nat} {r : R} (h : after feed x answers n = .inr r) {m : Nat} (hm : n ≤ m) :
    after feed x answers m = .inr r := by
  induction m, hm using Nat.le_induction with
  | base => exact h
  | succ m _ ih => rw [after, ih]

section Budget

variable {idle : A → Prop} {budget : P → Nat}

/-- Idle answers keep the client waiting, with the same budget. -/
theorem after_idle (hidle : ∀ p a, idle a → ∃ p', feed p a = .inl p' ∧ budget p' = budget p)
    {n : Nat} {p : P} (h : after feed x answers n = .inl p) {m : Nat} (hm : n ≤ m)
    (hall : ∀ k, n ≤ k → k < m → idle (answers k)) :
    ∃ p', after feed x answers m = .inl p' ∧ budget p' = budget p := by
  induction m, hm using Nat.le_induction with
  | base => exact ⟨p, h, rfl⟩
  | succ m hm ih =>
    obtain ⟨q, hq, hb⟩ := ih fun k hk hlt => hall k hk (Nat.lt_succ_of_lt hlt)
    obtain ⟨p', hp', hb'⟩ := hidle q (answers m) (hall m hm (Nat.lt_succ_self m))
    exact ⟨p', by rw [after_succ_inl hq, hp'], hb'.trans hb⟩

/-- **When a client ends.** -/
theorem ends_iff (x : P ⊕ R) (answers : Nat → A)
    (hidle : ∀ p a, idle a → ∃ p', feed p a = .inl p' ∧ budget p' = budget p)
    (hspend : ∀ p a p', ¬ idle a → feed p a = .inl p' → budget p' < budget p) :
    (∃ n r, after feed x answers n = .inr r) ↔
      ∀ n p, after feed x answers n = .inl p → ∃ m, n ≤ m ∧ ¬ idle (answers m) := by
  constructor
  · rintro ⟨n, r, hr⟩ m p hp
    by_contra hall
    have hidles : ∀ k, m ≤ k → idle (answers k) := by
      intro k hk
      by_contra hn
      exact hall ⟨k, hk, hn⟩
    obtain ⟨q, hq, -⟩ := after_idle hidle hp (Nat.le_max_left m n) fun k hk _ => hidles k hk
    rw [after_inr hr (Nat.le_max_right m n)] at hq
    cases hq
  · intro hfair
    -- by induction on the budget: from any waiting client on, the end is reached
    have hend : ∀ b n p, after feed x answers n = .inl p → budget p = b →
        ∃ n r, after feed x answers n = .inr r := by
      intro b
      induction b using Nat.strong_induction_on with
      | _ b ih =>
        intro n p hp hb
        classical
        have hex := hfair n p hp
        -- the first answer that counts
        obtain ⟨hge, hcounts⟩ := Nat.find_spec hex
        obtain ⟨q, hq, hbq⟩ := after_idle hidle hp hge fun k hk hlt => by
          by_contra hn
          exact Nat.find_min hex hlt ⟨hk, hn⟩
        cases hf : feed q (answers (Nat.find hex)) with
        | inr r => exact ⟨_, r, (after_succ_inl hq).trans hf⟩
        | inl p' =>
          have hlt := hspend q _ p' hcounts hf
          exact ih (budget p') (by omega) _ p' ((after_succ_inl hq).trans hf) rfl
    cases hx : after feed x answers 0 with
    | inl p => exact hend _ 0 p hx rfl
    | inr r => exact ⟨0, r, hx⟩

end Budget

end Machine
