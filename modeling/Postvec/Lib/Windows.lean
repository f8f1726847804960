import Mathlib.Algebra.BigOperators.Group.List.Basic
import Mathlib.Data.List.Pairwise
import Mathlib.Tactic.Ring
import Mathlib.Tactic.Linarith

/-!
# Spans of an interval

Two ways to cover the numbers `0 .. n` by end-exclusive spans:

* `Tiles size a b ps`: the spans `ps` lie end to end from `a` to `b`, each of at most `size`;
* `Windows size overlap ws`: the spans `ws`, newest first, start at `0`, each reaching back at most
  `overlap` into the one before it and ending after it, and no window together with the new part of
  the next one fits in `size`.

The last condition bounds how many windows there are (`Windows.room`), and then their total length
(`Windows.total_le`).
-/

namespace Machine

open List

/-! ## 1. Tiles -/

inductive Tiles (size : Nat) : Nat → Nat → List (Nat × Nat) → Prop where
  | nil (a : Nat) : Tiles size a a []
  | cons {a b c : Nat} {ps : List (Nat × Nat)} : a < b → b - a ≤ size → Tiles size b c ps →
      Tiles size a c ((a, b) :: ps)

namespace Tiles

variable {size a b c : Nat} {ps qs : List (Nat × Nat)}

theorem single (h : a < b) (hs : b - a ≤ size) : Tiles size a b [(a, b)] :=
  .cons h hs (.nil b)

theorem append (h : Tiles size a b ps) (h' : Tiles size b c qs) : Tiles size a c (ps ++ qs) := by
  induction h with
  | nil => exact h'
  | cons hlt hs _ ih => exact .cons hlt hs (ih h')

end Tiles

/-! ## 2. Windows -/

/-- `w'` is a next window after `w`. -/
structure Follows (size overlap : Nat) (w w' : Nat × Nat) : Prop where
  start_lt : w.1 < w'.1
  no_gap : w'.1 ≤ w.2
  end_lt : w.2 < w'.2
  carried : w.2 ≤ w'.1 + overlap
  fits : w'.2 ≤ w'.1 + size
  crowded : w.1 + size < w'.2

inductive Windows (size overlap : Nat) : List (Nat × Nat) → Prop where
  | first {e : Nat} : 0 < e → e ≤ size → Windows size overlap [(0, e)]
  | next {w w' : Nat × Nat} {ws : List (Nat × Nat)} : Windows size overlap (w :: ws) →
      Follows size overlap w w' → Windows size overlap (w' :: w :: ws)

/-- The total length of the windows. -/
def total (ws : List (Nat × Nat)) : Nat := (ws.map fun w => w.2 - w.1).sum

@[simp] theorem total_nil : total [] = 0 := rfl
@[simp] theorem total_cons (w : Nat × Nat) (ws : List (Nat × Nat)) :
    total (w :: ws) = w.2 - w.1 + total ws := rfl

theorem total_append (vs ws : List (Nat × Nat)) : total (vs ++ ws) = total vs + total ws := by
  rw [total, map_append, sum_append]
  rfl

theorem total_reverse (ws : List (Nat × Nat)) : total ws.reverse = total ws := by
  rw [total, map_reverse, sum_reverse]
  rfl

namespace Windows

variable {size overlap : Nat} {w : Nat × Nat} {ws : List (Nat × Nat)}

/-- The newest window may grow as long as it fits. -/
theorem grow {s e e' : Nat} (h : Windows size overlap ((s, e) :: ws)) (he : e < e')
    (hf : e' ≤ s + size) : Windows size overlap ((s, e') :: ws) := by
  cases h with
  | first h0 _ => exact .first (by omega) (by omega)
  | next h hw =>
    refine .next h ⟨hw.start_lt, hw.no_gap, ?_, hw.carried, hf, ?_⟩
    · have := hw.end_lt
      simp only at this ⊢
      omega
    · have := hw.crowded
      simp only at this ⊢
      omega

theorem bounds (h : Windows size overlap ws) : ∀ w ∈ ws, w.1 < w.2 ∧ w.2 ≤ w.1 + size := by
  induction h with
  | first h0 hs =>
    intro w hw
    rw [mem_singleton.mp hw]
    exact ⟨h0, by simpa using hs⟩
  | next _ hf ih =>
    intro w hw
    rcases mem_cons.mp hw with rfl | hw
    · exact ⟨Nat.lt_of_le_of_lt hf.no_gap hf.end_lt, hf.fits⟩
    · exact ih w hw

/-- What a later window `w'` has to do with any earlier window `w`. -/
structure After (overlap : Nat) (w' w : Nat × Nat) : Prop where
  start_lt : w.1 < w'.1
  end_lt : w.2 < w'.2
  carried : w.2 ≤ w'.1 + overlap

theorem pairwise (h : Windows size overlap ws) : ws.Pairwise (After overlap) := by
  induction h with
  | first => exact pairwise_singleton _ _
  | @next w w' ws h hf ih =>
    refine pairwise_cons.mpr ⟨fun v hv => ?_, ih⟩
    rcases mem_cons.mp hv with rfl | hv
    · exact ⟨hf.start_lt, hf.end_lt, hf.carried⟩
    · -- an earlier window ended before `w` did, and `w'` reaches back from the end of `w`
      have hv' := (pairwise_cons.mp ih).1 v hv
      have h1 := hf.start_lt
      have h2 := hf.end_lt
      have h3 := hf.carried
      have h4 := hv'.start_lt
      have h5 := hv'.end_lt
      exact ⟨by omega, by omega, by omega⟩

/-- No window ends after the newest one. -/
theorem end_le (h : Windows size overlap (w :: ws)) : ∀ v ∈ w :: ws, v.2 ≤ w.2 := by
  intro v hv
  rcases mem_cons.mp hv with rfl | hv
  · exact Nat.le_refl _
  · exact Nat.le_of_lt ((pairwise_cons.mp h.pairwise).1 v hv).end_lt

/-- The windows up to one of them are windows. -/
theorem suffix (h : Windows size overlap ws) {vs : List (Nat × Nat)} (hs : w :: vs <:+ ws) :
    Windows size overlap (w :: vs) := by
  induction h with
  | first h0 hle =>
    rw [suffix_cons_iff, suffix_nil, or_iff_left (cons_ne_nil _ _)] at hs
    exact hs ▸ .first h0 hle
  | next h hf ih =>
    rcases suffix_cons_iff.mp hs with hs | hs
    · exact hs ▸ .next h hf
    · exact ih hs

/-- Every number below the newest end lies in a window. -/
theorem covers (h : Windows size overlap (w :: ws)) {i : Nat} (hi : i < w.2) :
    ∃ v ∈ w :: ws, v.1 ≤ i ∧ i < v.2 := by
  generalize hl : w :: ws = l at h
  induction h generalizing w ws with
  | first h0 hs =>
    obtain ⟨rfl, rfl⟩ := List.cons.inj hl
    exact ⟨_, mem_cons_self, Nat.zero_le i, hi⟩
  | @next v v' vs h hf ih =>
    obtain ⟨rfl, rfl⟩ := List.cons.inj hl
    by_cases hv : v.2 ≤ i
    · exact ⟨w, mem_cons_self, Nat.le_trans hf.no_gap hv, hi⟩
    · obtain ⟨u, hu, hin⟩ := ih (Nat.lt_of_not_le hv) rfl
      exact ⟨u, mem_cons_of_mem _ hu, hin⟩

/-- Each window adds the new part it covers and at most `overlap` numbers covered before. -/
theorem total_le (h : Windows size overlap (w :: ws)) :
    total (w :: ws) ≤ w.2 + ws.length * overlap := by
  generalize hl : w :: ws = l at h
  induction h generalizing w ws with
  | first h0 hs =>
    obtain ⟨rfl, rfl⟩ := List.cons.inj hl
    simp
  | @next v v' vs h hf ih =>
    obtain ⟨rfl, rfl⟩ := List.cons.inj hl
    have h1 := ih rfl
    have h2 := hf.carried
    have h3 := hf.end_lt
    rw [total_cons]
    simp only [length_cons, Nat.succ_mul]
    omega

/-- How far the newest of `k` windows reaches at least: two windows take `size + 1` numbers, three
    take `size + 2`, and two more take `size + 1 - overlap` more. -/
theorem room (ho : overlap ≤ size) : ∀ {ws : List (Nat × Nat)} {w v : Nat × Nat},
    Windows size overlap (w :: v :: ws) →
    ∃ t r, r < 2 ∧ ws.length + 2 = 2 * t + r ∧ t * (size + 1 - overlap) + overlap + r ≤ w.2
  | [], w, v, .next h hf => by
    cases h with
    | first h0 hs =>
      have := hf.crowded
      refine ⟨1, 0, by omega, rfl, ?_⟩
      simp only at this
      omega
  | [u], w, v, .next (.next h hf) hf' => by
    cases h with
    | first h0 hs =>
      have h1 := hf'.crowded
      have h2 := hf.start_lt
      refine ⟨1, 1, by omega, rfl, ?_⟩
      simp only at h2
      omega
  | _ :: u' :: ws, w, v, .next (.next h hf) hf' => by
    obtain ⟨t, r, hr, ht, hle⟩ := room ho h
    have h1 := hf'.crowded
    have h2 := hf.carried
    refine ⟨t + 1, r, hr, ?_, ?_⟩
    · simp only [length_cons]
      omega
    · rw [Nat.succ_mul]
      omega

end Windows

end Machine
