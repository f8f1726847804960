import Mathlib.Data.List.Nodup
import Postvec.Lib.Paths

/-!
# Dependency-first enumeration

A walk enumerates what is reachable from some nodes, every node after what it requires, and leaves
out what is enumerated already. `DepFirst` says of a list that every node stands once and after what
it requires; `Adds` says what a walk adds to such a list: what is reachable, and nothing else.

Walks keep their marks in different ways and so are not defined here. What they have in common are
the rules of `Adds`. In a graph without long chains (`Within`) a node does not come up while what it
requires is walked (`Adds.fresh`), whatever the marks are.
-/

namespace Machine.Postorder

open Machine.Paths Relation List

variable {α : Type*}

/-- Chains from the node have fewer than `n` steps. -/
def Within (next : α → List α) : Nat → α → Prop
  | 0, _ => False
  | n + 1, x => ∀ y ∈ next x, Within next n y

/-- Every node stands once, and after what it requires. -/
structure DepFirst (next : α → List α) (l : List α) : Prop where
  nodup : l.Nodup
  before : ∀ a x b, l = a ++ x :: b → ∀ y ∈ next x, y ∈ a

variable {next : α → List α} {n : Nat} {x y : α} {l : List α}

theorem Within.irrefl : ∀ {n : Nat} {x : α}, Within next n x →
    ¬ TransGen (Edge next) x x
  | 0, _, h, _ => h
  | _ + 1, x, h, hx => by
    obtain ⟨y, hxy, hyx⟩ := TransGen.head'_iff.mp hx
    have hyy : TransGen (Edge next) y y := TransGen.tail' hyx hxy
    exact (h y hxy).irrefl hyy

/-- A rank that falls along the edges bounds the chains. -/
theorem Within.of_rank (rank : α → Nat) (hrank : ∀ x, ∀ y ∈ next x, rank y < rank x) :
    ∀ {n : Nat} {x : α}, rank x < n → Within next n x
  | 0, _, h => absurd h (Nat.not_lt_zero _)
  | _ + 1, x, h => fun y hy =>
    Within.of_rank rank hrank (Nat.lt_of_lt_of_le (hrank x y hy) (Nat.le_of_lt_succ h))

/-- So does a bound on the number of edges. -/
theorem Within.of_steps : ∀ {n : Nat} {x : α}, (∀ k v, Steps next k x v → k < n) → Within next n x
  | 0, _, h => absurd (h 0 _ .refl) (Nat.not_lt_zero 0)
  | _ + 1, _, h => fun _ hy =>
    Within.of_steps fun k v hk => Nat.lt_of_succ_lt_succ (h (k + 1) v (.head hy hk))

theorem DepFirst.nil : DepFirst next [] :=
  ⟨nodup_nil, fun a x b h => absurd h (by simp)⟩

/-- What is enumerated is closed. -/
theorem DepFirst.closed (h : DepFirst next l) (hx : x ∈ l)
    (hr : ReflTransGen (Edge next) x y) : y ∈ l := by
  induction hr with
  | refl => exact hx
  | tail _ hstep ih =>
    obtain ⟨a, b, e⟩ := append_of_mem ih
    have hmem := h.before _ _ _ e _ hstep
    rw [e]
    exact mem_append_left _ hmem

/-- A new node, once what it requires is there. -/
theorem DepFirst.snoc (h : DepFirst next l) (hx : x ∉ l) (hnext : ∀ y ∈ next x, y ∈ l) :
    DepFirst next (l ++ [x]) where
  nodup := by
    rw [nodup_append]
    refine ⟨h.nodup, nodup_singleton x, fun a ha b hb e => hx ?_⟩
    rw [mem_singleton.mp hb] at e
    exact e ▸ ha
  before := by
    intro a z b e y hy
    rcases append_eq_append_iff.mp e with ⟨c, ha, hc⟩ | ⟨c, hl, hc⟩
    · -- the node is the new one
      cases c with
      | nil =>
        obtain ⟨rfl, rfl⟩ : x = z ∧ b = [] := by simpa [eq_comm] using hc
        rw [ha, append_nil]
        exact hnext y hy
      | cons w c => simp at hc
    · cases c with
      | nil =>
        obtain ⟨rfl, rfl⟩ : z = x ∧ b = [] := by simpa using hc
        rw [append_nil] at hl
        exact hl ▸ hnext y hy
      | cons w c =>
        obtain ⟨rfl, rfl⟩ : z = w ∧ b = c ++ [x] := by simpa using hc
        exact h.before a z c hl y hy

/-- Everything below a node stands before it. -/
theorem DepFirst.below (h : DepFirst next l) {a b : List α} (e : l = a ++ x :: b)
    (hr : TransGen (Edge next) x y) : y ∈ a := by
  have hfirst : DepFirst next a := by
    refine ⟨(nodup_append.mp (e ▸ h.nodup)).1, fun c z d hd => h.before c z (d ++ x :: b) ?_⟩
    rw [e, hd, append_assoc, cons_append]
  obtain ⟨z, hz, hr⟩ := TransGen.head'_iff.mp hr
  exact hfirst.closed (h.before a x b e z hz) hr

/-- What a walk from the nodes `xs` adds to an enumeration. -/
structure Adds (next : α → List α) (xs : List α) (done done' : List α) : Prop where
  first : DepFirst next done'
  grows : done <+: done'
  exact : ∀ y, y ∈ done' ↔ y ∈ done ∨ Reaches next xs y

variable {done done' : List α} {xs : List α}

theorem Adds.none (h : DepFirst next done) : Adds next [] done done :=
  ⟨h, prefix_rfl, by simp [Reaches]⟩

theorem Adds.append {ys done'' : List α} (h : Adds next xs done done')
    (h' : Adds next ys done' done'') :
    Adds next (xs ++ ys) done done'' where
  first := h'.first
  grows := h.grows.trans h'.grows
  exact := by
    intro y
    rw [h'.exact, h.exact, or_assoc]
    simp only [Reaches, mem_append, or_and_right, exists_or]

/-- A node that is enumerated already adds nothing. -/
theorem Adds.of_mem (h : DepFirst next done) (hx : x ∈ done) : Adds next [x] done done where
  first := h
  grows := prefix_rfl
  exact := by
    intro y
    simp only [Reaches, mem_singleton, exists_eq_left]
    exact ⟨.inl, fun hy => hy.elim id fun hr => h.closed hx hr⟩

/-- A node does not come up while what it requires is walked. -/
theorem Adds.fresh (hw : Within next n x) (hx : x ∉ done) (h : Adds next (next x) done done') :
    x ∉ done' := by
  intro hmem
  rcases (h.exact x).mp hmem with hd | ⟨y, hy, hr⟩
  · exact hx hd
  · exact hw.irrefl (.head' hy hr)

/-- A node after what it requires. -/
theorem Adds.visit (hw : Within next n x) (hx : x ∉ done) (h : Adds next (next x) done done') :
    Adds next [x] done (done' ++ [x]) where
  first := h.first.snoc (h.fresh hw hx) fun y hy => (h.exact y).mpr (.inr ⟨y, hy, .refl⟩)
  grows := h.grows.trans (prefix_append _ _)
  exact := by
    intro y
    simp only [Reaches, mem_append, mem_singleton, h.exact, exists_eq_left, or_assoc]
    refine or_congr_right ?_
    constructor
    · rintro (⟨z, hz, hr⟩ | rfl)
      · exact .head hz hr
      · exact .refl
    · intro hr
      rcases ReflTransGen.cases_head hr with e | ⟨z, hz, hr⟩
      · exact .inr e.symm
      · exact .inl ⟨z, hz, hr⟩

end Machine.Postorder
