import Mathlib.Data.List.Infix
import Mathlib.Logic.Relation
import Mathlib.Tactic.TypeStar

/-!
# Paths of a graph in the order of a depth-first walk

A graph is given by the list of what follows each node, and entered by a list of roots. A path is
the list of positions taken: the place of a root, then places in the lists of followers. Paths are
compared from the left (`Earlier`); a path that no earlier path to the same node precedes is a
`First` path. A depth-first walk meets every node on its first path.
-/

namespace Machine.Paths

open List

variable {α : Type*} (next : α → List α)

/-! ## 1. Reachability -/

def Edge (a b : α) : Prop := b ∈ next a

/-- Some root reaches `v`. -/
def Reaches (roots : List α) (v : α) : Prop :=
  ∃ r ∈ roots, Relation.ReflTransGen (Edge next) r v

/-- No reached node is on a cycle. -/
def Acyclic (roots : List α) : Prop :=
  ∀ v, Reaches next roots v → ¬ Relation.TransGen (Edge next) v v

/-- `Steps n u v`: `n` edges lead from `u` to `v`. -/
inductive Steps : Nat → α → α → Prop where
  | refl {u : α} : Steps 0 u u
  | head {n : Nat} {u w v : α} (he : Edge next u w) (ht : Steps n w v) : Steps (n + 1) u v

/-! ## 2. Paths -/

/-- The path enters at a root and leads to a node. It has one edge less than places. -/
inductive Leads : List α → List Nat → α → Prop where
  | root {roots : List α} {i : Nat} {v : α} (h : roots[i]? = some v) : Leads roots [i] v
  | step {roots : List α} {i : Nat} {u v : α} {path : List Nat} (h : roots[i]? = some u)
      (ht : Leads (next u) path v) : Leads roots (i :: path) v

/-- At the first place where they differ, the first path takes the smaller place. -/
inductive Earlier : List Nat → List Nat → Prop where
  | here {i j : Nat} {p q : List Nat} (h : i < j) : Earlier (i :: p) (j :: q)
  | there {i : Nat} {p q : List Nat} (h : Earlier p q) : Earlier (i :: p) (i :: q)

/-- A path to `v` that no earlier one precedes. -/
def First (roots : List α) (path : List Nat) (v : α) : Prop :=
  Leads next roots path v ∧ ∀ p, Leads next roots p v → ¬ Earlier p path

variable {next} {roots : List α} {p q path : List Nat} {i j n : Nat} {u v : α}

theorem Leads.ne_nil (h : Leads next roots path v) : path ≠ [] := by
  cases h <;> exact cons_ne_nil _ _

/-- A path leads to one node. -/
theorem Leads.unique (hu : Leads next roots path u) (hv : Leads next roots path v) : u = v := by
  induction hu with
  | root h =>
    cases hv with
    | root h' => exact Option.some.inj (h.symm.trans h')
    | step _ ht => exact absurd rfl ht.ne_nil
  | step h ht ih =>
    cases hv with
    | root _ => exact absurd rfl ht.ne_nil
    | step h' ht' =>
      cases Option.some.inj (h.symm.trans h')
      exact ih ht'

/-- One place more is one edge more. -/
theorem Leads.snoc (hu : Leads next roots path u) (h : (next u)[i]? = some v) :
    Leads next roots (path ++ [i]) v := by
  induction hu with
  | root hr => exact .step hr (.root h)
  | step hr _ ih => exact .step hr (ih h)

/-- What lies on a path beyond a node. -/
theorem Leads.beyond (hu : Leads next roots p u) (hv : Leads next roots (p ++ q) v) (hq : q ≠ []) :
    Leads next (next u) q v := by
  induction hu with
  | @root roots i u hr =>
    cases hv with
    | root _ => exact absurd rfl hq
    | step hr' ht =>
      cases Option.some.inj (hr.symm.trans hr')
      exact ht
  | @step _ _ _ _ rest hr hu ih =>
    have hrest : rest ++ q ≠ [] := append_ne_nil_of_left_ne_nil hu.ne_nil _
    rw [cons_append] at hv
    generalize hpq : rest ++ q = pq at hv hrest
    cases hv with
    | step hr' ht =>
      cases Option.some.inj (hr.symm.trans hr')
      exact ih (hpq ▸ ht)
    | root _ => exact absurd rfl hrest

theorem Leads.trans (hu : Leads next roots p u) (hv : Leads next (next u) q v) :
    Leads next roots (p ++ q) v := by
  induction hu with
  | root hr => exact .step hr hv
  | step hr _ ih => exact .step hr (ih hv)

theorem Leads.reaches (h : Leads next roots path v) : Reaches next roots v := by
  induction h with
  | root h => exact ⟨_, mem_of_getElem? h, .refl⟩
  | step h _ ih =>
    obtain ⟨w, hw, hv⟩ := ih
    exact ⟨_, mem_of_getElem? h, .head hw hv⟩

/-- The rest of a path is a chain of edges. -/
theorem Leads.transGen (h : Leads next (next u) path v) : Relation.TransGen (Edge next) u v := by
  obtain ⟨w, hw, hv⟩ := h.reaches
  exact .head' hw hv

theorem reaches_iff_leads : Reaches next roots v ↔ ∃ path, Leads next roots path v := by
  constructor
  · intro h
    obtain ⟨r, hr, hv⟩ := h
    induction hv with
    | refl =>
      obtain ⟨i, hi⟩ := List.getElem?_of_mem hr
      exact ⟨[i], .root hi⟩
    | tail _ he ih =>
      obtain ⟨path, hp⟩ := ih
      obtain ⟨i, hi⟩ := List.getElem?_of_mem he
      exact ⟨path ++ [i], hp.snoc hi⟩
  · intro h
    obtain ⟨path, hp⟩ := h
    exact hp.reaches

/-- A path with one place more than edges. -/
theorem Leads.steps (h : Leads next roots path v) :
    ∃ n, path.length = n + 1 ∧ ∃ r ∈ roots, Steps next n r v := by
  induction h with
  | root h => exact ⟨0, rfl, _, mem_of_getElem? h, .refl⟩
  | step h _ ih =>
    obtain ⟨n, hn, w, hw, hv⟩ := ih
    exact ⟨n + 1, by rw [length_cons, hn], _, mem_of_getElem? h, .head hw hv⟩

theorem reaches_of_mem (h : v ∈ roots) : Reaches next roots v := ⟨v, h, .refl⟩

theorem reaches_perm {roots' : List α} (h : roots.Perm roots') :
    Reaches next roots v ↔ Reaches next roots' v :=
  exists_congr fun _ => and_congr_left fun _ => h.mem_iff

/-- A set closed under edges holds what its members reach. -/
theorem closed_transGen {S : α → Prop} (hS : ∀ a, S a → ∀ b, Edge next a b → S b)
    (hu : ∀ b, Edge next u b → S b) (h : Relation.TransGen (Edge next) u v) : S v := by
  induction h with
  | single he => exact hu _ he
  | tail _ he ih => exact hS _ ih _ he

/-! ## 3. The order of paths -/

theorem Earlier.append (h : Earlier p q) (r : List Nat) : Earlier p (q ++ r) := by
  induction h with
  | here h => exact .here h
  | there _ ih => exact .there ih

theorem Earlier.append_left (h : Earlier p q) (r : List Nat) : Earlier (p ++ r) q := by
  induction h with
  | here h => exact .here h
  | there _ ih => exact .there ih

theorem Earlier.under (h : Earlier p q) : Earlier (path ++ p) (path ++ q) := by
  induction path with
  | nil => exact h
  | cons k path ih => exact .there ih

theorem earlier_append_of_lt (r s : List Nat) (h : i < j) :
    Earlier (path ++ i :: r) (path ++ j :: s) :=
  (Earlier.here h).under

/-- What comes before a path comes before the place after it. -/
theorem Earlier.succ {r : List Nat} (h : Earlier p (path ++ n :: r)) :
    Earlier p (path ++ [n + 1]) := by
  induction path generalizing p with
  | nil =>
    cases h with
    | here h => exact .here (Nat.lt_succ_of_lt h)
    | there _ => exact .here (Nat.lt_succ_self n)
  | cons k path ih =>
    cases h with
    | here h => exact .here h
    | there h => exact .there (ih h)

/-- Nothing comes before a first place. -/
theorem Earlier.of_zero (h : Earlier p (path ++ [0])) : Earlier p path := by
  induction path generalizing p with
  | nil =>
    cases h with
    | here h => exact absurd h (Nat.not_lt_zero _)
    | there h => cases h
  | cons k path ih =>
    cases h with
    | here h => exact .here h
    | there h => exact .there (ih h)

/-- What comes before the next place comes before this one, or goes through it. -/
theorem Earlier.succ_cases (h : Earlier p (path ++ [n + 1])) :
    Earlier p (path ++ [n]) ∨ ∃ r, p = path ++ n :: r := by
  induction path generalizing p with
  | nil =>
    cases h with
    | @here i _ r _ h =>
      rcases Nat.lt_or_eq_of_le (Nat.le_of_lt_succ h) with hlt | heq
      · exact .inl (.here hlt)
      · exact .inr ⟨r, by rw [heq, nil_append]⟩
    | there h => cases h
  | cons k path ih =>
    cases h with
    | here h => exact .inl (.here h)
    | there h =>
      rcases ih h with h | ⟨r, hr⟩
      · exact .inl (.there h)
      · exact .inr ⟨r, by rw [hr, cons_append]⟩

/-- Every path comes before the place after the last root. -/
theorem Leads.earlier_length (h : Leads next roots path v) : Earlier path [roots.length] := by
  cases h with
  | root h | step h _ => exact .here (List.getElem?_eq_some_iff.mp h).1

/-- A path to a root that comes before it starts at an earlier root. -/
theorem not_first_root_iff (h : roots[i]? = some v) :
    ¬ First next roots [i] v ↔ Reaches next (roots.take i) v := by
  have htake : ∀ {k : Nat} {w : α}, k < i → roots[k]? = some w → (roots.take i)[k]? = some w := by
    intro k w hk hw
    rw [List.getElem?_take_of_lt hk, hw]
  constructor
  · intro hf
    have hp : ∃ p, Leads next roots p v ∧ Earlier p [i] := by
      by_contra hno
      exact hf ⟨.root h, fun p hp he => hno ⟨p, hp, he⟩⟩
    obtain ⟨p, hp, he⟩ := hp
    cases he with
    | here hlt =>
      cases hp with
      | root hw => exact reaches_iff_leads.mpr ⟨_, .root (htake hlt hw)⟩
      | step hw ht => exact reaches_iff_leads.mpr ⟨_, .step (htake hlt hw) ht⟩
    | there he => cases he
  · intro hr hf
    obtain ⟨p, hp⟩ := reaches_iff_leads.mp hr
    have hback : ∀ {k : Nat} {w : α}, (roots.take i)[k]? = some w → k < i ∧ roots[k]? = some w := by
      intro k w hw
      have hk : k < i := by
        have := (List.getElem?_eq_some_iff.mp hw).1
        rw [length_take] at this
        omega
      rw [List.getElem?_take_of_lt hk] at hw
      exact ⟨hk, hw⟩
    cases hp with
    | root hw => exact hf.2 _ (.root (hback hw).2) (.here (hback hw).1)
    | step hw ht => exact hf.2 _ (.step (hback hw).2 ht) (.here (hback hw).1)

end Machine.Paths
